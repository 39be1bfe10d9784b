import ImageRecipe.Text.Hex

/-! The BLAKE3 hash of a byte sequence: blocks of 64 bytes are compressed into chunks of 1024, and chunks
are joined pairwise into a binary tree whose root gives the digest. -/

namespace ImageRecipe.Blake3

abbrev ChainingValue := Vector UInt32 8
abbrev Block := Vector UInt32 16

/-- The first words of the square roots that seed every chunk. -/
def seed : ChainingValue :=
  #v[0x6A09E667, 0xBB67AE85, 0x3C6EF372, 0xA54FF53A, 0x510E527F, 0x9B05688C, 0x1F83D9AB, 0x5BE0CD19]

def chunkStart : UInt32 := 1
def chunkEnd : UInt32 := 2
def parent : UInt32 := 4
def root : UInt32 := 8

def blockBytes : Nat := 64
def chunkBytes : Nat := 1024

def rotateRight (x : UInt32) (n : UInt32) : UInt32 := (x >>> n) ||| (x <<< (32 - n))

/-- One quarter round on four words of the state with two words of the message. -/
def quarter (v : Block) (a b c d : Fin 16) (x y : UInt32) : Block :=
  let va := v[a] + v[b] + x
  let vd := rotateRight (v[d] ^^^ va) 16
  let vc := v[c] + vd
  let vb := rotateRight (v[b] ^^^ vc) 12
  let va := va + vb + y
  let vd := rotateRight (vd ^^^ va) 8
  let vc := vc + vd
  let vb := rotateRight (vb ^^^ vc) 7
  (((v.set a va).set b vb).set c vc).set d vd

/-- One round: the four columns, then the four diagonals. -/
def round (v m : Block) : Block :=
  let v := quarter v 0 4 8 12 m[0] m[1]
  let v := quarter v 1 5 9 13 m[2] m[3]
  let v := quarter v 2 6 10 14 m[4] m[5]
  let v := quarter v 3 7 11 15 m[6] m[7]
  let v := quarter v 0 5 10 15 m[8] m[9]
  let v := quarter v 1 6 11 12 m[10] m[11]
  let v := quarter v 2 7 8 13 m[12] m[13]
  quarter v 3 4 9 14 m[14] m[15]

/-- The order of the message words in the next round. -/
def permute (m : Block) : Block :=
  #v[m[2], m[6], m[3], m[10], m[7], m[0], m[4], m[13], m[1], m[11], m[12], m[5], m[9], m[14], m[15], m[8]]

/-- All that one compression reads. -/
structure Node where
  input : ChainingValue
  block : Block
  counter : Nat
  length : Nat
  flags : UInt32

/-- The compression function, cut to its first half. -/
def Node.compress (node : Node) (flags : UInt32) : ChainingValue :=
  let h := node.input
  let start : Block :=
    #v[h[0], h[1], h[2], h[3], h[4], h[5], h[6], h[7], seed[0], seed[1], seed[2], seed[3],
      UInt32.ofNat node.counter, UInt32.ofNat (node.counter / 4294967296), UInt32.ofNat node.length,
      node.flags ||| flags]
  let m := node.block
  let v := round start m
  let m := permute m
  let v := round v m
  let m := permute m
  let v := round v m
  let m := permute m
  let v := round v m
  let m := permute m
  let v := round v m
  let m := permute m
  let v := round v m
  let m := permute m
  let v := round v m
  #v[v[0] ^^^ v[8], v[1] ^^^ v[9], v[2] ^^^ v[10], v[3] ^^^ v[11], v[4] ^^^ v[12], v[5] ^^^ v[13],
    v[6] ^^^ v[14], v[7] ^^^ v[15]]

def Node.value (node : Node) : ChainingValue := node.compress 0

/-- A byte of the data, or zero from `stop` on: a last block is filled with zeros. -/
def byteAt (data : ByteArray) (i stop : Nat) : UInt32 :=
  if i < stop then (data.get! i).toUInt32 else 0

/-- The block at a position, filled up with zeros behind the end of the data. -/
def blockAt (data : ByteArray) (offset stop : Nat) : Block :=
  Vector.ofFn fun i : Fin 16 =>
    let p := offset + 4 * i.val
    byteAt data p stop ||| (byteAt data (p + 1) stop <<< 8) ||| (byteAt data (p + 2) stop <<< 16) |||
      (byteAt data (p + 3) stop <<< 24)

/-- The last block of a chunk, behind the compressed blocks before it. -/
def chunkFrom (data : ByteArray) (index stop : Nat) :
    Nat → Nat → UInt32 → ChainingValue → Node
  | 0, offset, flags, cv => ⟨cv, blockAt data offset stop, index, stop - offset, flags ||| chunkEnd⟩
  | more + 1, offset, flags, cv =>
    if offset + blockBytes < stop then
      let node : Node := ⟨cv, blockAt data offset stop, index, blockBytes, flags⟩
      chunkFrom data index stop more (offset + blockBytes) 0 node.value
    else ⟨cv, blockAt data offset stop, index, stop - offset, flags ||| chunkEnd⟩

/-- A chunk of at most 1024 bytes. -/
def chunk (data : ByteArray) (index : Nat) : Node :=
  chunkFrom data index (min data.size ((index + 1) * chunkBytes)) 15 (index * chunkBytes) chunkStart seed

/-- The join of two chaining values. -/
def join (left right : ChainingValue) : Node :=
  ⟨seed, left ++ right, 0, blockBytes, parent⟩

/-- The tree over a run of chunks: its left part holds the largest power of two of them that is not all. -/
def tree (data : ByteArray) : Nat → Nat → Nat → Node
  | 0, first, _ => chunk data first
  | depth + 1, first, count =>
    if count ≤ 1 then chunk data first
    else
      let left := Nat.pow 2 (Nat.log2 (count - 1))
      join (tree data depth first left).value (tree data depth (first + left) (count - left)).value

/-- The number of chunks of some data; no data is one empty chunk. -/
def chunkCount (size : Nat) : Nat := max 1 ((size + chunkBytes - 1) / chunkBytes)

def wordBytes (w : UInt32) : List UInt8 :=
  [w.toUInt8, (w >>> 8).toUInt8, (w >>> 16).toUInt8, (w >>> 24).toUInt8]

/-- The 32 bytes of the digest. -/
def digest (data : ByteArray) : List UInt8 :=
  let count := chunkCount data.size
  ((tree data count 0 count).compress root).toList.flatMap wordBytes

/-- The digest in hexadecimal. -/
def hex (data : ByteArray) : String := String.ofList (Text.hexOfBytes (digest data))

/-- The digest of a text's UTF-8 bytes in hexadecimal. -/
def hexOfText (s : String) : String := hex s.toUTF8

end ImageRecipe.Blake3
