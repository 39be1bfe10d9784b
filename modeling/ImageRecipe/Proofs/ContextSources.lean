import ImageRecipe.Proofs.ArchiveStarts
import ImageRecipe.Proofs.CacheHistory
import ImageRecipe.Proofs.ContextStreams

/-! What the bytes of a context tell of its sources. Nothing in front of a source says how long it is: an archive tells
by itself where it ends, a regular file does not. So the bytes tell the sources apart as long as no file whose size is
open stands in front of another source. -/

namespace ImageRecipe.BuildContext

/-- What there is at a path, as far as a build takes note of it. -/
inductive Source where
  | missing
  /-- A regular file with its bytes. -/
  | file (data : List UInt8)
  /-- A directory with its archive. -/
  | directory (archive : List UInt8)
  deriving DecidableEq

namespace Source

/-- The bytes that stand for a source. -/
def bytes : Source → List UInt8
  | missing => Archive.bytesOfText "missing\n"
  | file data => Archive.bytesOfText "file\n" ++ data
  | directory archive => archive

def isFile : Source → Bool
  | file _ => true
  | _ => false

/-- Whether two sources are of one kind, and of one size if they are files. -/
def SameFrame : Source → Source → Prop
  | missing, missing => True
  | file data, file data' => data.length = data'.length
  | directory _, directory _ => True
  | _, _ => False

/-- An archive of a source is one that a directory has. -/
def Packed (s : Source) : Prop := ∀ a, s = directory a → Archive.IsPack a

end Source

/-- A source under its heading. -/
abbrev Part := String × Source

/-- The bytes of parts in a row, each of them with its heading in front. -/
def bytesOf (l : List Part) : List UInt8 := l.flatMap fun e => Archive.bytesOfText (e.1 ++ "\n") ++ e.2.bytes

/-- The parts that a context can have: no heading has a zero byte in it, and directories have their archives. -/
def Sound (l : List Part) : Prop := ∀ e ∈ l, 0 ∉ Archive.bytesOfText e.1 ∧ e.2.Packed

/-- Parts whose bytes tell them apart: the first are of the same kinds, with files of the same sizes; then there are no
files; and then come parts that are the same in both. -/
def Comparable (l l' : List Part) : Prop :=
  ∃ front front' middle middle' rest, l = front ++ (middle ++ rest) ∧ l' = front' ++ (middle' ++ rest) ∧
    List.Forall₂ (fun e e' => e.2.SameFrame e'.2) front front' ∧
      (∀ e ∈ middle, e.2.isFile = false) ∧ ∀ e ∈ middle', e.2.isFile = false

section Parts

variable {l l' : List Part} {s s' : Source} {r r' : List UInt8}

theorem bytesOf_cons (e : Part) (l : List Part) :
    bytesOf (e :: l) = Archive.bytesOfText (e.1 ++ "\n") ++ (e.2.bytes ++ bytesOf l) := by
  simp [bytesOf]

theorem bytesOf_append (l l' : List Part) : bytesOf (l ++ l') = bytesOf l ++ bytesOf l' := List.flatMap_append

theorem zero_notMem_line {heading : String} (h : 0 ∉ Archive.bytesOfText heading) :
    0 ∉ Archive.bytesOfText (heading ++ "\n") := by
  have hline : (0 : UInt8) ∉ Archive.bytesOfText "\n" := by decide +kernel
  change 0 ∉ FileName.ofText (heading ++ "\n")
  rw [FileName.ofText_append, List.mem_append, not_or]
  exact ⟨h, hline⟩

/-- Without files, the bytes of parts are a text up to the first archive. -/
theorem exists_text (hs : Sound l) (hf : ∀ e ∈ l, e.2.isFile = false) :
    ∃ t y, bytesOf l = t ++ y ∧ 0 ∉ t ∧ (y = [] ∨ ∃ a r, Archive.IsPack a ∧ y = a ++ r) := by
  induction l with
  | nil => exact ⟨[], [], rfl, by simp, .inl rfl⟩
  | cons e l ih =>
    obtain ⟨heading, s⟩ := e
    obtain ⟨hheading, hpacked⟩ := hs _ List.mem_cons_self
    have hline := zero_notMem_line hheading
    rw [bytesOf_cons]
    cases s with
    | missing =>
      obtain ⟨t, y, heq, hfree, hy⟩ := ih (fun e he => hs e (.tail _ he)) fun e he => hf e (.tail _ he)
      have hmissing : (0 : UInt8) ∉ Source.missing.bytes := by decide +kernel
      refine ⟨Archive.bytesOfText (heading ++ "\n") ++ (Source.missing.bytes ++ t), y, ?_, ?_, hy⟩
      · rw [heq, List.append_assoc, List.append_assoc]
      · simp only [List.mem_append, not_or]
        exact ⟨hline, hmissing, hfree⟩
    | file data => cases hf _ List.mem_cons_self
    | directory a =>
      exact ⟨Archive.bytesOfText (heading ++ "\n"), a ++ bytesOf l, rfl, hline, .inr ⟨a, _, hpacked a rfl, rfl⟩⟩

/-- Sources of one kind, and files of one size, are told apart by the bytes, and it is seen where they end. -/
theorem eq_of_sameFrame (h : s.SameFrame s') (hp : s.Packed) (hp' : s'.Packed)
    (hl : (s.bytes ++ r).length < Text.limit64) (heq : s.bytes ++ r = s'.bytes ++ r') : s = s' ∧ r = r' := by
  cases s with
  | missing =>
    cases s' with
    | missing => exact ⟨rfl, List.append_cancel_left heq⟩
    | file | directory => exact h.elim
  | file data =>
    cases s' with
    | file data' =>
      unfold Source.bytes at heq
      rw [List.append_assoc, List.append_assoc] at heq
      obtain ⟨hdata, hr⟩ := List.append_inj (List.append_cancel_left heq) h
      exact ⟨congrArg _ hdata, hr⟩
    | missing | directory => exact h.elim
  | directory a =>
    cases s' with
    | directory a' =>
      obtain ⟨es, hes⟩ := hp a rfl
      obtain ⟨es', hes'⟩ := hp' a' rfl
      obtain ⟨-, hr⟩ := Archive.pack_append_inj hes hes' hl heq
      rw [← hr] at heq
      exact ⟨congrArg _ (List.append_cancel_right heq), hr⟩
    | missing | file => exact h.elim

/-- A directory is not taken for something missing, whatever comes after the one and the other, if no file does. -/
theorem directory_ne_missing {a : List UInt8} (ha : Archive.IsPack a) (hs : Sound l)
    (hf : ∀ e ∈ l, e.2.isFile = false) : a ++ r ≠ Source.missing.bytes ++ bytesOf l := by
  obtain ⟨t, y, heq, hfree, hy⟩ := exists_text hs hf
  have hmissing : (0 : UInt8) ∉ Source.missing.bytes ∧ Source.missing.bytes ≠ [] := by decide +kernel
  rw [heq, ← List.append_assoc]
  refine ha.append_ne_text (by simp [hmissing.2]) ?_ hy
  rw [List.mem_append, not_or]
  exact ⟨hmissing.1, hfree⟩

/-- Parts without files are told apart by their bytes. -/
theorem eq_of_bytesOf_eq_of_no_file : ∀ {l l' : List Part}, l.map Prod.fst = l'.map Prod.fst → Sound l → Sound l' →
    (∀ e ∈ l, e.2.isFile = false) → (∀ e ∈ l', e.2.isFile = false) → (bytesOf l).length < Text.limit64 →
    bytesOf l = bytesOf l' → l = l'
  | [], [], _, _, _, _, _, _, _ => rfl
  | (heading, s) :: l, (heading', s') :: l', hmap, hs, hs', hf, hf', hl, heq => by
    obtain ⟨rfl, hrest⟩ := List.cons.inj hmap
    obtain ⟨-, hp⟩ := hs _ List.mem_cons_self
    obtain ⟨-, hp'⟩ := hs' _ List.mem_cons_self
    have htail : Sound l := fun e he => hs e (.tail _ he)
    have htail' : Sound l' := fun e he => hs' e (.tail _ he)
    have hftail : ∀ e ∈ l, e.2.isFile = false := fun e he => hf e (.tail _ he)
    have hftail' : ∀ e ∈ l', e.2.isFile = false := fun e he => hf' e (.tail _ he)
    rw [bytesOf_cons, bytesOf_cons] at heq
    rw [bytesOf_cons] at hl
    have heq := List.append_cancel_left heq
    have hl := Archive.lt_of_append hl
    have hframe : s.SameFrame s' := by
      cases s with
      | missing =>
        cases s' with
        | missing => trivial
        | file => cases hf' _ List.mem_cons_self
        | directory a' => exact (directory_ne_missing (hp' a' rfl) htail hftail heq.symm).elim
      | file => cases hf _ List.mem_cons_self
      | directory a =>
        cases s' with
        | missing => exact (directory_ne_missing (hp a rfl) htail' hftail' heq).elim
        | file => cases hf' _ List.mem_cons_self
        | directory => trivial
    obtain ⟨rfl, hr⟩ := eq_of_sameFrame hframe hp hp' hl heq
    rw [eq_of_bytesOf_eq_of_no_file hrest htail htail' hftail hftail' (Archive.lt_of_append hl) hr]

/-- Comparable parts with one list of headings are told apart by their bytes. -/
theorem Comparable.eq_of_bytesOf_eq (h : Comparable l l') (hmap : l.map Prod.fst = l'.map Prod.fst) (hs : Sound l)
    (hs' : Sound l') (hl : (bytesOf l).length < Text.limit64) (heq : bytesOf l = bytesOf l') : l = l' := by
  obtain ⟨front, front', middle, middle', rest, rfl, rfl, hfront, hmiddle, hmiddle'⟩ := h
  induction hfront with
  | nil =>
    simp only [List.nil_append, List.map_append, bytesOf_append] at hmap heq hl hs hs' ⊢
    rw [List.length_append] at hl
    rw [eq_of_bytesOf_eq_of_no_file (List.append_cancel_right hmap) (fun e he => hs e (by simp [he]))
      (fun e he => hs' e (by simp [he])) hmiddle hmiddle' (by omega) (List.append_cancel_right heq)]
  | @cons e e' front front' hframe _ ih =>
    obtain ⟨heading, s⟩ := e
    obtain ⟨heading', s'⟩ := e'
    obtain ⟨rfl, hrest⟩ := List.cons.inj hmap
    simp only [List.cons_append, bytesOf_cons] at heq hl
    have hl := Archive.lt_of_append hl
    obtain ⟨rfl, hr⟩ := eq_of_sameFrame hframe (hs _ (by simp)).2 (hs' _ (by simp)).2 hl
      (List.append_cancel_left heq)
    rw [List.cons_append, List.cons_append, ih (fun e he => hs e (.tail _ he)) (Archive.lt_of_append hl)
      (fun e he => hs' e (.tail _ he)) hrest hr]

end Parts

/-! The sources of a plan's context. -/

section Context

variable {w w' : Workshop} {d : WorkDirectory} {instructions : List Instruction} {p : Plan} {h h' : Host}
  {places : List (String × String)} {l l' : List Part}

/-- What there is at a path of a host. -/
def sourceAt (h : Host) (path : String) : Except Fault Source :=
  if h.files.isDirectory h.directory path then (Archive.packDirectory h.files h.directory path {}).map .directory
  else if h.files.isFile h.directory path then (h.files.read h.directory path).map fun b => .file b.toList
  else .ok .missing

theorem packed_of_sourceAt {path : String} {s : Source} (hs : sourceAt h path = .ok s) : s.Packed := by
  rintro a rfl
  unfold sourceAt at hs
  split at hs
  · obtain ⟨a', ha, heq⟩ := map_eq_ok.1 hs
    cases heq
    obtain ⟨es, hes, -⟩ := Archive.packDirectory_ok ha
    exact ⟨es, hes⟩
  · split at hs
    · obtain ⟨_, -, heq⟩ := map_eq_ok.1 hs
      cases heq
    · cases hs

/-- The bytes of a source are read from the host, and nothing is changed. -/
theorem yields_sourceBytes {path : String} {bs : List UInt8} (hy : Yields (sourceBytes path) w bs w') :
    w = w' ∧ ∃ s, sourceAt w.host path = .ok s ∧ bs = s.bytes := by
  have hsame := (keeps_sourceBytes path).yields hy
  refine ⟨hsame, ?_⟩
  unfold sourceBytes at hy
  obtain ⟨_, _, hget, hy⟩ := (yields_bind ..).1 hy
  obtain ⟨rfl, rfl⟩ := (yields_get ..).1 hget
  dsimp only at hy
  unfold sourceAt
  split at hy
  · next hd =>
    obtain ⟨host, hinspect, -⟩ := (yields_onHost ..).1 hy
    rw [if_pos hd, ((yields_inspect ..).1 hinspect).1]
    exact ⟨.directory bs, rfl, rfl⟩
  · next hd =>
    rw [if_neg hd]
    split at hy
    · next hfile =>
      obtain ⟨data, _, hread, hy⟩ := (yields_bind ..).1 hy
      obtain ⟨rfl, -⟩ := (yields_pure ..).1 hy
      obtain ⟨host, hread, -⟩ := (yields_onHost ..).1 hread
      rw [if_pos hfile, ((yields_inspect ..).1 hread).1]
      exact ⟨.file data.toList, rfl, rfl⟩
    · next hfile =>
      obtain ⟨rfl, -⟩ := (yields_pure ..).1 hy
      rw [if_neg hfile]
      exact ⟨.missing, rfl, rfl⟩

theorem visibleMounts_daemon (plan : DaemonPlan) : visibleMounts (.daemon plan) =
    if (plan.directives.any fun x => x.startsWith "RUN") = true then plan.mounts.entries else [] := rfl

/-- The headings and the paths of the sources of a context. -/
def placesOf (d : WorkDirectory) (instructions : List Instruction) (p : Plan) : List (String × String) :=
  ((copiedLayers instructions).map fun n => ("layer" ++ Text.decimal n, d.layer n)) ++
    (visibleMounts p).map fun m => ("mount " ++ m.1, d.path m.2)

/-- The parts that sources under headings come to on a host. -/
def partsAt (h : Host) (places : List (String × String)) : Except Fault (List Part) :=
  places.mapM fun e => (sourceAt h e.2).map fun s => (e.1, s)

theorem partsAt_cons {e : String × String} : partsAt h (e :: places) = .ok l ↔
    ∃ s rest, sourceAt h e.2 = .ok s ∧ partsAt h places = .ok rest ∧ l = (e.1, s) :: rest := by
  unfold partsAt
  rw [List.mapM_cons, bind_eq_ok]
  constructor
  · rintro ⟨_, hpart, hparts⟩
    obtain ⟨s, hs, rfl⟩ := map_eq_ok.1 hpart
    obtain ⟨rest, hrest, hl⟩ := bind_eq_ok.1 hparts
    exact ⟨s, rest, hs, hrest, (Except.ok.inj hl).symm⟩
  · rintro ⟨s, rest, hs, hrest, rfl⟩
    exact ⟨(e.1, s), map_eq_ok.2 ⟨s, hs, rfl⟩, bind_eq_ok.2 ⟨rest, hrest, rfl⟩⟩

theorem map_fst_of_partsAt : ∀ {places : List (String × String)} {l : List Part}, partsAt h places = .ok l →
    l.map Prod.fst = places.map Prod.fst
  | [], _, hl => by
    cases hl
    rfl
  | e :: places, _, hl => by
    obtain ⟨s, rest, -, hrest, rfl⟩ := partsAt_cons.1 hl
    rw [List.map_cons, List.map_cons, map_fst_of_partsAt hrest]

theorem sound_of_partsAt : ∀ {places : List (String × String)} {l : List Part}, partsAt h places = .ok l →
    (∀ e ∈ places, 0 ∉ Archive.bytesOfText e.1) → Sound l
  | [], _, hl, _ => by
    cases hl
    exact fun e he => absurd he List.not_mem_nil
  | e :: places, _, hl, hfree => by
    obtain ⟨s, rest, hs, hrest, rfl⟩ := partsAt_cons.1 hl
    rintro x (- | ⟨-, hx⟩)
    · exact ⟨hfree e List.mem_cons_self, packed_of_sourceAt hs⟩
    · exact sound_of_partsAt hrest (fun e he => hfree e (.tail _ he)) x hx

/-- On hosts with the same parts there is the same at every path. -/
theorem sourceAt_eq_of_partsAt : ∀ {places : List (String × String)} {l : List Part}, partsAt h places = .ok l →
    partsAt h' places = .ok l → ∀ e ∈ places, sourceAt h e.2 = sourceAt h' e.2
  | [], _, _, _ => fun _ he => absurd he List.not_mem_nil
  | e :: places, _, hl, hl' => by
    obtain ⟨s, rest, hs, hrest, rfl⟩ := partsAt_cons.1 hl
    obtain ⟨s', rest', hs', hrest', heq⟩ := partsAt_cons.1 hl'
    simp only [List.cons.injEq, Prod.mk.injEq, true_and] at heq
    obtain ⟨rfl, rfl⟩ := heq
    rintro x (- | ⟨-, hx⟩)
    · rw [hs, hs']
    · exact sourceAt_eq_of_partsAt hrest hrest' x hx

theorem partsAt_of_headed : ∀ {places : List (String × String)} {parts : List (List UInt8)} {w w' : Workshop},
    Yields (places.mapM fun e => headed e.1 e.2) w parts w' →
      w = w' ∧ ∃ l, partsAt w.host places = .ok l ∧ parts.flatten = bytesOf l
  | [], _, _, _, hy => by
    obtain ⟨rfl, hw⟩ := (yields_mapM_nil ..).1 hy
    exact ⟨hw, [], rfl, rfl⟩
  | e :: places, _, _, _, hy => by
    obtain ⟨part, v, rest, hpart, hrest, rfl⟩ := (yields_mapM_cons ..).1 hy
    unfold headed at hpart
    obtain ⟨bs, _, hsource, hpure⟩ := (yields_bind ..).1 hpart
    obtain ⟨rfl, rfl⟩ := (yields_pure ..).1 hpure
    obtain ⟨rfl, s, hs, rfl⟩ := yields_sourceBytes hsource
    obtain ⟨rfl, l, hl, hflatten⟩ := partsAt_of_headed hrest
    refine ⟨rfl, (e.1, s) :: l, partsAt_cons.2 ⟨s, l, hs, hl, rfl⟩, ?_⟩
    rw [List.flatten_cons, bytesOf_cons, hflatten, List.append_assoc]

/-- The bytes of a context are the lines of its bases and the bytes of its parts. -/
theorem parts_of_stream {bs : List UInt8} (hy : Yields (stream d instructions p) w bs w') :
    ∃ l, partsAt w.host (placesOf d instructions p) = .ok l ∧
      bs = Archive.bytesOfText (baseLines instructions) ++ bytesOf l := by
  unfold stream at hy
  obtain ⟨layers, v, hlayers, hy⟩ := (yields_bind ..).1 hy
  obtain ⟨mounts, v', hmounts, hy⟩ := (yields_bind ..).1 hy
  obtain ⟨rfl, -⟩ := (yields_pure ..).1 hy
  have hboth : Yields ((placesOf d instructions p).mapM fun e => headed e.1 e.2) w (layers ++ mounts) v' := by
    unfold placesOf
    rw [List.mapM_append, List.mapM_map, List.mapM_map]
    exact (yields_bind ..).2 ⟨layers, v, hlayers, (yields_bind ..).2 ⟨mounts, v', hmounts, by simp⟩⟩
  obtain ⟨-, l, hl, hflatten⟩ := partsAt_of_headed hboth
  exact ⟨l, hl, by rw [← hflatten, List.flatten_append, List.append_assoc]⟩

theorem zero_notMem_bytesOfText {s : String} (hs : '\x00' ∉ s.toList) : 0 ∉ Archive.bytesOfText s := by
  change 0 ∉ FileName.ofText s
  rw [FileName.ofText_eq_flatMap, List.mem_flatMap]
  rintro ⟨c, hc, hb⟩
  exact hs (mem_utf8EncodeChar (d := '\x00') (by decide) hb ▸ hc)

/-- The mounts of a compiled plan have the names that the compiler gives them. -/
theorem name_of_mem_mounts {lock : Lockfile} {t : Target} {plan : DaemonPlan}
    (hp : Plan.compile instructions lock t = .ok (.daemon plan)) :
    ∀ m ∈ plan.mounts.entries, m.1 ∈ ["docker", "repos", "packages"] := by
  intro m hm
  obtain ⟨_, -, hp⟩ := bind_eq_ok.1 hp
  split at hp
  · obtain ⟨plan', hplan, heq⟩ := map_eq_ok.1 hp
    obtain rfl : plan' = plan := Plan.daemon.inj heq
    obtain ⟨mounts, hmounts, hplan⟩ := bind_eq_ok.1 hplan
    obtain ⟨_, -, hplan⟩ := bind_eq_ok.1 hplan
    obtain rfl := Except.ok.inj hplan
    obtain ⟨x, hx, rfl⟩ := List.mem_map.1 (SortedMap.mem_of_mem_entries_ofList hm)
    have hmounts := mapError_eq_ok.1 hmounts
    unfold Target.mounts at hmounts
    dsimp only at hmounts
    split at hmounts
    · obtain ⟨_, -, hmounts⟩ := bind_eq_ok.1 hmounts
      obtain rfl := Except.ok.inj hmounts
      simp only [List.mem_cons, List.not_mem_nil, or_false] at hx
      rcases hx with rfl | rfl | rfl <;> simp
    · obtain rfl := Except.ok.inj hmounts
      simp only [List.mem_cons, List.not_mem_nil, or_false] at hx
      simp [hx]
  · obtain ⟨_, -, heq⟩ := map_eq_ok.1 hp
    cases heq

theorem zero_notMem_placesOf {lock : Lockfile} {t : Target} (hp : Plan.compile instructions lock t = .ok p) :
    ∀ e ∈ placesOf d instructions p, 0 ∉ Archive.bytesOfText e.1 := by
  intro e he
  rcases List.mem_append.1 he with he | he
  · obtain ⟨n, -, rfl⟩ := List.mem_map.1 he
    refine zero_notMem_bytesOfText fun hmem => ?_
    rw [String.toList_append, List.mem_append] at hmem
    rcases hmem with hmem | hmem
    · exact absurd hmem (by decide)
    · rw [Text.decimal, String.toList_ofList] at hmem
      exact absurd (Nat.isDigit_of_mem_toDigits (by decide) (by decide) hmem) (by decide)
  · obtain ⟨m, hm, rfl⟩ := List.mem_map.1 he
    have hname : m.1 ∈ ["docker", "repos", "packages"] := by
      cases p with
      | direct => exact absurd hm List.not_mem_nil
      | daemon plan =>
        rw [visibleMounts_daemon] at hm
        split at hm
        · exact name_of_mem_mounts hp m hm
        · exact absurd hm List.not_mem_nil
    have hfree : ∀ name ∈ ["docker", "repos", "packages"], 0 ∉ Archive.bytesOfText ("mount " ++ name) := by
      decide +kernel
    exact hfree m.1 hname

/-- The bytes of a context tell its sources. If a plan has the same bytes in two states of its work directory, and no
more of them than a machine can count, every layer that it copies is the same in both, and so is the source of every
mount if it has a command to run; that is, as long as the sources can be compared: those that come first are of the
same kinds, with files of the same sizes, no file comes in between, and what comes at the end is the same in both. -/
theorem sources_eq_of_stream_eq {lock : Lockfile} {t : Target} {w₁ w₂ w₁' w₂' : Workshop} {bs : List UInt8}
    (hp : Plan.compile instructions lock t = .ok p) (h₁ : Yields (stream d instructions p) w₁ bs w₁')
    (h₂ : Yields (stream d instructions p) w₂ bs w₂') (hl : bs.length < Text.limit64)
    (hc : ∀ l₁ l₂, partsAt w₁.host (placesOf d instructions p) = .ok l₁ →
      partsAt w₂.host (placesOf d instructions p) = .ok l₂ → Comparable l₁ l₂) :
    (∀ n ∈ copiedLayers instructions, sourceAt w₁.host (d.layer n) = sourceAt w₂.host (d.layer n)) ∧
      ∀ plan, p = .daemon plan → (plan.directives.any fun x => x.startsWith "RUN") = true →
        ∀ m ∈ plan.mounts.entries, sourceAt w₁.host (d.path m.2) = sourceAt w₂.host (d.path m.2) := by
  obtain ⟨l₁, hl₁, hbs₁⟩ := parts_of_stream h₁
  obtain ⟨l₂, hl₂, hbs₂⟩ := parts_of_stream h₂
  have hfree := zero_notMem_placesOf (d := d) hp
  have hsame : l₁ = l₂ := by
    refine (hc l₁ l₂ hl₁ hl₂).eq_of_bytesOf_eq ?_ (sound_of_partsAt hl₁ hfree) (sound_of_partsAt hl₂ hfree) ?_ ?_
    · rw [map_fst_of_partsAt hl₁, map_fst_of_partsAt hl₂]
    · rw [hbs₁] at hl
      exact Archive.lt_of_append hl
    · exact List.append_cancel_left (hbs₁.symm.trans hbs₂)
  have hall := sourceAt_eq_of_partsAt hl₁ (hsame ▸ hl₂)
  refine ⟨fun n hn => ?_, fun plan hplan hruns m hm => ?_⟩
  · exact hall ("layer" ++ Text.decimal n, d.layer n) (List.mem_append_left _ (List.mem_map.2 ⟨n, hn, rfl⟩))
  · subst hplan
    refine hall ("mount " ++ m.1, d.path m.2) (List.mem_append_right _ (List.mem_map.2 ⟨m, ?_, rfl⟩))
    rwa [visibleMounts_daemon, if_pos hruns]

end Context

namespace Sample

open ImageRecipe.Sample

/-- Instructions with a layer to copy and a command to run. -/
def copying : List Instruction := [.base "i" "v" none, .copy 0 none, .run ["true"]]

def plan : Plan :=
  .daemon {
    directives := ["FROM i:v", "COPY context/layer0 /",
      "RUN --mount=type=bind,readonly,target=/var/kiln-ephemeral,source=ephemeral/docker \\\n true"]
    mounts := SortedMap.empty.insert "docker" "ephemeral/docker" }

theorem compile_copying : Plan.compile copying Lockfile.empty
    { distribution := .ubuntu, architecture := .x86, builder := .daemon } = .ok plan := by
  decide

/-- The files of the workshop with an empty layer. -/
def layered : FileTree :=
  (workshop.host.files.put [FileName.ofText "w", FileName.ofText "context"] (.directory directoryMode)).put
    [FileName.ofText "w", FileName.ofText "context", FileName.ofText "layer0"] (.directory directoryMode)

/-- The same files and one more that is no part of a context. -/
def noted : FileTree := layered.put [FileName.ofText "n"] (.file 0o644 (Text.bytes "n"))

/-- The bytes of the context are the same with the file, and not too many. -/
theorem stream_layered :
    (ran (stream ⟨"/w"⟩ copying plan) { workshop with host.files := layered }).1.isOk = true ∧
      (ran (stream ⟨"/w"⟩ copying plan) { workshop with host.files := layered }).1 =
        (ran (stream ⟨"/w"⟩ copying plan) { workshop with host.files := noted }).1 ∧
      ((ran (stream ⟨"/w"⟩ copying plan) { workshop with host.files := layered }).1.toOption.all fun bs =>
        bs.length < Text.limit64) = true := by
  decide +kernel

/-- There is no file among the sources of the context. -/
theorem parts_layered : ∀ files ∈ [layered, noted],
    ((partsAt { workshop.host with files } (placesOf ⟨"/w"⟩ copying plan)).toOption.all fun l =>
      l.all fun e => !e.2.isFile) = true := by
  decide +kernel

theorem comparable_layered {l l' : List Part}
    (hl : partsAt { workshop.host with files := layered } (placesOf ⟨"/w"⟩ copying plan) = .ok l)
    (hl' : partsAt { workshop.host with files := noted } (placesOf ⟨"/w"⟩ copying plan) = .ok l') :
    Comparable l l' := by
  have h := parts_layered layered (by simp)
  have h' := parts_layered noted (by simp)
  rw [hl] at h
  rw [hl'] at h'
  exact ⟨[], [], l, l', [], by simp, by simp, .nil, by simpa [Except.toOption] using h,
    by simpa [Except.toOption] using h'⟩

end Sample

open ImageRecipe.Sample in
/-- An empty layer and a mount that is missing are the same with a file that is no part of the context and without
it. -/
theorem sources_eq_of_stream_eq_sample :
    (∃ bs w₁ w₂,
      Yields (stream ⟨"/w"⟩ Sample.copying Sample.plan) { workshop with host.files := Sample.layered } bs w₁ ∧
      Yields (stream ⟨"/w"⟩ Sample.copying Sample.plan) { workshop with host.files := Sample.noted } bs w₂) ∧
      sourceAt { workshop.host with files := Sample.layered } (WorkDirectory.layer ⟨"/w"⟩ 0) =
        sourceAt { workshop.host with files := Sample.noted } (WorkDirectory.layer ⟨"/w"⟩ 0) ∧
      sourceAt { workshop.host with files := Sample.layered } (WorkDirectory.path ⟨"/w"⟩ "ephemeral/docker") =
        sourceAt { workshop.host with files := Sample.noted } (WorkDirectory.path ⟨"/w"⟩ "ephemeral/docker") := by
  obtain ⟨bs, hbs⟩ := exists_of_isOk Sample.stream_layered.1
  have h₁ : Yields (stream ⟨"/w"⟩ Sample.copying Sample.plan) { workshop with host.files := Sample.layered } bs _ :=
    Prod.ext hbs rfl
  have h₂ : Yields (stream ⟨"/w"⟩ Sample.copying Sample.plan) { workshop with host.files := Sample.noted } bs _ :=
    Prod.ext (Sample.stream_layered.2.1.symm.trans hbs) rfl
  have hl := Sample.stream_layered.2.2
  rw [hbs] at hl
  obtain ⟨hlayers, hmounts⟩ := sources_eq_of_stream_eq Sample.compile_copying h₁ h₂
    (by simpa [Except.toOption] using hl) fun _ _ => Sample.comparable_layered
  refine ⟨⟨bs, _, _, h₁, h₂⟩, hlayers 0 (by decide), ?_⟩
  exact hmounts _ rfl (by decide +kernel) ("docker", "ephemeral/docker") (by decide)

end ImageRecipe.BuildContext
