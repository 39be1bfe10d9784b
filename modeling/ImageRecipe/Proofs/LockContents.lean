import ImageRecipe.Proofs.LockfileTexts
import ImageRecipe.Proofs.TextPieces

/-! The text that identifies a lockfile's content. It has a line for each pin and colons between the fields of a pin,
so it tells the lines apart where no field has a line feed, and the fields where only the version has colons. Versions
may have them, as those with an epoch do. -/

namespace ImageRecipe

theorem Distribution.name_injective {d e : Distribution} (h : d.name = e.name) : d = e := by
  have := ofName?_name d
  rw [h, ofName?_name] at this
  exact (Option.some.inj this).symm

theorem Distribution.notMem_name (d : Distribution) : ':' ∉ d.name.toList ∧ '\n' ∉ d.name.toList := by
  cases d <;> decide

namespace Pin

variable {p q : Pin}

/-- The fields of a pin with colons between them. -/
def joined (p : Pin) : String := p.name ++ ":" ++ p.version ++ ":" ++ p.release ++ ":" ++ p.architecture

/-- No field has a line feed. -/
structure OnOneLine (p : Pin) : Prop where
  name : '\n' ∉ p.name.toList
  version : '\n' ∉ p.version.toList
  release : '\n' ∉ p.release.toList
  architecture : '\n' ∉ p.architecture.toList

/-- No field has a colon but the version. -/
structure Parted (p : Pin) : Prop where
  name : ':' ∉ p.name.toList
  release : ':' ∉ p.release.toList
  architecture : ':' ∉ p.architecture.toList

theorem toList_joined (p : Pin) : p.joined.toList = p.name.toList ++ ':' ::
    ((p.version.toList ++ ':' :: p.release.toList) ++ ':' :: p.architecture.toList) := by
  have hcolon : ":".toList = [':'] := by decide
  unfold joined
  simp only [String.toList_append, hcolon, List.append_assoc, List.cons_append, List.nil_append]

theorem OnOneLine.notMem_joined (h : p.OnOneLine) : '\n' ∉ p.joined.toList := by
  rw [toList_joined]
  simp [h.name, h.version, h.release, h.architecture]

/-- The name ends at the first colon, the architecture begins behind the last one and the release behind the one
before that. -/
theorem Parted.eq_of_joined (hp : p.Parted) (hq : q.Parted) (h : p.joined = q.joined) : p = q := by
  have hchars := congrArg String.toList h
  rw [toList_joined, toList_joined] at hchars
  obtain ⟨hname, hrest⟩ := Text.append_cons_inj hp.name hq.name hchars
  obtain ⟨hrest, harchitecture⟩ := Text.append_cons_inj_last hp.architecture hq.architecture hrest
  obtain ⟨hversion, hrelease⟩ := Text.append_cons_inj_last hp.release hq.release hrest
  cases p
  cases q
  simp only [String.toList_inj] at hname hversion hrelease harchitecture
  simp [hname, hversion, hrelease, harchitecture]

end Pin

namespace Lockfile

variable {l l' : Lockfile} {d : Distribution} {p : Pin}

/-- What the line of an entry tells: the distribution and the joined fields. -/
def told (e : Distribution × Pin) : Distribution × String := (e.1, e.2.joined)

/-- The line of an entry without the line feed behind it. -/
private def line (e : Distribution × Pin) : List Char :=
  "pin:".toList ++ (e.1.name.toList ++ ':' :: e.2.joined.toList)

private theorem toList_contentLine (e : Distribution × Pin) : (contentLine e).toList = line e ++ ['\n'] := by
  have hcolon : ":".toList = [':'] := by decide
  have hfeed : "\n".toList = ['\n'] := by decide
  unfold contentLine line
  rw [Pin.toList_joined]
  simp only [String.toList_append, hcolon, hfeed, List.append_assoc, List.cons_append, List.nil_append]

private theorem notMem_line {e : Distribution × Pin} (h : e.2.OnOneLine) : '\n' ∉ line e := by
  unfold line
  simp [e.1.notMem_name.2, h.notMem_joined]

/-- A line tells the distribution, whose name has no colon, and the joined fields. -/
private theorem told_eq_of_line {e f : Distribution × Pin} (h : line e = line f) : told e = told f := by
  obtain ⟨hname, hjoined⟩ := Text.append_cons_inj e.1.notMem_name.1 f.1.notMem_name.1 (List.append_cancel_left h)
  exact Prod.ext (Distribution.name_injective (String.toList_inj.1 hname)) (String.toList_inj.1 hjoined)

private theorem toList_join_contentLine (es : List (Distribution × Pin)) :
    (String.join (es.map contentLine)).toList = es.flatMap fun e => line e ++ ['\n'] := by
  induction es with
  | nil => rfl
  | cons e es ih => rw [List.map_cons, String.join_cons, String.toList_append, ih, toList_contentLine, List.flatMap_cons]

/-- Line by line the text tells what its lines tell. -/
private theorem map_told_eq : ∀ {es es' : List (Distribution × Pin)}, (∀ e ∈ es, e.2.OnOneLine) →
    (∀ e ∈ es', e.2.OnOneLine) → (es.flatMap fun e => line e ++ ['\n']) = (es'.flatMap fun e => line e ++ ['\n']) →
    es.map told = es'.map told
  | [], [], _, _, _ => rfl
  | [], _ :: _, _, _, h => by simp at h
  | _ :: _, [], _, _, h => by simp at h
  | e :: es, f :: es', he, hf, h => by
    rw [List.forall_mem_cons] at he hf
    simp only [List.flatMap_cons, List.append_assoc, List.singleton_append] at h
    obtain ⟨hline, hrest⟩ := Text.append_cons_inj (notMem_line he.1) (notMem_line hf.1) h
    rw [List.map_cons, List.map_cons, told_eq_of_line hline, map_told_eq he.2 hf.2 hrest]

/-- What the lines of a lockfile tell determines its text. -/
private theorem contentText_eq_of_told (h : l.entries.map told = l'.entries.map told) :
    l.contentText = l'.contentText := by
  have hline : ∀ e : Distribution × Pin,
      line e = "pin:".toList ++ ((told e).1.name.toList ++ ':' :: (told e).2.toList) := fun _ => rfl
  have hmap : ∀ es : List (Distribution × Pin), (es.flatMap fun e => line e ++ ['\n']) =
      (es.map told).flatMap fun t => "pin:".toList ++ (t.1.name.toList ++ ':' :: t.2.toList) ++ ['\n'] := by
    intro es
    rw [List.flatMap_map]
    rfl
  unfold contentText
  rw [← String.toList_inj, toList_join_contentLine, toList_join_contentLine, hmap, hmap, h]

/-- Entries with the same lines are the same, if only versions have colons. -/
private theorem entries_eq_of_told : ∀ {es es' : List (Distribution × Pin)}, (∀ e ∈ es, e.2.Parted) →
    (∀ e ∈ es', e.2.Parted) → es.map told = es'.map told → es = es'
  | [], [], _, _, _ => rfl
  | [], _ :: _, _, _, h => by simp at h
  | _ :: _, [], _, _, h => by simp at h
  | e :: es, f :: es', he, hf, h => by
    rw [List.forall_mem_cons] at he hf
    obtain ⟨htold, hrest⟩ := List.cons.inj h
    obtain ⟨hdistribution, hjoined⟩ := Prod.mk.inj htold
    rw [Prod.ext hdistribution (he.1.eq_of_joined hf.1 hjoined), entries_eq_of_told he.2 hf.2 hrest]

/-- Something holds of all entries of a lockfile if it holds of the pins of every distribution. -/
private theorem forall_entries {P : Pin → Prop} (h : ∀ d, ∀ p ∈ l.pins d, P p) : ∀ e ∈ l.entries, P e.2 :=
  fun e he => h e.1 e.2 (mem_entries.1 he)

/-- What the text of a lockfile's content tells. If no field has a line feed then two lockfiles have the same bytes
just when their entries agree, one by one, in the distribution and in the fields joined by colons. If moreover only
versions have colons then they have the same bytes just when they hold the same pins for every distribution; and so it
is with the digests, unless these are equal for different bytes. -/
theorem contentText_separates (hl : ∀ d, ∀ p ∈ l.pins d, p.OnOneLine) (hl' : ∀ d, ∀ p ∈ l'.pins d, p.OnOneLine) :
    (Text.bytes l.contentText = Text.bytes l'.contentText ↔ l.entries.map told = l'.entries.map told) ∧
      ((∀ d, ∀ p ∈ l.pins d, p.Parted) → (∀ d, ∀ p ∈ l'.pins d, p.Parted) →
        (Text.bytes l.contentText = Text.bytes l'.contentText ↔ ∀ d, l.pins d = l'.pins d) ∧
        ((l.contentHash = l'.contentHash → Text.bytes l.contentText = Text.bytes l'.contentText) →
          (l.contentHash = l'.contentHash ↔ ∀ d, l.pins d = l'.pins d))) := by
  have hbytes : Text.bytes l.contentText = Text.bytes l'.contentText ↔ l.entries.map told = l'.entries.map told := by
    constructor
    · intro h
      have htext : l.contentText = l'.contentText := FileName.ofText_injective (congrArg ByteArray.toList h)
      have hchars := congrArg String.toList htext
      unfold contentText at hchars
      rw [toList_join_contentLine, toList_join_contentLine] at hchars
      exact map_told_eq (forall_entries hl) (forall_entries hl') hchars
    · exact fun h => congrArg Text.bytes (contentText_eq_of_told h)
  refine ⟨hbytes, fun hp hp' => ?_⟩
  have hpins : Text.bytes l.contentText = Text.bytes l'.contentText ↔ ∀ d, l.pins d = l'.pins d := by
    rw [hbytes]
    refine ⟨fun h d => SortedSet.eq_of_mem_iff fun p => ?_, fun h => by rw [entries_congr h]⟩
    rw [← mem_entries, ← mem_entries, entries_eq_of_told (forall_entries hp) (forall_entries hp') h]
  exact ⟨hpins, fun hhash => ⟨fun h => hpins.1 (hhash h), contentHash_congr⟩⟩

end Lockfile

namespace Sample

/-- A lockfile with one library of a version with an epoch. -/
def epochLockfile (version release : String) : Lockfile :=
  (Lockfile.empty.insert .debian ⟨"libc", version, release, "amd64"⟩).1

theorem pins_epochLockfile {version release : String} {d : Distribution} {p : Pin}
    (hp : p ∈ (epochLockfile version release).pins d) : p = ⟨"libc", version, release, "amd64"⟩ := by
  have hnew : Lockfile.empty.insert .debian ⟨"libc", version, release, "amd64"⟩ =
      (epochLockfile version release, .ok ()) := rfl
  exact (((Lockfile.mem_pins_of_insert hnew).1 hp).resolve_left SortedSet.not_mem_empty).2

theorem onOneLine_epochLockfile {version : String} (h : '\n' ∉ version.toList) :
    ∀ d, ∀ p ∈ (epochLockfile version "3").pins d, p.OnOneLine := by
  intro d p hp
  rw [pins_epochLockfile hp]
  exact ⟨(by decide : '\n' ∉ "libc".toList), h, (by decide : '\n' ∉ "3".toList),
    (by decide : '\n' ∉ "amd64".toList)⟩

theorem parted_epochLockfile (version : String) : ∀ d, ∀ p ∈ (epochLockfile version "3").pins d, p.Parted := by
  intro d p hp
  rw [pins_epochLockfile hp]
  exact ⟨(by decide : ':' ∉ "libc".toList), (by decide : ':' ∉ "3".toList), (by decide : ':' ∉ "amd64".toList)⟩

end Sample

/-- A version with an epoch is told apart from one without. -/
theorem Lockfile.contentText_separates_sample :
    Text.bytes (Sample.epochLockfile "1:2" "3").contentText ≠ Text.bytes (Sample.epochLockfile "2" "3").contentText := by
  have hseparates := Lockfile.contentText_separates (@Sample.onOneLine_epochLockfile "1:2" (by decide))
    (@Sample.onOneLine_epochLockfile "2" (by decide))
  obtain ⟨hpins, -⟩ := hseparates.2 (Sample.parted_epochLockfile "1:2") (Sample.parted_epochLockfile "2")
  exact fun h => absurd (hpins.1 h .debian) (by decide)

/-- A colon in a release is not told apart from one in the version. -/
example : (Sample.epochLockfile "1:2" "3").contentText = (Sample.epochLockfile "1" "2:3").contentText ∧
    (Sample.epochLockfile "1:2" "3").pins .debian ≠ (Sample.epochLockfile "1" "2:3").pins .debian := by decide +kernel

end ImageRecipe
