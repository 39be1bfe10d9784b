import ImageRecipe.Proofs.Partitions

/-! What the replacement of a partition leaves alone. Other distributions keep their pins, and on another
architecture a package that is not pinned anew keeps its pin, unless that pin was for all architectures: such a pin
belongs to every partition and goes with each of them. -/

namespace ImageRecipe

theorem Pin.installableOn_eq_false (d : Distribution) {a b : Architecture} {p : Pin} (hne : b ≠ a)
    (hb : p.installableOn d b = true) (h : isArchIndependent p.architecture = false) :
    p.installableOn d a = false := by
  rw [Bool.eq_false_iff]
  intro ha
  rw [isArchIndependent_of_installableOn hb ha hne] at h
  cases h

namespace Lockfile

variable {l l' : Lockfile} {d e : Distribution} {a b : Architecture} {ps : List Pin} {name : String}

theorem pins_insert_of_ne (l : Lockfile) (p : Pin) (h : e ≠ d) : (l.insert d p).1.pins e = l.pins e := by
  rcases l.insert_cases d p with ⟨-, heq⟩ | ⟨-, _, -, -, heq⟩ | ⟨-, -, heq⟩
  · rw [heq]
  · rw [heq]
  · rw [heq, pins_setPins, if_neg h]

theorem pins_insertAll_of_ne (h : e ≠ d) :
    ∀ (ps : List Pin) (l : Lockfile), (l.insertAll d ps).1.pins e = l.pins e
  | [], _ => rfl
  | p :: r, l => by
    have hp := l.pins_insert_of_ne p h
    rw [insertAll_cons]
    split
    · next heq =>
      rw [heq] at hp
      rw [pins_insertAll_of_ne h r, hp]
    · next heq => rwa [heq] at hp

theorem pins_withoutPartition_of_ne (l : Lockfile) (a : Architecture) (h : e ≠ d) :
    (l.withoutPartition d a).pins e = l.pins e := by
  unfold withoutPartition
  split
  · rw [pins_setPins, if_neg h]
  · rfl

/-- Other distributions keep their pins, even where the new pins are refused. -/
theorem pins_replacePartition_of_ne (l : Lockfile) (a : Architecture) (ps : List Pin) (h : e ≠ d) :
    (l.replacePartition d a ps).1.pins e = l.pins e := by
  unfold replacePartition
  rw [pins_insertAll_of_ne h, pins_withoutPartition_of_ne l a h]

/-- A package that is not pinned anew has on another architecture what was there for that architecture alone. -/
theorem Unambiguous.lookup_of_replacePartition (hl : l.Unambiguous)
    (h : l.replacePartition d a ps = (l', .ok ())) (hne : b ≠ a) (hname : ∀ p ∈ ps, p.name ≠ name) :
    l'.lookup name d b = (l.lookup name d b).filter fun p => !isArchIndependent p.architecture := by
  have hl' : l'.Unambiguous := by
    have := hl.replacePartition d a ps
    rwa [h] at this
  ext p
  rw [Option.filter_eq_some_iff, hl'.lookup_eq_some_iff, hl.lookup_eq_some_iff, mem_pins_of_replacePartition h]
  constructor
  · rintro ⟨⟨hp, hout⟩ | ⟨-, hp⟩, hpn, hb⟩
    · refine ⟨⟨hp, hpn, hb⟩, ?_⟩
      cases hall : isArchIndependent p.architecture with
      | false => rfl
      | true =>
        rw [Pin.installableOn_of_isArchIndependent hall] at hout
        cases hout rfl
    · exact absurd hpn (hname p hp)
  · rintro ⟨⟨hp, hpn, hb⟩, hown⟩
    exact ⟨.inl ⟨hp, fun _ => Pin.installableOn_eq_false d hne hb (by simpa using hown)⟩, hpn, hb⟩

/-- After a partition was replaced, a package that is not pinned anew has the same pin as before on another
architecture just when that pin was not for all architectures, and none otherwise. The pins of other distributions
are the same. -/
theorem Reachable.lookup_replacePartition_iff (hl : l.Reachable) (h : l.replacePartition d a ps = (l', .ok ())) :
    (∀ b, b ≠ a → ∀ name, (∀ p ∈ ps, p.name ≠ name) →
      (l'.lookup name d b = l.lookup name d b ↔
        ∀ p, l.lookup name d b = some p → isArchIndependent p.architecture = false) ∧
      (l'.lookup name d b ≠ l.lookup name d b → l'.lookup name d b = none)) ∧
    ∀ e, e ≠ d → l'.pins e = l.pins e := by
  refine ⟨fun b hne name hname => ?_, fun e he => ?_⟩
  · rw [hl.unambiguous.lookup_of_replacePartition h hne hname]
    cases hp : l.lookup name d b with
    | none => simp
    | some p => cases hall : isArchIndependent p.architecture <;> simp [Option.filter, hall]
  · have := l.pins_replacePartition_of_ne a ps he
    rwa [h] at this

end Lockfile

namespace Sample

/-- A lockfile with a library for each architecture and time zones for all of them. -/
def zoned : Lockfile :=
  (lockfile.insert .debian ⟨"tzdata", "2021a", "", "all"⟩).1

/-- What a new pin of another package for one architecture makes of it. -/
def rezoned : Lockfile := (zoned.replacePartition .debian .x86 [⟨"curl", "8", "1", "amd64"⟩]).1

end Sample

/-- The library keeps its pin on the other architecture, and the time zones lose theirs. -/
theorem Lockfile.Reachable.lookup_replacePartition_iff_sample :
    Sample.zoned.Reachable ∧
      Sample.zoned.replacePartition .debian .x86 [⟨"curl", "8", "1", "amd64"⟩] = (Sample.rezoned, .ok ()) ∧
      Sample.rezoned.lookup "libc" .debian .arm = Sample.zoned.lookup "libc" .debian .arm ∧
      Sample.rezoned.lookup "tzdata" .debian .arm = none ∧
      Sample.rezoned.pins .ubuntu = Sample.zoned.pins .ubuntu := by
  have hreach : Sample.zoned.Reachable := Sample.reachable_lockfile.insert ..
  have hok : Sample.zoned.replacePartition .debian .x86 [⟨"curl", "8", "1", "amd64"⟩] =
      (Sample.rezoned, .ok ()) := Prod.ext rfl (by decide)
  have hnew : ∀ name : String, "curl" ≠ name → ∀ p ∈ [(⟨"curl", "8", "1", "amd64"⟩ : Pin)], p.name ≠ name := by
    simp
  obtain ⟨hkept, hother⟩ := Lockfile.Reachable.lookup_replacePartition_iff hreach hok
  refine ⟨hreach, hok, ?_, ?_, hother .ubuntu (by decide)⟩
  · refine (hkept .arm (by decide) "libc" (hnew _ (by decide))).1.2 fun p hp => ?_
    have hlibc : Sample.zoned.lookup "libc" .debian .arm = some (Sample.library "2" "arm64") := by decide
    rw [hlibc] at hp
    cases hp
    rfl
  · refine (hkept .arm (by decide) "tzdata" (hnew _ (by decide))).2 fun heq => ?_
    have hall := (hkept .arm (by decide) "tzdata" (hnew _ (by decide))).1.1 heq ⟨"tzdata", "2021a", "", "all"⟩
      (by decide)
    cases hall

end ImageRecipe
