import ImageRecipe.Lockfile.Text
import ImageRecipe.Proofs.SortedMap

/-! Lockfiles speak of a package once. Of the pins of one distribution no two that differ overlap, whatever was
inserted, replaced or read, and whether or not it was refused half way. So there is at most one pin to install
of a package, and a look-up finds it. -/

namespace ImageRecipe

namespace Pin

variable {p q : Pin} {d : Distribution} {a : Architecture}

theorem overlaps_comm (p q : Pin) : p.overlaps q = q.overlaps p := by
  unfold overlaps
  rw [BEq.comm (a := p.name), BEq.comm (a := p.architecture), Bool.or_assoc, Bool.or_assoc,
    Bool.or_comm (isArchIndependent p.architecture)]

theorem name_eq_of_overlaps (h : p.overlaps q = true) : p.name = q.name := by
  unfold overlaps at h
  rw [Bool.and_eq_true] at h
  exact eq_of_beq h.1

/-- A package that can be installed everywhere overlaps with every other pin of its name. -/
theorem overlaps_of_isArchIndependent (hname : p.name = q.name) (h : isArchIndependent p.architecture = true) :
    p.overlaps q = true := by
  simp [overlaps, hname, h]

theorem installableOn_of_isArchIndependent (h : isArchIndependent p.architecture = true) :
    p.installableOn d a = true := by
  simp [installableOn, h]

/-- Two pins of one package that can be installed on one architecture overlap. -/
theorem overlaps_of_installableOn (hname : p.name = q.name) (hp : p.installableOn d a = true)
    (hq : q.installableOn d a = true) : p.overlaps q = true := by
  unfold installableOn at hp hq
  rw [Bool.or_eq_true] at hp hq
  rcases hp with hp | hp
  · exact overlaps_of_isArchIndependent hname hp
  · rcases hq with hq | hq
    · rw [overlaps_comm]
      exact overlaps_of_isArchIndependent hname.symm hq
    · simp [overlaps, hname, eq_of_beq hp, eq_of_beq hq]

end Pin

namespace Lockfile

variable {l l' : Lockfile} {d e : Distribution} {a : Architecture} {p q : Pin} {ps : List Pin}

@[simp] theorem pins_empty (d : Distribution) : empty.pins d = SortedSet.empty := rfl

@[simp] theorem pins_setPins (l : Lockfile) (d e : Distribution) (s : SortedSet Pin) :
    (l.setPins d s).pins e = if e = d then s else l.pins e := by
  unfold pins setPins
  rw [SortedMap.get?_insert]
  split <;> rfl

/-- What an insertion does: nothing for a pin that is there, nothing but an error for one that overlaps with
another, and otherwise it puts the pin in. -/
theorem insert_cases (l : Lockfile) (d : Distribution) (p : Pin) :
    (p ∈ l.pins d ∧ l.insert d p = (l, .ok ())) ∨
      (p ∉ l.pins d ∧ ∃ q ∈ l.pins d, q.overlaps p = true ∧ l.insert d p = (l, .error (.conflict d p q))) ∨
        (p ∉ l.pins d ∧ (∀ q ∈ l.pins d, q.overlaps p = false) ∧
          l.insert d p = (l.setPins d ((l.pins d).insert p), .ok ())) := by
  unfold insert
  dsimp only
  by_cases hp : p ∈ l.pins d
  · rw [if_pos hp]
    exact .inl ⟨hp, rfl⟩
  · rw [if_neg hp]
    cases hfind : (l.pins d).toList.find? fun q => q.overlaps p with
    | some q =>
      have hover : q.overlaps p = true := by simpa using List.find?_some hfind
      exact .inr (.inl ⟨hp, q, List.mem_of_find?_eq_some hfind, hover, rfl⟩)
    | none =>
      refine .inr (.inr ⟨hp, fun q hq => ?_, rfl⟩)
      simpa using List.find?_eq_none.1 hfind q hq

/-- After an insertion that succeeds the pin is there, and all others as before. -/
theorem mem_pins_of_insert (h : l.insert d p = (l', .ok ())) :
    q ∈ l'.pins e ↔ q ∈ l.pins e ∨ e = d ∧ q = p := by
  rcases l.insert_cases d p with ⟨hp, heq⟩ | ⟨-, _, -, -, heq⟩ | ⟨-, -, heq⟩
  · rw [h, Prod.mk.injEq] at heq
    rw [heq.1]
    refine ⟨.inl, fun hq => hq.elim id ?_⟩
    rintro ⟨rfl, rfl⟩
    exact hp
  · rw [h] at heq
    simp at heq
  · rw [h, Prod.mk.injEq] at heq
    rw [heq.1, pins_setPins]
    split
    · next he => simp [he, or_comm]
    · next he => simp [he]

/-- The partition of an architecture is taken out, and nothing else. -/
theorem mem_pins_withoutPartition :
    q ∈ (l.withoutPartition d a).pins e ↔ q ∈ l.pins e ∧ (e = d → q.installableOn d a = false) := by
  unfold withoutPartition
  cases hs : l.sections.get? d with
  | none =>
    dsimp only
    refine ⟨fun hq => ⟨hq, ?_⟩, And.left⟩
    rintro rfl
    rw [pins, hs] at hq
    exact absurd hq SortedSet.not_mem_empty
  | some s =>
    dsimp only
    rw [pins_setPins]
    split
    · next he =>
      subst he
      simp [pins, hs]
    · next he => simp [he]

/-- No two pins of one distribution that differ overlap. -/
def Unambiguous (l : Lockfile) : Prop :=
  ∀ d, ∀ p ∈ l.pins d, ∀ q ∈ l.pins d, p.overlaps q = true → p = q

theorem unambiguous_empty : Unambiguous empty := fun _ _ hp => absurd hp SortedSet.not_mem_empty

namespace Unambiguous

/-- A lockfile with fewer pins is unambiguous as well. -/
theorem mono (hl : l.Unambiguous) (h : ∀ e, ∀ q ∈ l'.pins e, q ∈ l.pins e) : l'.Unambiguous :=
  fun d p hp q hq => hl d p (h d p hp) q (h d q hq)

theorem insert (hl : l.Unambiguous) (d : Distribution) (p : Pin) : (l.insert d p).1.Unambiguous := by
  rcases l.insert_cases d p with ⟨-, heq⟩ | ⟨-, _, -, -, heq⟩ | ⟨-, hfree, heq⟩
  · rwa [heq]
  · rwa [heq]
  · rw [heq]
    intro e x hx y hy hxy
    rw [mem_pins_of_insert heq] at hx hy
    rcases hx with hx | ⟨rfl, rfl⟩
    · rcases hy with hy | ⟨rfl, rfl⟩
      · exact hl e x hx y hy hxy
      · rw [hfree x hx] at hxy
        cases hxy
    · rcases hy with hy | ⟨-, rfl⟩
      · rw [Pin.overlaps_comm, hfree y hy] at hxy
        cases hxy
      · rfl

theorem withoutPartition (hl : l.Unambiguous) (d : Distribution) (a : Architecture) :
    (l.withoutPartition d a).Unambiguous :=
  hl.mono fun _ _ hq => (mem_pins_withoutPartition.1 hq).1

theorem insertAll : ∀ {ps : List Pin} {l : Lockfile}, l.Unambiguous → ∀ d, (l.insertAll d ps).1.Unambiguous
  | [], _, hl, _ => hl
  | p :: r, l, hl, d => by
    have hp := hl.insert d p
    unfold Lockfile.insertAll
    split
    · next heq =>
      rw [heq] at hp
      exact insertAll hp d
    · next heq => rwa [heq] at hp

theorem replacePartition (hl : l.Unambiguous) (d : Distribution) (a : Architecture) (ps : List Pin) :
    (l.replacePartition d a ps).1.Unambiguous := (hl.withoutPartition d a).insertAll d

theorem addEntries : ∀ {es : List (Distribution × Pin)} {l l' : Lockfile}, l.Unambiguous →
    l.addEntries es = .ok l' → l'.Unambiguous
  | [], _, _, hl, h => Except.ok.inj h ▸ hl
  | (d, p) :: r, l, _, hl, h => by
    have hp := hl.insert d p
    unfold Lockfile.addEntries at h
    split at h
    · next heq =>
      rw [heq] at hp
      exact addEntries hp h
    · cases h

theorem parse {s : String} (h : Lockfile.parse s = .ok l) : l.Unambiguous := by
  unfold Lockfile.parse at h
  split at h
  · cases h
  · split at h
    · exact unambiguous_empty.addEntries h
    · cases h

/-- An insertion succeeds just when no other pin overlaps. -/
theorem insert_isOk_iff (hl : l.Unambiguous) :
    (l.insert d p).2 = .ok () ↔ ∀ q ∈ l.pins d, q.overlaps p = true → q = p := by
  rcases l.insert_cases d p with ⟨hp, heq⟩ | ⟨hp, q, hq, hqp, heq⟩ | ⟨-, hfree, heq⟩
  · rw [heq]
    simp only [true_iff]
    exact fun q hq => hl d q hq p hp
  · rw [heq]
    simp only [reduceCtorEq, false_iff]
    exact fun h => hp (h q hq hqp ▸ hq)
  · rw [heq]
    simp only [true_iff]
    intro q hq hqp
    rw [hfree q hq] at hqp
    cases hqp

/-- The pins to install of a package are all one, and a look-up finds it if there is one. -/
theorem lookup_eq_some_iff (hl : l.Unambiguous) {name : String} :
    l.lookup name d a = some p ↔ p ∈ l.pins d ∧ p.name = name ∧ p.installableOn d a = true := by
  unfold lookup
  constructor
  · intro h
    have hp := List.find?_some h
    rw [Bool.and_eq_true] at hp
    exact ⟨List.mem_of_find?_eq_some h, eq_of_beq hp.1, hp.2⟩
  · rintro ⟨hmem, rfl, hp⟩
    cases hfind : (l.pins d).toList.find? fun q => q.name == p.name && q.installableOn d a with
    | none =>
      have := List.find?_eq_none.1 hfind p hmem
      simp [hp] at this
    | some q =>
      have hq := List.find?_some hfind
      rw [Bool.and_eq_true] at hq
      have hover := Pin.overlaps_of_installableOn (eq_of_beq hq.1) hq.2 hp
      rw [hl d q (List.mem_of_find?_eq_some hfind) p hmem hover]

end Unambiguous

/-- The lockfiles that insertions, replacements, refused or not, and reading come to. -/
inductive Reachable : Lockfile → Prop
  | empty : Reachable empty
  | insert {l : Lockfile} (h : Reachable l) (d : Distribution) (p : Pin) : Reachable (l.insert d p).1
  | replacePartition {l : Lockfile} (h : Reachable l) (d : Distribution) (a : Architecture) (ps : List Pin) :
    Reachable (l.replacePartition d a ps).1
  | parse {l : Lockfile} {s : String} (h : Lockfile.parse s = .ok l) : Reachable l

theorem Reachable.unambiguous (h : l.Reachable) : l.Unambiguous := by
  induction h with
  | empty => exact unambiguous_empty
  | insert _ d p ih => exact ih.insert d p
  | replacePartition _ d a ps ih => exact ih.replacePartition d a ps
  | parse h => exact .parse h

/-- In a lockfile that can be reached no two different pins of one distribution overlap. So at most one pin of a
package can be installed on an architecture; a look-up gives it, and nothing if there is none. -/
theorem Reachable.lookup_unique (h : l.Reachable) :
    (∀ d, ∀ p ∈ l.pins d, ∀ q ∈ l.pins d, p ≠ q → p.overlaps q = false) ∧
      ∀ name d a,
        (∀ p ∈ l.pins d, ∀ q ∈ l.pins d, p.name = name → q.name = name → p.installableOn d a = true →
          q.installableOn d a = true → p = q) ∧
        (∀ p, l.lookup name d a = some p ↔ p ∈ l.pins d ∧ p.name = name ∧ p.installableOn d a = true) ∧
        (l.lookup name d a = none ↔ ∀ p ∈ l.pins d, p.name = name → p.installableOn d a = false) := by
  have hl := h.unambiguous
  refine ⟨fun d p hp q hq hne => ?_, fun name d a => ⟨?_, fun p => hl.lookup_eq_some_iff, ?_⟩⟩
  · rw [Bool.eq_false_iff]
    exact fun hover => hne (hl d p hp q hq hover)
  · intro p hp q hq hpn hqn hpi hqi
    exact hl d p hp q hq (Pin.overlaps_of_installableOn (hpn.trans hqn.symm) hpi hqi)
  · rw [Option.eq_none_iff_forall_ne_some]
    simp only [ne_eq, hl.lookup_eq_some_iff, not_and, Bool.not_eq_true]

end Lockfile

namespace Sample

/-- A pin of a library, for an architecture or for all of them. -/
def library (version architecture : String) : Pin := ⟨"libc", version, "1", architecture⟩

/-- A lockfile with a library for each architecture, in which one for all of them was refused. -/
def lockfile : Lockfile :=
  (((Lockfile.empty.insert .debian (library "2" "amd64")).1.replacePartition .debian .arm
    [library "2" "arm64", library "3" "all"]).1.insert .debian (library "3" "all")).1

theorem reachable_lockfile : lockfile.Reachable :=
  ((Lockfile.Reachable.empty.insert ..).replacePartition ..).insert ..

end Sample

/-- Each of the two architectures has its own pin of the library. -/
theorem Lockfile.Reachable.lookup_unique_sample :
    Sample.lockfile.lookup "libc" .debian .x86 = some (Sample.library "2" "amd64") ∧
      Sample.lockfile.lookup "libc" .debian .arm = some (Sample.library "2" "arm64") ∧
      ∀ p ∈ Sample.lockfile.pins .debian, ∀ q ∈ Sample.lockfile.pins .debian, p ≠ q → p.overlaps q = false := by
  obtain ⟨hdisjoint, hlookup⟩ := Lockfile.Reachable.lookup_unique Sample.reachable_lockfile
  refine ⟨(hlookup "libc" .debian .x86).2.1 _ |>.2 ?_, (hlookup "libc" .debian .arm).2.1 _ |>.2 ?_,
    hdisjoint .debian⟩
  · decide
  · decide

end ImageRecipe
