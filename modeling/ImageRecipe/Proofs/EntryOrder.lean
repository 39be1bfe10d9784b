import ImageRecipe.Proofs.LockfileTexts

/-! Lockfiles do not depend on the order of their entries. Entries are put in one after the other and each is held
against those before it, but whether all are taken is a question of any two of them, and what they come to is the set
of the pins that they name. -/

namespace ImageRecipe

namespace Lockfile

variable {l l' : Lockfile} {d : Distribution} {p q : Pin} {es es' : List (Distribution × Pin)} {s s' : String}

/-- No two entries that differ speak for one package on one architecture of one distribution. -/
def Compatible (es : List (Distribution × Pin)) : Prop :=
  ∀ e ∈ es, ∀ f ∈ es, e.1 = f.1 → e.2 ≠ f.2 → e.2.overlaps f.2 = false

instance (es : List (Distribution × Pin)) : Decidable (Compatible es) :=
  inferInstanceAs (Decidable (∀ e ∈ es, ∀ f ∈ es, e.1 = f.1 → e.2 ≠ f.2 → e.2.overlaps f.2 = false))

theorem Compatible.perm (h : Compatible es) (hp : es'.Perm es) : Compatible es' :=
  fun e he f hf => h e (hp.mem_iff.1 he) f (hp.mem_iff.1 hf)

/-- A text is a document of the format's version that holds some entries, in their order. -/
def Holds (s : String) (es : List (Distribution × Pin)) : Prop :=
  (Toml.parse s).bind contentsOfDocument? = some (formatVersion, es)

/-- Any entries can be written, whatever their order and whether or not they fit together. -/
theorem exists_holds (es : List (Distribution × Pin)) : ∃ s, Holds s es := by
  obtain ⟨s, hs⟩ := Option.isSome_iff_exists.1 (isSome_render?_fieldsOf es)
  refine ⟨s, ?_⟩
  unfold Holds
  rw [parse_of_render?_fieldsOf hs, Option.bind_some, contentsOfDocument?_fieldsOf]

theorem Holds.parse_eq (h : Holds s es) : parse s = empty.addEntries es := by
  unfold Holds at h
  unfold parse
  rw [h]
  exact if_pos rfl

/-! Entries that are taken. -/

/-- An insertion that succeeds leaves a section for the distribution, if there was none. -/
theorem get?_eq_none_of_insert (h : l.insert d p = (l', .ok ())) (e : Distribution) :
    l'.sections.get? e = none ↔ l.sections.get? e = none ∧ e ≠ d := by
  rcases l.insert_cases d p with ⟨hp, heq⟩ | ⟨-, _, -, -, heq⟩ | ⟨-, -, heq⟩
  · obtain rfl : l' = l := (Prod.mk.inj (h.symm.trans heq)).1
    refine ⟨fun hnone => ⟨hnone, ?_⟩, And.left⟩
    rintro rfl
    unfold pins at hp
    rw [hnone] at hp
    exact SortedSet.not_mem_empty hp
  · cases (Prod.mk.inj (h.symm.trans heq)).2
  · rw [(Prod.mk.inj (h.symm.trans heq)).1, setPins, SortedMap.get?_insert]
    by_cases he : e = d <;> simp [he]

/-- Entries that are taken come to the pins that they name, and to sections for their distributions. -/
theorem addEntries_ok (h : l.addEntries es = .ok l') :
    (∀ d p, p ∈ l'.pins d ↔ p ∈ l.pins d ∨ (d, p) ∈ es) ∧
      ∀ d, l'.sections.get? d = none ↔ l.sections.get? d = none ∧ ∀ p, (d, p) ∉ es := by
  induction es generalizing l with
  | nil =>
    obtain rfl : l = l' := Except.ok.inj h
    simp
  | cons e es ih =>
    obtain ⟨d, p⟩ := e
    unfold addEntries at h
    split at h
    · next l₁ hinsert =>
      obtain ⟨hpins, hsections⟩ := ih h
      refine ⟨fun e q => ?_, fun e => ?_⟩
      · rw [hpins, mem_pins_of_insert hinsert, List.mem_cons, Prod.mk.injEq, or_assoc]
      · rw [hsections, get?_eq_none_of_insert hinsert, and_assoc]
        simp only [List.mem_cons, Prod.mk.injEq, not_or, not_and]
        refine and_congr_right fun _ => ⟨fun ⟨hne, hrest⟩ q => ⟨fun he => absurd he hne, hrest q⟩, fun hall => ?_⟩
        exact ⟨fun he => (hall p).1 he rfl, fun q => (hall q).2⟩
    · cases h

/-- Where an entry is refused there is another pin for its package, which was there or is an entry before it. -/
theorem addEntries_error {fault : LockError} (h : l.addEntries es = .error fault) :
    ∃ d p q, fault = .conflict d p q ∧ (d, p) ∈ es ∧ (q ∈ l.pins d ∨ (d, q) ∈ es) ∧ q ≠ p ∧ q.overlaps p = true := by
  induction es generalizing l with
  | nil => cases h
  | cons e es ih =>
    obtain ⟨d, p⟩ := e
    unfold addEntries at h
    split at h
    · next l₁ hinsert =>
      obtain ⟨e, x, y, rfl, hx, hy, hne, hover⟩ := ih h
      refine ⟨e, x, y, rfl, .tail _ hx, ?_, hne, hover⟩
      rcases hy with hy | hy
      · rcases (mem_pins_of_insert hinsert).1 hy with hy | ⟨rfl, rfl⟩
        · exact .inl hy
        · exact .inr List.mem_cons_self
      · exact .inr (.tail _ hy)
    · next l₁ fault' hinsert =>
      obtain rfl := Except.error.inj h
      rcases l.insert_cases d p with ⟨-, heq⟩ | ⟨hp, q, hq, hover, heq⟩ | ⟨-, -, heq⟩
      · cases (Prod.mk.inj (hinsert.symm.trans heq)).2
      · obtain rfl := Except.error.inj (Prod.mk.inj (hinsert.symm.trans heq)).2
        exact ⟨d, p, q, rfl, List.mem_cons_self, .inl hq, fun heq => hp (heq ▸ hq), hover⟩
      · cases (Prod.mk.inj (hinsert.symm.trans heq)).2

/-- Entries are all taken just when no two of them are in each other's way. -/
theorem exists_addEntries_empty_iff : (∃ l, empty.addEntries es = .ok l) ↔ Compatible es := by
  constructor
  · rintro ⟨l, hl⟩ ⟨d, p⟩ hp ⟨e, q⟩ hq rfl hne
    have hmem := (addEntries_ok hl).1
    rw [Bool.eq_false_iff]
    exact fun hover => hne (unambiguous_empty.addEntries hl d p ((hmem d p).2 (.inr hp)) q
      ((hmem d q).2 (.inr hq)) hover)
  · intro h
    cases heq : empty.addEntries es with
    | ok l => exact ⟨l, rfl⟩
    | error fault =>
      obtain ⟨d, p, q, -, hp, hq, hne, hover⟩ := addEntries_error heq
      have hq := hq.resolve_left SortedSet.not_mem_empty
      rw [h (d, q) hq (d, p) hp rfl hne] at hover
      cases hover

/-! What entries come to. -/

/-- Lockfiles with the same pins and with sections for the same distributions are equal. -/
theorem eq_of_pins (hpins : ∀ d, l.pins d = l'.pins d)
    (hsections : ∀ d, l.sections.get? d = none ↔ l'.sections.get? d = none) : l = l' := by
  have hget : ∀ d, l.sections.get? d = l'.sections.get? d := by
    intro d
    have hpin := hpins d
    have hnone := hsections d
    unfold pins at hpin
    cases h : l.sections.get? d with
    | none => exact (hnone.1 h).symm
    | some s =>
      cases h' : l'.sections.get? d with
      | none =>
        rw [hnone.2 h'] at h
        cases h
      | some s' =>
        rw [h, h'] at hpin
        exact congrArg some hpin
  cases l
  cases l'
  exact congrArg Lockfile.mk (SortedMap.ext_get? hget)

theorem addEntries_empty_perm (h : empty.addEntries es = .ok l) (hp : es'.Perm es) : empty.addEntries es' = .ok l := by
  obtain ⟨l', hl'⟩ := exists_addEntries_empty_iff.2 ((exists_addEntries_empty_iff.1 ⟨l, h⟩).perm hp)
  obtain ⟨hpins, hsections⟩ := addEntries_ok h
  obtain ⟨hpins', hsections'⟩ := addEntries_ok hl'
  rw [hl']
  refine congrArg Except.ok (eq_of_pins (fun d => SortedSet.eq_of_mem_iff fun p => ?_) fun d => ?_)
  · rw [hpins, hpins', hp.mem_iff]
  · rw [hsections, hsections']
    simp only [hp.mem_iff]

/-- Reading a lockfile does not depend on the order of its entries. Every list of entries can be written. A text that
holds them is a lockfile just when no two that differ overlap; then it is the same lockfile for every order, with the
pins that the entries name and no others. Otherwise it is refused in every order, for two entries that overlap. -/
theorem parse_perm (es : List (Distribution × Pin)) :
    (∃ s, Holds s es) ∧
      (∀ s, Holds s es → ((∃ l, parse s = .ok l) ↔ Compatible es)) ∧
      (Compatible es → ∃ l : Lockfile, (∀ d p, p ∈ l.pins d ↔ (d, p) ∈ es) ∧
        ∀ s es', es'.Perm es → Holds s es' → parse s = .ok l) ∧
      (¬ Compatible es → ∀ s es', es'.Perm es → Holds s es' → ∃ d p q, parse s = .error (.conflict d p q) ∧
        (d, p) ∈ es ∧ (d, q) ∈ es ∧ q ≠ p ∧ q.overlaps p = true) := by
  refine ⟨exists_holds es, fun s hs => ?_, fun hes => ?_, fun hes s es' hp hs => ?_⟩
  · rw [hs.parse_eq]
    exact exists_addEntries_empty_iff
  · obtain ⟨l, hl⟩ := exists_addEntries_empty_iff.2 hes
    refine ⟨l, fun d p => ?_, fun s es' hp hs => ?_⟩
    · rw [(addEntries_ok hl).1]
      exact or_iff_right SortedSet.not_mem_empty
    · rw [hs.parse_eq]
      exact addEntries_empty_perm hl hp
  · rw [hs.parse_eq]
    cases heq : empty.addEntries es' with
    | ok l => exact absurd ((exists_addEntries_empty_iff.1 ⟨l, heq⟩).perm hp.symm) hes
    | error fault =>
      obtain ⟨d, p, q, rfl, hx, hq, hne, hover⟩ := addEntries_error heq
      exact ⟨d, p, q, rfl, hp.mem_iff.1 hx, hp.mem_iff.1 (hq.resolve_left SortedSet.not_mem_empty), hne, hover⟩

end Lockfile

namespace Sample

/-- A library for each of two architectures, one of them twice, and one for all of another distribution. -/
def libraries : List (Distribution × Pin) :=
  [(.debian, library "2" "amd64"), (.ubuntu, library "3" "all"), (.debian, library "2" "arm64"),
    (.debian, library "2" "amd64")]

end Sample

/-- A repeated entry does no harm in any order, and one for all architectures is refused in any. -/
theorem Lockfile.parse_perm_sample :
    (∃ s s' l, Lockfile.Holds s Sample.libraries ∧ Lockfile.Holds s' Sample.libraries.reverse ∧
      Lockfile.parse s = .ok l ∧ Lockfile.parse s' = .ok l) ∧
    ∃ s d p q, Lockfile.Holds s ((.debian, Sample.library "3" "all") :: Sample.libraries) ∧
      Lockfile.parse s = .error (.conflict d p q) := by
  constructor
  · obtain ⟨⟨s, hs⟩, -, hok, -⟩ := Lockfile.parse_perm Sample.libraries
    obtain ⟨⟨s', hs'⟩, -⟩ := Lockfile.parse_perm Sample.libraries.reverse
    obtain ⟨l, -, hl⟩ := hok (by decide)
    exact ⟨s, s', l, hs, hs', hl s _ (.refl _) hs, hl s' _ (List.reverse_perm _) hs'⟩
  · obtain ⟨⟨s, hs⟩, -, -, hno⟩ := Lockfile.parse_perm ((.debian, Sample.library "3" "all") :: Sample.libraries)
    obtain ⟨d, p, q, heq, -⟩ := hno (by decide) s _ (.refl _) hs
    exact ⟨s, d, p, q, hs, heq⟩

end ImageRecipe
