import ImageRecipe.Proofs.FileTree
import ImageRecipe.Proofs.Paths

/-! Where walks through a file tree end: at the last name of the path if links at its end are not followed,
at the place that the path names if no link is on the way, and at the same place in every tree that keeps
the directories and the links. -/

namespace ImageRecipe.FileTree

open RawPath (live live_append live_nil)

section Step

variable {t : FileTree} {last : Bool} {follow : Location → List FileName → Except Fault Location}

/-- What one name of a path does to a walk that comes to an end. -/
theorem walkNames_cons_ok {n : FileName} {ns : List FileName} {here l : Location} :
    t.walkNames last follow here (n :: ns) = .ok l ↔
      ∃ mode, t.entry? here = some (.directory mode) ∧
        (n = [] ∧ t.walkNames last follow here ns = .ok l ∨
          n ≠ [] ∧ (Entry.directory mode).grants .execute = true ∧
            (n = FileName.here ∧ t.walkNames last follow here ns = .ok l ∨
              n = FileName.up ∧ t.walkNames last follow here.dropLast ns = .ok l ∨
              n ≠ FileName.here ∧ n ≠ FileName.up ∧ n.length ≤ nameLimit ∧
                ((∃ target, t.entry? (here ++ [n]) = some (.link target) ∧
                    (ns = [] ∧ last = false ∧ l = here ++ [n] ∨
                      ¬ (ns = [] ∧ last = false) ∧
                        follow (if RawPath.isAbsolute target then [] else here)
                          (RawPath.names target ++ ns) = .ok l)) ∨
                  (∀ target, t.entry? (here ++ [n]) ≠ some (.link target)) ∧
                    t.walkNames last follow (here ++ [n]) ns = .ok l))) := by
  have hhere : FileName.here ≠ [] := by decide
  have hup : FileName.up ≠ [] ∧ FileName.up ≠ FileName.here := by decide
  rw [walkNames]
  cases hh : t.entry? here with
  | none => simp
  | some e =>
    cases e with
    | file | link | pipe => simp
    | directory mode =>
      by_cases hnil : n = []
      · simp [hnil]
      · by_cases hx : (Entry.directory mode).grants .execute = true
        · by_cases h₁ : n = FileName.here
          · subst h₁
            simp [hhere, hx, Ne.symm hup.2]
          · by_cases h₂ : n = FileName.up
            · subst h₂
              simp [hx, hup]
            · by_cases hlen : nameLimit < n.length
              · simp [hnil, hx, h₁, h₂, hlen, Nat.not_le.2 hlen]
              · have hle := Nat.not_lt.1 hlen
                simp only [hnil, hx, h₁, h₂, hlen, hle, if_false, ne_eq, not_false_eq_true, true_and,
                  false_and, false_or, Option.some.injEq, Entry.directory.injEq, exists_eq_left',
                  Bool.not_true, Bool.false_eq_true]
                cases hl : t.entry? (here ++ [n]) with
                | none => simp
                | some e =>
                  cases e with
                  | file | directory | pipe => simp
                  | link target =>
                    by_cases hend : ns = [] ∧ last = false
                    · obtain ⟨rfl, rfl⟩ := hend
                      simpa using eq_comm
                    · have hb : (ns.isEmpty && !last) = false := by
                        rw [← Bool.not_eq_true]
                        simpa using hend
                      have hiff : (∃ x, target = x ∧ (ns = [] ∧ last = false ∧ l = here ++ [n] ∨
                          ¬ (ns = [] ∧ last = false) ∧
                            follow (if RawPath.isAbsolute x then [] else here)
                              (RawPath.names x ++ ns) = .ok l)) ↔
                          follow (if RawPath.isAbsolute target then [] else here)
                            (RawPath.names target ++ ns) = .ok l := by
                        rw [exists_eq_left']
                        tauto
                      simpa [hb] using hiff.symm
        · simp [hnil, hx]

end Step

/-- No link has a name. -/
def NoLinkNamed (t : FileTree) (n : FileName) : Prop :=
  ∀ outer target, t.entry? (outer ++ [n]) ≠ some (.link target)

section LastName

variable {t : FileTree} {last : Bool} {n : FileName} {l : Location}

private theorem walkNames_last {follow : Location → List FileName → Except Fault Location}
    (hn : n.Proper) (hlink : last = true → t.NoLinkNamed n)
    (hf : ∀ here ns l, follow here (ns ++ [n]) = .ok l → ∃ outer, l = outer ++ [n]) :
    ∀ (front : List FileName) (here l : Location),
      t.walkNames last follow here (front ++ [n]) = .ok l → ∃ outer, l = outer ++ [n] := by
  intro front
  induction front with
  | nil =>
    intro here l h
    obtain ⟨_, -, ⟨hnil, -⟩ | ⟨-, -, h⟩⟩ := walkNames_cons_ok.1 h
    · exact absurd hnil hn.ne_nil
    · obtain ⟨hhere, -⟩ | ⟨hup, -⟩ | ⟨-, -, -, ⟨target, ht, h⟩ | ⟨-, h⟩⟩ := h
      · exact absurd hhere hn.ne_here
      · exact absurd hup hn.ne_up
      · have hlast : last = false := by
          rw [← Bool.not_eq_true]
          exact fun hl => hlink hl here target ht
        exact ⟨here, by simpa [hlast] using h⟩
      · exact ⟨here, by simpa [walkNames, eq_comm] using h⟩
  | cons m front ih =>
    intro here l h
    obtain ⟨_, -, ⟨-, h⟩ | ⟨-, -, ⟨-, h⟩ | ⟨-, h⟩ | ⟨-, -, -, ⟨_, -, h⟩ | ⟨-, h⟩⟩⟩⟩ :=
      walkNames_cons_ok.1 h
    · exact ih _ _ h
    · exact ih _ _ h
    · exact ih _ _ h
    · rcases h with ⟨hnil, -⟩ | ⟨-, h⟩
      · simp at hnil
      · exact hf _ (RawPath.names _ ++ front) _ (by rw [List.append_assoc]; exact h)
    · exact ih _ _ h

private theorem walk_last (hn : n.Proper) (hlink : last = true → t.NoLinkNamed n) :
    ∀ (links : Nat) (front : List FileName) (here l : Location),
      t.walk last links here (front ++ [n]) = .ok l → ∃ outer, l = outer ++ [n]
  | 0 => by
    apply walkNames_last hn hlink
    intro here ns l h
    simp at h
  | links + 1 => by
    apply walkNames_last hn hlink
    intro here ns l h
    exact walk_last hn hlink links ns here l h

theorem checkPath_of_resolve {d : Location} {path : String} (h : t.resolve last d path = .ok l) :
    checkPath (RawPath.ofText path) = .ok () := by
  unfold resolve at h
  cases hc : checkPath (RawPath.ofText path) with
  | error e => simp [hc, bind, Except.bind] at h
  | ok => rfl

theorem resolve_eq_walk {d : Location} {path : String}
    (h : t.resolve last d path = .ok l) :
    t.walk last linkLimit (if RawPath.isAbsolute (RawPath.ofText path) then [] else d)
      (Path.rawNames path) = .ok l := by
  have hc := checkPath_of_resolve h
  unfold resolve at h
  simpa [hc, bind, Except.bind, Path.rawNames] using h

/-- Where the walk through its names ends a path leads, if it leads anywhere in some tree. -/
private theorem resolve_of_walk {u : FileTree} {d p : Location} {path : String} {last' : Bool}
    (h : t.resolve last d path = .ok l)
    (hwalk : u.walk last' linkLimit (if RawPath.isAbsolute (RawPath.ofText path) then [] else d)
      (Path.rawNames path) = .ok p) : u.resolve last' d path = .ok p := by
  unfold resolve
  simpa [checkPath_of_resolve h, bind, Except.bind, Path.rawNames] using hwalk

/-- A path that ends in a name leads to a place with that name, if there is no link there or it is not
followed. -/
theorem resolve_last {d : Location} {path : String} (hn : n.Proper) (hlink : last = true → t.NoLinkNamed n)
    (hp : ∃ front, Path.rawNames path = front ++ [n]) (h : t.resolve last d path = .ok l) :
    ∃ outer, l = outer ++ [n] := by
  obtain ⟨front, hfront⟩ := hp
  have hw := resolve_eq_walk h
  rw [hfront] at hw
  exact walk_last hn hlink _ _ _ _ hw

end LastName

section Parent

variable {t : FileTree} {last : Bool}

private theorem walkNames_parent (hr : t.Rooted)
    {follow : Location → List FileName → Except Fault Location}
    (hf : ∀ here ns l, ns ≠ [] → follow here ns = .ok l →
      ∃ mode, t.entry? l.dropLast = some (.directory mode)) :
    ∀ (ns : List FileName) (here l : Location),
      ns ≠ [] ∨ (∃ mode, t.entry? here.dropLast = some (.directory mode)) →
      t.walkNames last follow here ns = .ok l → ∃ mode, t.entry? l.dropLast = some (.directory mode) := by
  intro ns
  induction ns with
  | nil =>
    intro here l hor h
    simp only [walkNames, Except.ok.injEq] at h
    subst h
    exact hor.resolve_left (by simp)
  | cons n ns ih =>
    intro here l _ h
    obtain ⟨mode, hd, h⟩ := walkNames_cons_ok.1 h
    have hup : ∃ mode, t.entry? here.dropLast = some (.directory mode) := hr.dropLast (by rw [hd]; simp)
    have hdown : ∃ mode, t.entry? (here ++ [n]).dropLast = some (.directory mode) := by
      rw [List.dropLast_concat]
      exact ⟨mode, hd⟩
    obtain ⟨-, h⟩ | ⟨-, -, ⟨-, h⟩ | ⟨-, h⟩ | ⟨-, -, -, ⟨target, -, h⟩ | ⟨-, h⟩⟩⟩ := h
    · exact ih _ _ (.inr hup) h
    · exact ih _ _ (.inr hup) h
    · obtain ⟨mode', hd'⟩ := hup
      exact ih _ _ (.inr (hr.dropLast (by rw [hd']; simp))) h
    · rcases h with ⟨-, -, rfl⟩ | ⟨-, h⟩
      · exact hdown
      · exact hf _ _ _ (by simp [RawPath.names_ne_nil]) h
    · exact ih _ _ (.inr hdown) h

private theorem walk_parent (hr : t.Rooted) : ∀ (links : Nat) (ns : List FileName) (here l : Location),
    ns ≠ [] → t.walk last links here ns = .ok l → ∃ mode, t.entry? l.dropLast = some (.directory mode)
  | 0, ns, here, l, hns => by
    apply walkNames_parent hr _ ns here l (.inl hns)
    intro _ _ _ _ h
    simp at h
  | links + 1, ns, here, l, hns => by
    apply walkNames_parent hr _ ns here l (.inl hns)
    intro here ns l hns h
    exact walk_parent hr links ns here l hns h

/-- A path leads to a place in a directory. -/
theorem Rooted.resolve_parent (hr : t.Rooted) {d l : Location} {path : String}
    (h : t.resolve last d path = .ok l) : ∃ mode, t.entry? l.dropLast = some (.directory mode) :=
  walk_parent hr _ _ _ _ (RawPath.names_ne_nil _) (resolve_eq_walk h)

end Parent

section Unlinked

variable {t t' : FileTree} {last : Bool} {follow follow' : Location → List FileName → Except Fault Location}

private theorem live_cons {n : FileName} (h : n ≠ []) (h' : n ≠ FileName.here) (ns : List FileName) :
    live (n :: ns) = n :: live ns := by
  unfold live
  rw [List.filter_cons_of_pos (by simp [h, h'])]

private theorem live_cons_idle {n : FileName} (h : n = [] ∨ n = FileName.here) (ns : List FileName) :
    live (n :: ns) = live ns := by
  unfold live
  rw [List.filter_cons_of_neg (by rcases h with h | h <;> simp [h])]

private theorem walkNames_unlinked : ∀ (ns : List FileName) (here l : Location), FileName.up ∉ ns →
    (∀ p, p <+: live ns → ∀ target, t.entry? (here ++ p) ≠ some (.link target)) →
    t.walkNames last follow here ns = .ok l → l = here ++ live ns := by
  intro ns
  induction ns with
  | nil =>
    intro here l _ _ h
    simp only [walkNames, Except.ok.injEq] at h
    simp [h]
  | cons n ns ih =>
    intro here l hup hlink h
    rw [List.mem_cons, not_or] at hup
    obtain ⟨_, -, ⟨hnil, h⟩ | ⟨hnil, -, ⟨hhere, h⟩ | ⟨h, -⟩ | ⟨hhere, -, -, h⟩⟩⟩ := walkNames_cons_ok.1 h
    · rw [live_cons_idle (.inl hnil)] at hlink ⊢
      exact ih _ _ hup.2 hlink h
    · rw [live_cons_idle (.inr hhere)] at hlink ⊢
      exact ih _ _ hup.2 hlink h
    · exact absurd h.symm hup.1
    · rw [live_cons hnil hhere] at hlink ⊢
      rcases h with ⟨target, ht, -⟩ | ⟨-, h⟩
      · exact absurd ht (hlink [n] (by simp) target)
      · rw [ih _ _ hup.2 ?_ h, List.append_assoc, List.singleton_append]
        intro p hp target
        rw [List.append_assoc, List.singleton_append]
        exact hlink (n :: p) (by simpa using hp) target

private theorem walkNames_congr {n : FileName} {last' : Bool} :
    ∀ (front : List FileName) (here : Location), FileName.up ∉ front →
      (∀ p, p <+: live front → t.entry? (here ++ p) = t'.entry? (here ++ p)) →
      (∀ p, p <+: live front ++ [n] → ∀ target,
        t.entry? (here ++ p) ≠ some (.link target) ∧ t'.entry? (here ++ p) ≠ some (.link target)) →
      t.walkNames last follow here (front ++ [n]) = t'.walkNames last' follow' here (front ++ [n]) := by
  intro front
  induction front with
  | nil =>
    intro here _ hsame hlink
    have hhere : t.entry? here = t'.entry? here := by simpa using hsame [] (by simp)
    have hl := fun target => hlink [n] (by simp) target
    simp only [List.nil_append, walkNames, ← hhere]
    split
    · rfl
    · repeat' split
      all_goals first
        | rfl
        | exact absurd (by assumption) (hl _).1
        | exact absurd (by assumption) (hl _).2
    · rfl
  | cons m front ih =>
    intro here hup hsame hlink
    rw [List.mem_cons, not_or] at hup
    have hhere : t.entry? here = t'.entry? here := by simpa using hsame [] (by simp)
    rw [List.cons_append, walkNames, walkNames, ← hhere]
    split
    · rfl
    · by_cases hidle : m = [] ∨ m = FileName.here
      · rw [live_cons_idle hidle] at hsame hlink
        rw [ih here hup.2 hsame hlink]
        rcases hidle with rfl | rfl <;> rfl
      · rw [not_or] at hidle
        rw [live_cons hidle.1 hidle.2] at hsame hlink
        have hl := fun target => hlink [m] (by simp) target
        have hrec := ih (here ++ [m]) hup.2
          (fun p hp => by
            rw [List.append_assoc, List.singleton_append]
            exact hsame (m :: p) (by simpa using hp))
          (fun p hp => by
            rw [List.append_assoc, List.singleton_append]
            exact hlink (m :: p) (by simpa using hp))
        rw [if_neg hidle.1, if_neg hidle.1, if_neg hidle.2, if_neg hidle.2, if_neg (Ne.symm hup.1),
          if_neg (Ne.symm hup.1)]
        split
        · rfl
        · split
          · rfl
          · split
            · exact absurd (by assumption) (hl _).1
            · split
              · exact absurd (by assumption) (hl _).2
              · exact hrec
    · rfl

private theorem walkNames_kept {last' : Bool} : ∀ (ns : List FileName) (here l : Location), FileName.up ∉ ns →
    (∀ p, p <+: live ns → ∀ mode, t.entry? (here ++ p) = some (.directory mode) →
      t'.entry? (here ++ p) = some (.directory mode)) →
    (∀ p, p <+: live ns → ∀ target,
      t.entry? (here ++ p) ≠ some (.link target) ∧ t'.entry? (here ++ p) ≠ some (.link target)) →
    t.walkNames last follow here ns = .ok l → t'.walkNames last' follow' here ns = .ok l := by
  intro ns
  induction ns with
  | nil => exact fun here l _ _ _ h => h
  | cons n ns ih =>
    intro here l hup hkept hlink h
    rw [List.mem_cons, not_or] at hup
    obtain ⟨mode, hd, h⟩ := walkNames_cons_ok.1 h
    have hd' : t'.entry? here = some (.directory mode) := by
      have := hkept [] List.nil_prefix mode
      rw [List.append_nil] at this
      exact this hd
    refine walkNames_cons_ok.2 ⟨mode, hd', ?_⟩
    obtain ⟨hnil, h⟩ | ⟨hnil, hx, ⟨hhere, h⟩ | ⟨h, -⟩ | ⟨hhere, -, hlen, h⟩⟩ := h
    · rw [live_cons_idle (.inl hnil)] at hkept hlink
      exact .inl ⟨hnil, ih _ _ hup.2 hkept hlink h⟩
    · rw [live_cons_idle (.inr hhere)] at hkept hlink
      exact .inr ⟨hnil, hx, .inl ⟨hhere, ih _ _ hup.2 hkept hlink h⟩⟩
    · exact absurd h.symm hup.1
    · rw [live_cons hnil hhere] at hkept hlink
      have hl := hlink [n] (by simp)
      rcases h with ⟨target, ht, -⟩ | ⟨-, h⟩
      · exact absurd ht (hl target).1
      · refine .inr ⟨hnil, hx, .inr (.inr ⟨hhere, Ne.symm hup.1, hlen, .inr ⟨fun target => (hl target).2, ?_⟩⟩)⟩
        refine ih _ _ hup.2 (fun p hp mode => ?_) (fun p hp target => ?_) h <;>
          rw [List.append_assoc, List.singleton_append]
        · exact hkept (n :: p) (by simpa using hp) mode
        · exact hlink (n :: p) (by simpa using hp) target

/-- No link is on the way that a path names, nor at its end, and the path never leads upwards. -/
structure Unlinked (t : FileTree) (d : Location) (path : String) : Prop where
  staysBelow : Path.StaysBelow path
  link_free : ∀ p, p <+: Path.named d path → ∀ target, t.entry? p ≠ some (.link target)

/-- Without links a path leads to the place that it names. -/
theorem Unlinked.resolve_eq {d l : Location} {path : String} (hu : t.Unlinked d path)
    (h : t.resolve last d path = .ok l) : l = Path.named d path := by
  have hw := resolve_eq_walk h
  unfold Path.named
  refine walkNames_unlinked _ _ _ hu.staysBelow ?_ (show t.walkNames last (t.walk last 39) _ _ = _ from hw)
  intro p hp
  apply hu.link_free
  unfold Path.named
  rwa [List.prefix_append_right_inj]

/-- Two trees that agree on the way to the end of a path without links lead it to the same place. -/
theorem Unlinked.resolve_congr {n : FileName} {d : Location} {path : String} {last' : Bool}
    (hu : t.Unlinked d path) (hu' : t'.Unlinked d path) (hn : n.Proper)
    (hp : ∃ front, Path.rawNames path = front ++ [n])
    (h : ∀ p, p <+: (Path.named d path).dropLast → t.entry? p = t'.entry? p) :
    t.resolve last d path = t'.resolve last' d path := by
  obtain ⟨front, hfront⟩ := hp
  have hnamed : Path.named d path =
      (if RawPath.isAbsolute (RawPath.ofText path) then [] else d) ++ (live front ++ [n]) := by
    unfold Path.named
    rw [hfront, live_append, hn.live_singleton]
  have hup : FileName.up ∉ front := by
    intro hm
    apply hu.staysBelow
    rw [hfront]
    exact List.mem_append_left _ hm
  unfold resolve
  simp only
  congr 1
  funext _
  change t.walk last linkLimit _ (Path.rawNames path) = t'.walk last' linkLimit _ (Path.rawNames path)
  rw [hfront]
  apply walkNames_congr front _ hup
  · intro p hpre
    apply h
    rw [hnamed, ← List.append_assoc, List.dropLast_concat, List.prefix_append_right_inj]
    exact hpre
  · intro p hpre target
    rw [← List.prefix_append_right_inj (if RawPath.isAbsolute (RawPath.ofText path) then [] else d),
      ← hnamed] at hpre
    exact ⟨hu.link_free _ hpre target, hu'.link_free _ hpre target⟩

/-- Where a path without links leads in a tree, it leads in every tree without links on its way that has the
directories there. -/
theorem Unlinked.resolve_kept {d l : Location} {path : String} {last' : Bool} (hu : t.Unlinked d path)
    (hu' : t'.Unlinked d path) (hk : ∀ p, p <+: Path.named d path → ∀ mode,
      t.entry? p = some (.directory mode) → t'.entry? p = some (.directory mode))
    (h : t.resolve last d path = .ok l) : t'.resolve last' d path = .ok l := by
  have hpre : ∀ p, p <+: live (Path.rawNames path) →
      (if RawPath.isAbsolute (RawPath.ofText path) then [] else d) ++ p <+: Path.named d path := fun p hp => by
    unfold Path.named
    rwa [List.prefix_append_right_inj]
  have hfound : t'.walkNames last' (t'.walk last' 39) _ _ = .ok l := walkNames_kept _ _ l
    hu.staysBelow (fun p hp => hk _ (hpre p hp))
    (fun p hp target => ⟨hu.link_free _ (hpre p hp) target, hu'.link_free _ (hpre p hp) target⟩) (resolve_eq_walk h)
  exact resolve_of_walk h hfound

end Unlinked

section Last

variable {t : FileTree} {l d : Location} {path : String}

private theorem walkNames_last_link {follow follow' : Location → List FileName → Except Fault Location} (hl : t.entry? l ≠ none)
    (hf : ∀ here ns, follow here ns = .ok l → ∃ p, follow' here ns = .ok p ∧ t.entry? p ≠ none) :
    ∀ (ns : List FileName) (here : Location), t.walkNames true follow here ns = .ok l →
      ∃ p, t.walkNames false follow' here ns = .ok p ∧ t.entry? p ≠ none := by
  intro ns
  induction ns with
  | nil =>
    intro here h
    exact ⟨here, rfl, Except.ok.inj h ▸ hl⟩
  | cons n ns ih =>
    intro here h
    obtain ⟨mode, hd, h⟩ := walkNames_cons_ok.1 h
    obtain ⟨hnil, h⟩ | ⟨hnil, hx, ⟨hhere, h⟩ | ⟨hup, h⟩ | ⟨hhere, hup, hlen, h⟩⟩ := h
    · obtain ⟨p, hp, he⟩ := ih _ h
      exact ⟨p, walkNames_cons_ok.2 ⟨mode, hd, .inl ⟨hnil, hp⟩⟩, he⟩
    · obtain ⟨p, hp, he⟩ := ih _ h
      exact ⟨p, walkNames_cons_ok.2 ⟨mode, hd, .inr ⟨hnil, hx, .inl ⟨hhere, hp⟩⟩⟩, he⟩
    · obtain ⟨p, hp, he⟩ := ih _ h
      exact ⟨p, walkNames_cons_ok.2 ⟨mode, hd, .inr ⟨hnil, hx, .inr (.inl ⟨hup, hp⟩)⟩⟩, he⟩
    · have hstep : ∀ p, _ → t.walkNames false follow' here (n :: ns) = .ok p := fun p hp =>
        walkNames_cons_ok.2 ⟨mode, hd, .inr ⟨hnil, hx, .inr (.inr ⟨hhere, hup, hlen, hp⟩)⟩⟩
      obtain ⟨target, ht, h⟩ | ⟨hno, h⟩ := h
      · by_cases hns : ns = []
        · exact ⟨_, hstep _ (.inl ⟨target, ht, .inl ⟨hns, rfl, rfl⟩⟩), by simp [ht]⟩
        · obtain ⟨p, hp, he⟩ := hf _ _ (h.resolve_left (by simp)).2
          exact ⟨p, hstep _ (.inl ⟨target, ht, .inr ⟨by simp [hns], hp⟩⟩), he⟩
      · obtain ⟨p, hp, he⟩ := ih _ h
        exact ⟨p, hstep _ (.inr ⟨hno, hp⟩), he⟩

private theorem walk_last_link (hl : t.entry? l ≠ none) : ∀ (links : Nat) (ns : List FileName) (here : Location),
    t.walk true links here ns = .ok l → ∃ p, t.walk false links here ns = .ok p ∧ t.entry? p ≠ none
  | 0 => walkNames_last_link hl (by simp)
  | links + 1 => walkNames_last_link hl fun here ns => walk_last_link hl links ns here

/-- A path that leads to something leads to something if a link at its end is not followed. -/
theorem exists_resolve_false (h : t.resolve true d path = .ok l) (hl : t.entry? l ≠ none) :
    ∃ p, t.resolve false d path = .ok p ∧ t.entry? p ≠ none := by
  obtain ⟨p, hp, he⟩ := walk_last_link hl _ _ _ (resolve_eq_walk h)
  exact ⟨p, resolve_of_walk h hp, he⟩

private theorem walkNames_followed {follow follow' : Location → List FileName → Except Fault Location}
    (hl : ∀ target, t.entry? l ≠ some (.link target)) (hf : ∀ here ns, follow here ns = .ok l → follow' here ns = .ok l) :
    ∀ (ns : List FileName) (here : Location), t.walkNames false follow here ns = .ok l →
      t.walkNames true follow' here ns = .ok l := by
  intro ns
  induction ns with
  | nil => exact fun here h => h
  | cons n ns ih =>
    intro here h
    obtain ⟨mode, hd, h⟩ := walkNames_cons_ok.1 h
    refine walkNames_cons_ok.2 ⟨mode, hd, ?_⟩
    obtain ⟨hnil, h⟩ | ⟨hnil, hx, ⟨hhere, h⟩ | ⟨hup, h⟩ | ⟨hhere, hup, hlen, h⟩⟩ := h
    · exact .inl ⟨hnil, ih _ h⟩
    · exact .inr ⟨hnil, hx, .inl ⟨hhere, ih _ h⟩⟩
    · exact .inr ⟨hnil, hx, .inr (.inl ⟨hup, ih _ h⟩)⟩
    · refine .inr ⟨hnil, hx, .inr (.inr ⟨hhere, hup, hlen, ?_⟩)⟩
      obtain ⟨target, ht, ⟨-, -, heq⟩ | ⟨-, h⟩⟩ | ⟨hno, h⟩ := h
      · exact absurd (heq ▸ ht) (hl target)
      · exact .inl ⟨target, ht, .inr ⟨by simp, hf _ _ h⟩⟩
      · exact .inr ⟨hno, ih _ h⟩

private theorem walk_followed (hl : ∀ target, t.entry? l ≠ some (.link target)) :
    ∀ (links : Nat) (ns : List FileName) (here : Location),
      t.walk false links here ns = .ok l → t.walk true links here ns = .ok l
  | 0 => walkNames_followed hl (by simp)
  | links + 1 => walkNames_followed hl fun here ns => walk_followed hl links ns here

/-- A path at whose end there is no link leads to one place whether links at its end are followed or not. -/
theorem resolve_true_of_false (h : t.resolve false d path = .ok l) (hl : ∀ target, t.entry? l ≠ some (.link target)) :
    t.resolve true d path = .ok l := resolve_of_walk h (walk_followed hl _ _ _ (resolve_eq_walk h))

end Last

/-- A tree has the directories of another one with their modes, and the same links. -/
structure Carries (t t' : FileTree) : Prop where
  directory : ∀ l mode, t.entry? l = some (.directory mode) → t'.entry? l = some (.directory mode)
  link : ∀ l target, t.entry? l = some (.link target) ↔ t'.entry? l = some (.link target)

section Carries

variable {t t' : FileTree} {last : Bool}

private theorem walkNames_carries (hc : Carries t t')
    {follow follow' : Location → List FileName → Except Fault Location}
    (hf : ∀ here ns l, follow here ns = .ok l → follow' here ns = .ok l) :
    ∀ (ns : List FileName) (here l : Location),
      t.walkNames last follow here ns = .ok l → t'.walkNames last follow' here ns = .ok l := by
  intro ns
  induction ns with
  | nil =>
    intro here l h
    exact h
  | cons n ns ih =>
    intro here l h
    obtain ⟨mode, hd, h⟩ := walkNames_cons_ok.1 h
    refine walkNames_cons_ok.2 ⟨mode, hc.directory _ _ hd, ?_⟩
    obtain ⟨hnil, h⟩ | ⟨hnil, hx, ⟨hhere, h⟩ | ⟨hup, h⟩ | ⟨hhere, hup, hlen, h⟩⟩ := h
    · exact .inl ⟨hnil, ih _ _ h⟩
    · exact .inr ⟨hnil, hx, .inl ⟨hhere, ih _ _ h⟩⟩
    · exact .inr ⟨hnil, hx, .inr (.inl ⟨hup, ih _ _ h⟩)⟩
    · refine .inr ⟨hnil, hx, .inr (.inr ⟨hhere, hup, hlen, ?_⟩)⟩
      rcases h with ⟨target, ht, h⟩ | ⟨hno, h⟩
      · exact .inl ⟨target, (hc.link _ _).1 ht, h.imp_right fun h => ⟨h.1, hf _ _ _ h.2⟩⟩
      · exact .inr ⟨fun target ht => hno target ((hc.link _ _).2 ht), ih _ _ h⟩

private theorem walk_carries (hc : Carries t t') : ∀ (links : Nat) (ns : List FileName) (here l : Location),
    t.walk last links here ns = .ok l → t'.walk last links here ns = .ok l
  | 0, ns, here, l => by
    apply walkNames_carries hc
    intro _ _ _ h
    simp at h
  | links + 1, ns, here, l => by
    apply walkNames_carries hc
    intro here ns l h
    exact walk_carries hc links ns here l h

/-- Where a path leads in a tree, it leads in every tree that carries the tree. -/
theorem Carries.resolve (hc : Carries t t') {d l : Location} {path : String}
    (h : t.resolve last d path = .ok l) : t'.resolve last d path = .ok l :=
  resolve_of_walk h (walk_carries hc _ _ _ _ (resolve_eq_walk h))

end Carries

section Subset

variable {t t' : FileTree} {last : Bool} {l : Location}

private theorem walkNames_of_subset (ht : ∀ p e, t.entry? p = some e → t'.entry? p = some e) (hl : t.entry? l ≠ none)
    {follow follow' : Location → List FileName → Except Fault Location}
    (hf : ∀ here ns, follow here ns = .ok l → follow' here ns = .ok l) :
    ∀ (ns : List FileName) (here : Location),
      t.walkNames last follow here ns = .ok l → t'.walkNames last follow' here ns = .ok l := by
  intro ns
  induction ns with
  | nil => exact fun here h => h
  | cons n ns ih =>
    intro here h
    obtain ⟨mode, hd, h⟩ := walkNames_cons_ok.1 h
    refine walkNames_cons_ok.2 ⟨mode, ht _ _ hd, ?_⟩
    obtain ⟨hnil, h⟩ | ⟨hnil, hx, ⟨hhere, h⟩ | ⟨hup, h⟩ | ⟨hhere, hup, hlen, h⟩⟩ := h
    · exact .inl ⟨hnil, ih _ h⟩
    · exact .inr ⟨hnil, hx, .inl ⟨hhere, ih _ h⟩⟩
    · exact .inr ⟨hnil, hx, .inr (.inl ⟨hup, ih _ h⟩)⟩
    · refine .inr ⟨hnil, hx, .inr (.inr ⟨hhere, hup, hlen, ?_⟩)⟩
      obtain ⟨target, htarget, h⟩ | ⟨hno, h⟩ := h
      · exact .inl ⟨target, ht _ _ htarget, h.imp_right fun h => ⟨h.1, hf _ _ h.2⟩⟩
      · -- the walk ends at something, so there is something here that is no link
        obtain ⟨e, he⟩ : ∃ e, t.entry? (here ++ [n]) = some e := by
          cases ns with
          | nil => exact Option.ne_none_iff_exists'.1 (Except.ok.inj h ▸ hl)
          | cons m ns =>
            obtain ⟨mode', hd', -⟩ := walkNames_cons_ok.1 h
            exact ⟨_, hd'⟩
        refine .inr ⟨fun target htarget => hno target ?_, ih _ h⟩
        rw [he, ← htarget, ht _ _ he]

private theorem walk_of_subset (ht : ∀ p e, t.entry? p = some e → t'.entry? p = some e) (hl : t.entry? l ≠ none) :
    ∀ (links : Nat) (ns : List FileName) (here : Location),
      t.walk last links here ns = .ok l → t'.walk last links here ns = .ok l
  | 0 => walkNames_of_subset ht hl (by simp)
  | links + 1 => walkNames_of_subset ht hl fun here ns => walk_of_subset ht hl links ns here

/-- A path that leads to something leads there in every tree that has all that the tree has. -/
theorem resolve_of_subset (ht : ∀ p e, t.entry? p = some e → t'.entry? p = some e) (hl : t.entry? l ≠ none)
    {d : Location} {path : String} (h : t.resolve last d path = .ok l) : t'.resolve last d path = .ok l :=
  resolve_of_walk h (walk_of_subset ht hl _ _ _ (resolve_eq_walk h))

end Subset

/-- A tree differs from another one only in places where no path goes on in it. -/
def Blocks (t t' : FileTree) : Prop := ∀ l, t'.entry? l = t.entry? l ∨ Entry.DeadEnd (t'.entry? l)

section Blocks

variable {t t' t'' : FileTree} {D l : Location} {mode : Nat}

theorem Blocks.refl (t : FileTree) : Blocks t t := fun _ => .inl rfl

theorem Blocks.trans (h : Blocks t t') (h' : Blocks t' t'') : Blocks t t'' := by
  intro l
  rcases h' l with heq | hend
  · rw [heq]
    exact h l
  · exact .inr hend

theorem Blocks.put_file (t : FileTree) (l : Location) (mode : Nat) (data : ByteArray) :
    Blocks t (t.put l (.file mode data)) := by
  intro p
  by_cases hp : p = l
  · subst hp
    cases p with
    | nil => exact .inl rfl
    | cons n p =>
      rw [t.entry?_put_self (List.cons_ne_nil n p)]
      exact .inr ⟨nofun, nofun⟩
  · exact .inl (t.entry?_put_of_ne hp _)

theorem Blocks.erase (t : FileTree) (l : Location) : Blocks t (t.erase l) := by
  intro p
  by_cases hp : p = l
  · subst hp
    cases p with
    | nil => exact .inl rfl
    | cons n p =>
      rw [t.entry?_erase_self (List.cons_ne_nil n p)]
      exact .inr ⟨nofun, nofun⟩
  · exact .inl (t.entry?_erase_of_ne hp)

theorem Blocks.directory (h : Blocks t t') (hl : t'.entry? l = some (.directory mode)) :
    t.entry? l = some (.directory mode) := by
  rcases h l with heq | hend
  · rw [← heq, hl]
  · exact absurd hl (hend.1 mode)

private theorem walkNames_of_blocks (ht : Blocks t t') (hD : t'.entry? D = some (.directory mode))
    {follow follow' : Location → List FileName → Except Fault Location}
    (hf : ∀ here ns, follow' here ns = .ok D → follow here ns = .ok D) :
    ∀ (ns : List FileName) (here : Location),
      t'.walkNames true follow' here ns = .ok D → t.walkNames true follow here ns = .ok D := by
  intro ns
  induction ns with
  | nil => exact fun here h => h
  | cons n ns ih =>
    intro here h
    obtain ⟨mode', hd, h⟩ := walkNames_cons_ok.1 h
    refine walkNames_cons_ok.2 ⟨mode', ht.directory hd, ?_⟩
    obtain ⟨hnil, h⟩ | ⟨hnil, hx, ⟨hhere, h⟩ | ⟨hup, h⟩ | ⟨hhere, hup, hlen, h⟩⟩ := h
    · exact .inl ⟨hnil, ih _ h⟩
    · exact .inr ⟨hnil, hx, .inl ⟨hhere, ih _ h⟩⟩
    · exact .inr ⟨hnil, hx, .inr (.inl ⟨hup, ih _ h⟩)⟩
    · refine .inr ⟨hnil, hx, .inr (.inr ⟨hhere, hup, hlen, ?_⟩)⟩
      obtain ⟨target, htarget, h⟩ | ⟨hno, h⟩ := h
      · refine .inl ⟨target, ?_, h.imp_right fun h => ⟨h.1, hf _ _ h.2⟩⟩
        exact (ht _).elim (fun heq => heq.symm.trans htarget) fun hend => absurd htarget (hend.2 target)
      · -- the walk ends in a directory, so it does not come to a dead end here
        obtain ⟨mode'', hd'⟩ : ∃ mode, t'.entry? (here ++ [n]) = some (.directory mode) := by
          cases ns with
          | nil => exact ⟨mode, Except.ok.inj h ▸ hD⟩
          | cons m ns =>
            obtain ⟨mode'', hd'', -⟩ := walkNames_cons_ok.1 h
            exact ⟨mode'', hd''⟩
        refine .inr ⟨fun target htarget => ?_, ih _ h⟩
        rw [ht.directory hd'] at htarget
        cases htarget

private theorem walk_of_blocks (ht : Blocks t t') (hD : t'.entry? D = some (.directory mode)) :
    ∀ (links : Nat) (ns : List FileName) (here : Location),
      t'.walk true links here ns = .ok D → t.walk true links here ns = .ok D
  | 0 => walkNames_of_blocks ht hD (by simp)
  | links + 1 => walkNames_of_blocks ht hD fun here ns => walk_of_blocks ht hD links ns here

/-- A path that leads to a directory led there before its tree got more dead ends. -/
theorem Blocks.resolve (ht : Blocks t t') (hD : t'.entry? D = some (.directory mode)) {d : Location} {path : String}
    (h : t'.resolve true d path = .ok D) : t.resolve true d path = .ok D :=
  resolve_of_walk h (walk_of_blocks ht hD _ _ _ (resolve_eq_walk h))

end Blocks

/-- A tree differs from another one only in places where it has files. -/
def GainsFiles (t t' : FileTree) : Prop :=
  ∀ l, t'.entry? l = t.entry? l ∨ ∃ mode data, t'.entry? l = some (.file mode data)

section GainsFiles

variable {t t' : FileTree}

theorem GainsFiles.refl (t : FileTree) : GainsFiles t t := fun _ => .inl rfl

theorem GainsFiles.put (hg : GainsFiles t t') (l : Location) (mode : Nat) (data : ByteArray) :
    GainsFiles t (t'.put l (.file mode data)) := by
  intro p
  by_cases hp : p = l
  · subst hp
    by_cases hnil : p = []
    · subst hnil
      exact .inl (by simp)
    · exact .inr ⟨mode, data, t'.entry?_put_self hnil _⟩
  · rw [t'.entry?_put_of_ne hp]
    exact hg p

variable {n : FileName} {rest : List FileName} {D l : Location} {mode : Nat}

private theorem walkNames_gainsFiles (hg : GainsFiles t t') (hn : n.Proper) (hrest : rest = [] ∨ rest = [[]])
    (hD : t'.entry? D = some (.directory mode)) (hl : ∀ target, t'.entry? l ≠ some (.link target))
    {follow follow' : Location → List FileName → Except Fault Location}
    (hf : ∀ here ns, follow' here (ns ++ rest) = .ok D → follow here (ns ++ [n]) = .ok l →
      follow' here (ns ++ [n]) = .ok l) :
    ∀ (ns : List FileName) (here : Location), t'.walkNames true follow' here (ns ++ rest) = .ok D →
      t.walkNames false follow here (ns ++ [n]) = .ok l → t'.walkNames true follow' here (ns ++ [n]) = .ok l := by
  have hsame : ∀ {here mode'}, t'.entry? here = some (.directory mode') → t.entry? here = some (.directory mode') := by
    intro here mode' hd
    rcases hg here with heq | ⟨_, _, hfile⟩
    · rw [← heq, hd]
    · rw [hd] at hfile
      cases hfile
  intro ns
  induction ns with
  | nil =>
    intro here h h'
    obtain rfl : here = D := by
      rcases hrest with rfl | rfl
      · simpa [walkNames] using h
      · obtain ⟨_, -, ⟨-, h⟩ | ⟨hne, -⟩⟩ := walkNames_cons_ok.1 h
        · simpa [walkNames] using h
        · exact absurd rfl hne
    obtain ⟨mode', hd, ⟨hnil, -⟩ | ⟨hnil, hx, ⟨hhere, -⟩ | ⟨hup, -⟩ | ⟨hhere, hup, hlen, h'⟩⟩⟩ := walkNames_cons_ok.1 h'
    · exact absurd hnil hn.ne_nil
    · exact absurd hhere hn.ne_here
    · exact absurd hup hn.ne_up
    · rw [hsame hD] at hd
      cases hd
      obtain rfl : here ++ [n] = l := by
        rcases h' with ⟨_, -, ⟨-, -, h'⟩ | ⟨hne, -⟩⟩ | ⟨-, h'⟩
        · exact h'.symm
        · exact absurd ⟨rfl, rfl⟩ hne
        · simpa [walkNames] using h'
      exact walkNames_cons_ok.2 ⟨mode, hD, .inr ⟨hnil, hx, .inr (.inr ⟨hhere, hup, hlen, .inr ⟨hl, rfl⟩⟩)⟩⟩
  | cons m ns ih =>
    intro here h h'
    rw [List.cons_append] at h h' ⊢
    obtain ⟨mode', hd, h⟩ := walkNames_cons_ok.1 h
    obtain ⟨_, hd', h'⟩ := walkNames_cons_ok.1 h'
    rw [hsame hd] at hd'
    cases hd'
    refine walkNames_cons_ok.2 ⟨mode', hd, ?_⟩
    rcases h with ⟨hnil, h⟩ | ⟨hnil, hx, ⟨hhere, h⟩ | ⟨hup, h⟩ | ⟨hhere, hup, hlen, h⟩⟩
    · rcases h' with ⟨-, h'⟩ | ⟨hne, -⟩
      · exact .inl ⟨hnil, ih _ h h'⟩
      · exact absurd hnil hne
    · rcases h' with ⟨hne, -⟩ | ⟨-, -, ⟨-, h'⟩ | ⟨hup, -⟩ | ⟨hne, -⟩⟩
      · exact absurd hne hnil
      · exact .inr ⟨hnil, hx, .inl ⟨hhere, ih _ h h'⟩⟩
      · exact absurd (hhere.symm.trans hup) (by decide)
      · exact absurd hhere hne
    · rcases h' with ⟨hne, -⟩ | ⟨-, -, ⟨hhere, -⟩ | ⟨-, h'⟩ | ⟨-, hne, -⟩⟩
      · exact absurd hne hnil
      · exact absurd (hhere.symm.trans hup) (by decide)
      · exact .inr ⟨hnil, hx, .inr (.inl ⟨hup, ih _ h h'⟩)⟩
      · exact absurd hup hne
    · rcases h' with ⟨hne, -⟩ | ⟨-, -, ⟨hne, -⟩ | ⟨hne, -⟩ | ⟨-, -, -, h'⟩⟩
      · exact absurd hne hnil
      · exact absurd hne hhere
      · exact absurd hne hup
      · refine .inr ⟨hnil, hx, .inr (.inr ⟨hhere, hup, hlen, ?_⟩)⟩
        -- the walk to the directory does not go on from a file, so here the trees have the same
        have heq : t'.entry? (here ++ [m]) = t.entry? (here ++ [m]) := by
          refine (hg (here ++ [m])).resolve_right ?_
          rintro ⟨_, _, hfile⟩
          obtain ⟨target, ht, -⟩ | ⟨-, h⟩ := h
          · rw [ht] at hfile
            cases hfile
          · cases hns : ns ++ rest with
            | nil =>
              rw [hns] at h
              obtain rfl : here ++ [m] = D := by simpa [walkNames] using h
              rw [hD] at hfile
              cases hfile
            | cons _ _ =>
              rw [hns] at h
              obtain ⟨_, hdir, -⟩ := walkNames_cons_ok.1 h
              rw [hdir] at hfile
              cases hfile
        rcases h with ⟨target, ht, h⟩ | ⟨hno, h⟩
        · rcases h' with ⟨target', ht', h'⟩ | ⟨hno', -⟩
          · rw [← heq, ht] at ht'
            cases ht'
            have h₁ := (h.resolve_left (by simp)).2
            have h₂ := (h'.resolve_left (by simp)).2
            refine .inl ⟨target, ht, .inr ⟨by simp, ?_⟩⟩
            rw [← List.append_assoc] at h₁ h₂ ⊢
            exact hf _ _ h₁ h₂
          · exact absurd (heq ▸ ht) (hno' target)
        · rcases h' with ⟨target', ht', -⟩ | ⟨-, h'⟩
          · exact absurd (heq.trans ht') (hno target')
          · exact .inr ⟨hno, ih _ h h'⟩

private theorem walk_gainsFiles (hg : GainsFiles t t') (hn : n.Proper) (hrest : rest = [] ∨ rest = [[]])
    (hD : t'.entry? D = some (.directory mode)) (hl : ∀ target, t'.entry? l ≠ some (.link target)) :
    ∀ (links : Nat) (ns : List FileName) (here : Location), t'.walk true links here (ns ++ rest) = .ok D →
      t.walk false links here (ns ++ [n]) = .ok l → t'.walk true links here (ns ++ [n]) = .ok l
  | 0, ns, here => walkNames_gainsFiles hg hn hrest hD hl (by simp) ns here
  | links + 1, ns, here =>
    walkNames_gainsFiles hg hn hrest hD hl (fun here ns => walk_gainsFiles hg hn hrest hD hl links ns here) ns here

/-- Where a file in a directory would be put it is found, as long as the way to the directory is still there. -/
theorem GainsFiles.resolve_join (hg : GainsFiles t t') {d : Location} {base name : String}
    (hn : (FileName.ofText name).Proper) (hd : t'.isDirectory d base = true)
    (hl : t.resolve false d (Path.join base name) = .ok l) (hfile : ∀ target, t'.entry? l ≠ some (.link target)) :
    t'.resolve true d (Path.join base name) = .ok l := by
  obtain ⟨D, mode, hD, hmode⟩ : ∃ D mode, t'.resolve true d base = .ok D ∧ t'.entry? D = some (.directory mode) := by
    unfold isDirectory status at hd
    cases hD : t'.resolve true d base with
    | error e => simp [hD, bind, Except.bind, Except.toOption] at hd
    | ok D =>
      refine ⟨D, ?_⟩
      cases he : t'.entry? D with
      | none => simp [hD, he, bind, Except.bind, Except.toOption, throw, throwThe, MonadExceptOf.throw] at hd
      | some e =>
        cases e with
        | directory mode => exact ⟨mode, rfl, rfl⟩
        | file | link | pipe =>
          simp [hD, he, bind, Except.bind, Except.toOption, Entry.isDirectory, pure, Except.pure] at hd
  obtain ⟨front, rest, hbase, hrest, hjoin⟩ := Path.rawNames_join_name base hn.slash_notMem
  have hwalk := resolve_eq_walk hD
  have hwalk' := resolve_eq_walk hl
  rw [hbase, ← Path.isAbsolute_join base hn.slash_notMem] at hwalk
  rw [hjoin] at hwalk'
  have hfound := walk_gainsFiles hg hn hrest hmode hfile _ _ _ hwalk hwalk'
  rw [← hjoin] at hfound
  exact resolve_of_walk hl hfound

private theorem walkNames_file (hg : GainsFiles t t') {mode : Nat} {data : ByteArray}
    (hl : t'.entry? l = some (.file mode data))
    {follow follow' : Location → List FileName → Except Fault Location}
    (hf : ∀ here ns q, follow here ns = .ok l → follow' here ns = .ok q → q = l) :
    ∀ (ns : List FileName) (here q : Location), t.walkNames false follow here ns = .ok l →
      t'.walkNames true follow' here ns = .ok q → q = l := by
  intro ns
  induction ns with
  | nil =>
    intro here q h h'
    exact (Except.ok.inj h').symm.trans (Except.ok.inj h)
  | cons n ns ih =>
    intro here q h h'
    -- a file on the way ends the walk, so up to the last name both trees have the same entries
    have hend : t'.walkNames true follow' (here ++ [n]) ns = .ok q →
        t'.entry? (here ++ [n]) ≠ t.entry? (here ++ [n]) → ns = [] := by
      intro hwalk hne
      obtain ⟨_, _, hfile⟩ := (hg _).resolve_left hne
      cases ns with
      | nil => rfl
      | cons m ns =>
        obtain ⟨_, hdirectory, -⟩ := walkNames_cons_ok.1 hwalk
        rw [hfile] at hdirectory
        cases hdirectory
    have hlink : ∀ target, t'.entry? (here ++ [n]) = some (.link target) →
        t.entry? (here ++ [n]) = some (.link target) := by
      intro target ht
      rcases hg (here ++ [n]) with heq | ⟨_, _, hfile⟩
      · rw [← heq, ht]
      · rw [ht] at hfile
        cases hfile
    obtain ⟨_, -, h⟩ := walkNames_cons_ok.1 h
    obtain ⟨_, -, h'⟩ := walkNames_cons_ok.1 h'
    obtain ⟨hnil, h⟩ | ⟨hnil, -, ⟨hhere, h⟩ | ⟨hup, h⟩ | ⟨hhere, hup, -, h⟩⟩ := h
    all_goals obtain ⟨hnil', h'⟩ | ⟨hnil', -, ⟨hhere', h'⟩ | ⟨hup', h'⟩ | ⟨hhere', hup', -, h'⟩⟩ := h'
    all_goals first
      | contradiction
      | exact ih _ _ h h'
      | skip
    · cases hhere.symm.trans hup'
    · cases hup.symm.trans hhere'
    · obtain ⟨target, ht, ⟨rfl, -, rfl⟩ | ⟨hmore, h⟩⟩ | ⟨hno, h⟩ := h
      · obtain ⟨_, ht', -⟩ | ⟨-, h'⟩ := h'
        · rw [hl] at ht'
          cases ht'
        · exact (Except.ok.inj h').symm
      · obtain ⟨_, ht', h'⟩ | ⟨hno', h'⟩ := h'
        · cases ht.symm.trans (hlink _ ht')
          obtain ⟨-, hlast, -⟩ | ⟨-, h'⟩ := h'
          · cases hlast
          · exact hf _ _ _ h h'
        · exact absurd ⟨hend h' fun heq => hno' target (heq.trans ht), rfl⟩ hmore
      · obtain ⟨_, ht', -⟩ | ⟨-, h'⟩ := h'
        · exact absurd (hlink _ ht') (hno _)
        · exact ih _ _ h h'

private theorem walk_file (hg : GainsFiles t t') {mode : Nat} {data : ByteArray}
    (hl : t'.entry? l = some (.file mode data)) : ∀ (links : Nat) (ns : List FileName) (here q : Location),
      t.walk false links here ns = .ok l → t'.walk true links here ns = .ok q → q = l
  | 0, ns, here, q => walkNames_file hg hl (by simp) ns here q
  | links + 1, ns, here, q =>
    walkNames_file hg hl (fun here ns q => walk_file hg hl links ns here q) ns here q

/-- Where a path leads once there is a file at its end, it leads to the file. -/
theorem GainsFiles.resolve_file (hg : GainsFiles t t') {mode : Nat} {data : ByteArray} {d q : Location}
    {path : String} (hl : t'.entry? l = some (.file mode data)) (h : t.resolve false d path = .ok l)
    (h' : t'.resolve true d path = .ok q) : q = l :=
  walk_file hg hl _ _ _ _ (resolve_eq_walk h) (resolve_eq_walk h')

end GainsFiles

section Filling

variable {t t' : FileTree} {l : Location} {d : Location} {path : String}

private theorem walkNames_filled (hsame : ∀ p, p ≠ l → t'.entry? p = t.entry? p)
    (hdirectory : ∀ mode, t.entry? l ≠ some (.directory mode)) (hlink : ∀ target, t.entry? l ≠ some (.link target))
    (hlink' : ∀ target, t'.entry? l ≠ some (.link target))
    {follow follow' : Location → List FileName → Except Fault Location}
    (hf : ∀ here ns, follow here ns = .ok l → follow' here ns = .ok l) :
    ∀ (ns : List FileName) (here : Location), t.walkNames false follow here ns = .ok l →
      t'.walkNames true follow' here ns = .ok l := by
  intro ns
  induction ns with
  | nil => exact fun here h => h
  | cons n ns ih =>
    intro here h
    obtain ⟨mode, hd, h⟩ := walkNames_cons_ok.1 h
    -- the way goes through directories, and the place itself was none
    have hd' : t'.entry? here = some (.directory mode) := by
      rw [hsame here fun heq => hdirectory mode (heq ▸ hd), hd]
    refine walkNames_cons_ok.2 ⟨mode, hd', ?_⟩
    obtain ⟨hnil, h⟩ | ⟨hnil, hx, ⟨hhere, h⟩ | ⟨hup, h⟩ | ⟨hhere, hup, hlen, h⟩⟩ := h
    · exact .inl ⟨hnil, ih _ h⟩
    · exact .inr ⟨hnil, hx, .inl ⟨hhere, ih _ h⟩⟩
    · exact .inr ⟨hnil, hx, .inr (.inl ⟨hup, ih _ h⟩)⟩
    · refine .inr ⟨hnil, hx, .inr (.inr ⟨hhere, hup, hlen, ?_⟩)⟩
      obtain ⟨target, ht, ⟨-, -, heq⟩ | ⟨-, h⟩⟩ | ⟨hno, h⟩ := h
      · exact absurd (heq ▸ ht) (hlink target)
      · refine .inl ⟨target, ?_, .inr ⟨by simp, hf _ _ h⟩⟩
        rw [hsame _ fun heq => hlink target (heq ▸ ht), ht]
      · refine .inr ⟨fun target => ?_, ih _ h⟩
        by_cases heq : here ++ [n] = l
        · exact heq ▸ hlink' target
        · rw [hsame _ heq]
          exact hno target

private theorem walk_filled (hsame : ∀ p, p ≠ l → t'.entry? p = t.entry? p)
    (hdirectory : ∀ mode, t.entry? l ≠ some (.directory mode)) (hlink : ∀ target, t.entry? l ≠ some (.link target))
    (hlink' : ∀ target, t'.entry? l ≠ some (.link target)) : ∀ (links : Nat) (ns : List FileName) (here : Location),
      t.walk false links here ns = .ok l → t'.walk true links here ns = .ok l
  | 0, ns, here => walkNames_filled hsame hdirectory hlink hlink' (by simp) ns here
  | links + 1, ns, here =>
    walkNames_filled hsame hdirectory hlink hlink'
      (fun here ns => walk_filled hsame hdirectory hlink hlink' links ns here) ns here

/-- A path at whose end there was neither a directory nor a link leads to the file that is put there. -/
theorem resolve_put_file (hdirectory : ∀ mode, t.entry? l ≠ some (.directory mode))
    (hlink : ∀ target, t.entry? l ≠ some (.link target)) (h : t.resolve false d path = .ok l) (mode : Nat)
    (data : ByteArray) : (t.put l (.file mode data)).resolve true d path = .ok l := by
  have hroot : l ≠ [] := by
    rintro rfl
    exact hdirectory _ (entry?_root t)
  have hlink' : ∀ target, entry? (t.put l (.file mode data)) l ≠ some (.link target) := by
    simp [t.entry?_put_self hroot]
  have hfound := walk_filled (fun p hp => t.entry?_put_of_ne hp _) hdirectory hlink hlink' _ _ _ (resolve_eq_walk h)
  exact resolve_of_walk h hfound

end Filling

section Joined

variable {t : FileTree} {last : Bool} {D : Location}

private theorem walkNames_append {Q : Except Fault Location → Prop} {more : List FileName} (hmore : more ≠ [])
    {follow follow' : Location → List FileName → Except Fault Location}
    (hf : ∀ here ns, follow here ns = .ok D → Q (follow' here (ns ++ more)))
    (hend : Q (t.walkNames last follow' D more)) :
    ∀ (ns : List FileName) (here : Location), t.walkNames true follow here ns = .ok D →
      Q (t.walkNames last follow' here (ns ++ more)) := by
  intro ns
  induction ns with
  | nil =>
    intro here h
    obtain rfl : here = D := Except.ok.inj h
    exact hend
  | cons n ns ih =>
    intro here h
    obtain ⟨mode, hd, h⟩ := walkNames_cons_ok.1 h
    rw [List.cons_append, walkNames, hd]
    obtain ⟨hnil, h⟩ | ⟨hnil, hx, ⟨hhere, h⟩ | ⟨hup, h⟩ | ⟨hhere, hup, hlen, h⟩⟩ := h
    · simpa only [if_pos hnil] using ih _ h
    · simpa [hnil, hx, hhere] using ih _ h
    · have hne : FileName.up ≠ FileName.here ∧ FileName.up ≠ [] := by decide
      simpa [hx, hup, hne.1, hne.2] using ih _ h
    · obtain ⟨target, ht, h⟩ | ⟨hno, h⟩ := h
      · have hfollow := hf _ _ (h.resolve_left (by simp)).2
        have hinner : (ns ++ more).isEmpty = false := by simp [hmore]
        rw [List.append_assoc] at hfollow
        simpa [hnil, hx, hhere, hup, Nat.not_lt.2 hlen, ht, hinner] using hfollow
      · simpa [hnil, hx, hhere, hup, Nat.not_lt.2 hlen, hno] using ih _ h

/-- A walk goes on from the place where its first names lead, with as many links to follow as are left. -/
private theorem walk_append (last : Bool) {more : List FileName} (hmore : more ≠ []) :
    ∀ (links : Nat) (ns : List FileName) (here : Location), t.walk true links here ns = .ok D →
      ∃ left, t.walk last links here (ns ++ more) = t.walk last left D more
  | 0 => walkNames_append (Q := fun x => ∃ left, x = t.walk last left D more) hmore (by simp) ⟨0, rfl⟩
  | links + 1 =>
    walkNames_append (Q := fun x => ∃ left, x = t.walk last left D more) hmore
      (fun here ns => walk_append last hmore links ns here) ⟨links + 1, rfl⟩

private theorem walkNames_split {more : List FileName} (hmore : more ≠ [])
    {follow follow' : Location → List FileName → Except Fault Location}
    (hf : ∀ here ns l, follow here (ns ++ more) = .ok l →
      ∃ D left, follow' here ns = .ok D ∧ t.walk last left D more = .ok l)
    (hend : ∀ D l, t.walkNames last follow D more = .ok l → ∃ left, t.walk last left D more = .ok l) :
    ∀ (ns : List FileName) (here l : Location), t.walkNames last follow here (ns ++ more) = .ok l →
      ∃ D left, t.walkNames true follow' here ns = .ok D ∧ t.walk last left D more = .ok l := by
  intro ns
  induction ns with
  | nil =>
    intro here l h
    obtain ⟨left, hleft⟩ := hend here l h
    exact ⟨here, left, rfl, hleft⟩
  | cons n ns ih =>
    intro here l h
    rw [List.cons_append] at h
    obtain ⟨mode, hd, h⟩ := walkNames_cons_ok.1 h
    have hstep : ∀ next, t.walkNames last follow next (ns ++ more) = .ok l →
        (∀ D, t.walkNames true follow' next ns = .ok D → t.walkNames true follow' here (n :: ns) = .ok D) →
        ∃ D left, t.walkNames true follow' here (n :: ns) = .ok D ∧ t.walk last left D more = .ok l := by
      intro next h hnext
      obtain ⟨D, left, hD, hleft⟩ := ih next l h
      exact ⟨D, left, hnext D hD, hleft⟩
    obtain ⟨hnil, h⟩ | ⟨hnil, hx, ⟨hhere, h⟩ | ⟨hup, h⟩ | ⟨hhere, hup, hlen, h⟩⟩ := h
    · exact hstep _ h fun D hD => walkNames_cons_ok.2 ⟨mode, hd, .inl ⟨hnil, hD⟩⟩
    · exact hstep _ h fun D hD => walkNames_cons_ok.2 ⟨mode, hd, .inr ⟨hnil, hx, .inl ⟨hhere, hD⟩⟩⟩
    · exact hstep _ h fun D hD => walkNames_cons_ok.2 ⟨mode, hd, .inr ⟨hnil, hx, .inr (.inl ⟨hup, hD⟩)⟩⟩
    · obtain ⟨target, ht, h⟩ | ⟨hno, h⟩ := h
      · have hfollow := (h.resolve_left (by simp [hmore])).2
        rw [← List.append_assoc] at hfollow
        obtain ⟨D, left, hD, hleft⟩ := hf _ _ _ hfollow
        refine ⟨D, left, walkNames_cons_ok.2 ⟨mode, hd, .inr ⟨hnil, hx, .inr (.inr ⟨hhere, hup, hlen, ?_⟩)⟩⟩, hleft⟩
        exact .inl ⟨target, ht, .inr ⟨by simp, hD⟩⟩
      · exact hstep _ h fun D hD =>
          walkNames_cons_ok.2 ⟨mode, hd, .inr ⟨hnil, hx, .inr (.inr ⟨hhere, hup, hlen, .inr ⟨hno, hD⟩⟩)⟩⟩

/-- A walk that comes to an end came by the place where its first names lead. -/
private theorem walk_split (last : Bool) {more : List FileName} (hmore : more ≠ []) :
    ∀ (links : Nat) (ns : List FileName) (here l : Location), t.walk last links here (ns ++ more) = .ok l →
      ∃ D left, t.walk true links here ns = .ok D ∧ t.walk last left D more = .ok l
  | 0 => walkNames_split hmore (by simp) fun _ _ h => ⟨0, h⟩
  | links + 1 =>
    walkNames_split hmore (fun here ns l => walk_split last hmore links ns here l) fun _ _ h => ⟨links + 1, h⟩

/-- A path and a name lead from where the path leads on by the name. -/
private theorem resolve_join_eq (last : Bool) {d : Location} {base name : String}
    (hn : (FileName.ofText name).Proper) (hd : t.resolve true d base = .ok D)
    (hc : checkPath (RawPath.ofText (Path.join base name)) = .ok ()) :
    ∃ left, t.resolve last d (Path.join base name) = t.walk last left D [FileName.ofText name] := by
  have hwalk := resolve_eq_walk hd
  rw [← Path.isAbsolute_join base hn.slash_notMem] at hwalk
  obtain ⟨front, rest, hbase, hrest, hnames⟩ := Path.rawNames_join_name base hn.slash_notMem
  -- a slash at the end leads nowhere else
  have hfront : t.walk true linkLimit
      (if RawPath.isAbsolute (RawPath.ofText (Path.join base name)) then [] else d) front = .ok D := by
    rw [hbase] at hwalk
    rcases hrest with rfl | rfl
    · rwa [List.append_nil] at hwalk
    · obtain ⟨D', left, hD', hleft⟩ := walk_split true (List.cons_ne_nil [] []) _ _ _ _ hwalk
      have hstep : ∃ follow, t.walkNames true follow D' [[]] = .ok D := by
        cases left with
        | zero => exact ⟨_, hleft⟩
        | succ left => exact ⟨_, hleft⟩
      obtain ⟨follow, hstep⟩ := hstep
      obtain ⟨mode, -, ⟨-, hend⟩ | ⟨hne, -⟩⟩ := walkNames_cons_ok.1 hstep
      · rwa [← Except.ok.inj hend]
      · exact absurd rfl hne
  obtain ⟨left, hleft⟩ := walk_append last (List.cons_ne_nil (FileName.ofText name) []) _ _ _ hfront
  refine ⟨left, ?_⟩
  rw [← hleft, ← hnames]
  unfold resolve
  simp only [hc, bind, Except.bind, Path.rawNames]

/-- A name in a directory that may be used leads to what has the name there, unless that is a link that is followed. -/
theorem resolve_join {d : Location} {base name : String} {mode : Nat} (hn : (FileName.ofText name).Proper)
    (hlen : (FileName.ofText name).length ≤ nameLimit)
    (hd : t.resolve true d base = .ok D) (hmode : t.entry? D = some (.directory mode))
    (hx : (Entry.directory mode).grants .execute = true)
    (hc : checkPath (RawPath.ofText (Path.join base name)) = .ok ())
    (hlink : last = true → ∀ target, t.entry? (D ++ [FileName.ofText name]) ≠ some (.link target)) :
    t.resolve last d (Path.join base name) = .ok (D ++ [FileName.ofText name]) := by
  obtain ⟨left, hleft⟩ := resolve_join_eq last hn hd hc
  have hstep : ∀ follow, t.walkNames last follow D [FileName.ofText name] = .ok (D ++ [FileName.ofText name]) := by
    intro follow
    refine walkNames_cons_ok.2 ⟨mode, hmode, .inr ⟨hn.ne_nil, hx, .inr (.inr ⟨hn.ne_here, hn.ne_up, hlen, ?_⟩)⟩⟩
    by_cases hl : ∃ target, t.entry? (D ++ [FileName.ofText name]) = some (.link target)
    · obtain ⟨target, ht⟩ := hl
      have hlast : last = false := by
        rw [← Bool.not_eq_true]
        exact fun h => hlink h target ht
      exact .inl ⟨target, ht, .inl ⟨rfl, hlast, rfl⟩⟩
    · exact .inr ⟨fun target ht => hl ⟨target, ht⟩, rfl⟩
  rw [hleft]
  cases left with
  | zero => exact hstep _
  | succ left => exact hstep _

/-- A name in a directory leads to what has the name there, or something else than a missing entry is the matter. -/
theorem resolve_join_cases {d : Location} {base name : String} {mode : Nat} (hn : (FileName.ofText name).Proper)
    (hd : t.resolve true d base = .ok D) (hmode : t.entry? D = some (.directory mode)) :
    t.resolve false d (Path.join base name) = .ok (D ++ [FileName.ofText name]) ∨
      ∃ f, f ≠ .notFound ∧ t.resolve false d (Path.join base name) = .error f := by
  cases hc : checkPath (RawPath.ofText (Path.join base name)) with
  | error f =>
    refine .inr ⟨f, ?_, by simp [resolve, hc, bind, Except.bind]⟩
    have hne : RawPath.ofText (Path.join base name) ≠ [] := by
      intro hnil
      have hempty : Path.join base name = "" := FileName.ofText_injective (hnil.trans FileName.ofText_empty.symm)
      simpa [hempty] using (Path.EndsInName.join base hn).isEmpty_eq
    unfold checkPath at hc
    rw [if_neg (by simpa using hne)] at hc
    split at hc
    · cases hc
      decide
    · split at hc
      · cases hc
        decide
      · cases hc
  | ok =>
    by_cases hx : (Entry.directory mode).grants .execute = true
    · by_cases hlen : (FileName.ofText name).length ≤ nameLimit
      · exact .inl (resolve_join hn hlen hd hmode hx hc (by simp))
      · obtain ⟨left, hleft⟩ := resolve_join_eq false hn hd hc
        refine .inr ⟨.nameTooLong, by decide, ?_⟩
        rw [hleft]
        cases left <;> simp [walk, walkNames, hmode, hx, hn.ne_nil, hn.ne_here, hn.ne_up, Nat.not_le.1 hlen]
    · obtain ⟨left, hleft⟩ := resolve_join_eq false hn hd hc
      refine .inr ⟨.permissionDenied, by decide, ?_⟩
      rw [hleft]
      cases left <;> simp [walk, walkNames, hmode, hx, hn.ne_nil]

private theorem checkPath_of_join {base name : String} (hbase : Path.EndsInName base)
    (hn : RawPath.slash ∉ FileName.ofText name) (hc : checkPath (RawPath.ofText (Path.join base name)) = .ok ()) :
    checkPath (RawPath.ofText base) = .ok () := by
  have hbytes : RawPath.ofText (Path.join base name) = RawPath.ofText base ++ FileName.ofText ("/" ++ name) := by
    rw [hbase.join_eq hn, String.append_assoc]
    exact FileName.ofText_append ..
  have hne : RawPath.ofText base ≠ [] := by
    intro hnil
    have hempty : base = "" := FileName.ofText_injective (hnil.trans FileName.ofText_empty.symm)
    simpa [hempty] using hbase.isEmpty_eq
  unfold checkPath at hc ⊢
  rw [hbytes] at hc
  split at hc
  · cases hc
  · split at hc
    · cases hc
    · next hnul =>
      split at hc
      · cases hc
      · next hlong =>
        rw [List.length_append] at hlong
        rw [if_neg (by simpa using hne), if_neg (by simpa using fun hm => hnul (by simp [hm])), if_neg (by omega)]

/-- One name leads from a directory that may be used. -/
private theorem walk_name_ok {n : FileName} {left : Nat} {l : Location} (hn : n.Proper)
    (h : t.walk last left D [n] = .ok l) : ∃ mode, t.entry? D = some (.directory mode) ∧
      (Entry.directory mode).grants .execute = true ∧ n.length ≤ nameLimit ∧ (last = false → l = D ++ [n]) := by
  have hstep : ∃ follow, t.walkNames last follow D [n] = .ok l := by
    cases left with
    | zero => exact ⟨_, h⟩
    | succ left => exact ⟨_, h⟩
  obtain ⟨follow, hstep⟩ := hstep
  obtain ⟨mode, hmode, ⟨hnil, -⟩ | ⟨-, hx, ⟨hhere, -⟩ | ⟨hup, -⟩ | ⟨-, -, hlen, hend⟩⟩⟩ := walkNames_cons_ok.1 hstep
  · exact absurd hnil hn.ne_nil
  · exact absurd hhere hn.ne_here
  · exact absurd hup hn.ne_up
  · refine ⟨mode, hmode, hx, hlen, fun hlast => ?_⟩
    obtain ⟨-, -, ⟨-, -, hl⟩ | ⟨hno, -⟩⟩ | ⟨-, hl⟩ := hend
    · exact hl
    · exact absurd ⟨rfl, hlast⟩ hno
    · exact (Except.ok.inj hl).symm

/-- A name that leads on from a directory leads on from there in every tree with the same directory, unless it is that
of a link that is followed. -/
theorem resolve_join_again {t' : FileTree} {last' : Bool} {d l : Location} {base name : String}
    (hn : (FileName.ofText name).Proper) (hd : t.resolve true d base = .ok D) (hd' : t'.resolve true d base = .ok D)
    (hsame : t'.entry? D = t.entry? D) (h : t.resolve last d (Path.join base name) = .ok l)
    (hlink : last' = true → ∀ target, t'.entry? (D ++ [FileName.ofText name]) ≠ some (.link target)) :
    t'.resolve last' d (Path.join base name) = .ok (D ++ [FileName.ofText name]) := by
  have hc := checkPath_of_resolve h
  obtain ⟨left, hleft⟩ := resolve_join_eq last hn hd hc
  obtain ⟨mode, hmode, hx, hlen, -⟩ := walk_name_ok hn (hleft.symm.trans h)
  exact resolve_join hn hlen hd' (hsame.trans hmode) hx hc hlink

/-- A path and a name lead by way of a directory where the path leads. -/
theorem resolve_join_ok {d l : Location} {base name : String} (hbase : Path.EndsInName base)
    (hn : (FileName.ofText name).Proper) (h : t.resolve last d (Path.join base name) = .ok l) :
    ∃ D mode, t.resolve true d base = .ok D ∧ t.entry? D = some (.directory mode) ∧
      (Entry.directory mode).grants .execute = true ∧ (FileName.ofText name).length ≤ nameLimit ∧
      (last = false → l = D ++ [FileName.ofText name]) := by
  have hwalk := resolve_eq_walk h
  rw [hbase.rawNames_join hn.slash_notMem, Path.isAbsolute_join base hn.slash_notMem] at hwalk
  obtain ⟨D, left, hD, hleft⟩ := walk_split last (List.cons_ne_nil _ []) _ _ _ _ hwalk
  have hbase' : t.resolve true d base = .ok D := by
    unfold resolve
    simp only [checkPath_of_join hbase hn.slash_notMem (checkPath_of_resolve h), bind, Except.bind]
    exact hD
  obtain ⟨mode, hmode, hx, hlen, hend⟩ := walk_name_ok hn hleft
  exact ⟨D, mode, hbase', hmode, hx, hlen, hend⟩

/-- Nothing is found in a directory that is not there. -/
theorem pathExists_join_of_missing {d : Location} {base name : String} (hn : (FileName.ofText name).Proper)
    (hd : t.resolve true d base = .ok D) (hmissing : t.entry? D = none) :
    t.pathExists d (Path.join base name) = false := by
  have hfault : ∃ f, t.resolve true d (Path.join base name) = .error f := by
    cases hc : checkPath (RawPath.ofText (Path.join base name)) with
    | error f => exact ⟨f, by simp [resolve, hc, bind, Except.bind]⟩
    | ok =>
      obtain ⟨left, hleft⟩ := resolve_join_eq true hn hd hc
      rw [hleft]
      refine ⟨.notFound, ?_⟩
      cases left <;> simp [walk, walkNames, hmissing]
  obtain ⟨f, hf⟩ := hfault
  simp [pathExists, status, hf, bind, Except.bind, Except.toOption]

end Joined

end ImageRecipe.FileTree
