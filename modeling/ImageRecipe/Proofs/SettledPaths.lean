import Mathlib.Data.List.Infix
import ImageRecipe.Proofs.Walk

/-! Where paths lead by their names alone: names that stand for nothing are passed over, and to go up is to drop the
last name. As long as no link is met the files are walked through in the same way. -/

namespace ImageRecipe

namespace Location

/-- The place that a name leads to from a place. -/
def enter (here : Location) (n : FileName) : Location :=
  if n = [] ∨ n = FileName.here then here
  else if n = FileName.up then here.dropLast
  else here ++ [n]

/-- The place that names lead to from a place, one after the other. -/
def follow (here : Location) (ns : List FileName) : Location := ns.foldl enter here

/-- The same, as long as no name leads up from the place that is counted from. -/
def followWithin (here : Location) (ns : List FileName) : Option Location :=
  ns.foldlM (fun here n => if n = FileName.up ∧ here = [] then none else some (enter here n)) here

@[simp] theorem follow_nil (here : Location) : follow here [] = here := rfl

@[simp] theorem follow_cons (here : Location) (n : FileName) (ns : List FileName) :
    follow here (n :: ns) = follow (enter here n) ns := rfl

@[simp] theorem follow_append (here : Location) (ms ns : List FileName) :
    follow here (ms ++ ns) = follow (follow here ms) ns := List.foldl_append

@[simp] theorem enter_nil (here : Location) : enter here [] = here := by simp [enter]

theorem enter_up (here : Location) : enter here FileName.up = here.dropLast := by
  have hup : ¬ (FileName.up = [] ∨ FileName.up = FileName.here) := by decide
  rw [enter, if_neg hup, if_pos rfl]

theorem enter_proper {n : FileName} (hn : n.Proper) (here : Location) : enter here n = here ++ [n] := by
  rw [enter, if_neg (not_or.2 ⟨hn.ne_nil, hn.ne_here⟩), if_neg hn.ne_up]

theorem mem_enter {n m : FileName} {here : Location} (h : m ∈ enter here n) : m ∈ here ∨ m = n := by
  unfold enter at h
  split at h
  · exact .inl h
  · split at h
    · exact .inl (List.dropLast_subset _ h)
    · simpa using h

theorem length_enter_le (here : Location) (n : FileName) : (enter here n).length ≤ here.length + 1 := by
  unfold enter
  split
  · exact Nat.le_succ _
  · split
    · exact (List.dropLast_sublist _).length_le.trans (Nat.le_succ _)
    · exact (List.length_append ..).le

/-- The names of a place that is followed to were there or were followed. -/
theorem mem_follow {m : FileName} {ns : List FileName} : ∀ {here : Location}, m ∈ follow here ns →
    m ∈ here ∨ m ∈ ns := by
  induction ns with
  | nil => exact fun h => .inl h
  | cons n ns ih =>
    intro here h
    rcases ih h with h | h
    · rcases mem_enter h with h | rfl
      · exact .inl h
      · exact .inr List.mem_cons_self
    · exact .inr (.tail _ h)

theorem followWithin_cons (here : Location) (n : FileName) (ns : List FileName) : followWithin here (n :: ns) =
    if n = FileName.up ∧ here = [] then none else followWithin (enter here n) ns := by
  unfold followWithin
  rw [List.foldlM_cons]
  split <;> rfl

@[simp] theorem followWithin_nil (here : Location) : followWithin here [] = some here := rfl

theorem followWithin_proper {ns : List FileName} (hn : ∀ n ∈ ns, n.Proper) : ∀ here : Location,
    followWithin here ns = some (here ++ ns) := by
  induction ns with
  | nil => simp
  | cons n ns ih =>
    intro here
    have hproper := hn n List.mem_cons_self
    rw [followWithin_cons, if_neg fun h => hproper.ne_up h.1, enter_proper hproper, ih fun m hm => hn m (.tail _ hm),
      List.append_assoc, List.singleton_append]

/-- Names that never lead up from where they are counted from lead from there in the same way below every place. -/
theorem follow_of_followWithin {ns : List FileName} (outer : Location) : ∀ {here l : Location},
    followWithin here ns = some l → follow (outer ++ here) ns = outer ++ l := by
  induction ns with
  | nil =>
    intro here l h
    cases h
    rfl
  | cons n ns ih =>
    intro here l h
    rw [followWithin_cons] at h
    split at h
    · cases h
    · next hstays =>
      have henter : enter (outer ++ here) n = outer ++ enter here n := by
        unfold enter
        split
        · rfl
        · split
          · next hup => rw [List.dropLast_append_of_ne_nil fun hnil => hstays ⟨hup, hnil⟩]
          · rw [List.append_assoc]
      rw [follow_cons, henter, ih h]

/-- Names that lead up from where they are counted from leave a place behind whose name is none of them. -/
theorem notMem_follow {fresh : FileName} {ns : List FileName} (hf : fresh ∉ ns) : ∀ {here : Location},
    followWithin here ns = none → fresh ∉ here → fresh ∉ follow (fresh :: here) ns := by
  induction ns with
  | nil => exact fun h => nomatch h
  | cons n ns ih =>
    rw [List.mem_cons, not_or] at hf
    intro here h hhere
    rw [followWithin_cons] at h
    rw [follow_cons]
    split at h
    · next hleaves =>
      obtain ⟨rfl, rfl⟩ := hleaves
      rw [enter_up]
      exact fun hm => (mem_follow hm).elim (fun h => nomatch h) hf.2
    · next hstays =>
      have henter : enter (fresh :: here) n = fresh :: enter here n := by
        unfold enter
        split
        · rfl
        · split
          · next hup => rw [List.dropLast_cons_of_ne_nil fun hnil => hstays ⟨hup, hnil⟩]
          · rfl
      rw [henter]
      exact ih hf.2 h fun hm => (mem_enter hm).elim hhere hf.1

/-- A place below another one. -/
def Below (outer l : Location) : Prop := outer <+: l ∧ l ≠ outer

instance (outer l : Location) : Decidable (Below outer l) := by
  unfold Below
  infer_instance

@[simp] theorem below_append (front outer l : Location) : Below (front ++ outer) (front ++ l) ↔ Below outer l := by
  unfold Below
  rw [List.prefix_append_right_inj, ne_eq, List.append_cancel_left_eq]

theorem Below.length_lt {outer l : Location} (h : Below outer l) : outer.length < l.length :=
  lt_of_le_of_ne h.1.length_le fun heq => h.2 (h.1.eq_of_length heq).symm

/-- Names that lead from a place to one below it, without ever leading up from where the place is counted from. -/
def KeepsBelow (outer : Location) (ns : List FileName) : Prop := ∃ l, followWithin outer ns = some l ∧ Below outer l

instance (outer : Location) (ns : List FileName) : Decidable (KeepsBelow outer ns) :=
  decidable_of_iff ((followWithin outer ns).any fun l => Below outer l) (by simp [KeepsBelow, Option.any_eq_true])

theorem KeepsBelow.below {outer : Location} {ns : List FileName} (h : KeepsBelow outer ns) (front : Location) :
    Below (front ++ outer) (follow (front ++ outer) ns) := by
  obtain ⟨l, hl, hbelow⟩ := h
  rw [follow_of_followWithin front hl]
  exact (below_append ..).2 hbelow

/-- Names lead from a place to one below it, whatever the place lies in, just if they do without leading up too far. -/
theorem keepsBelow_of_below {fresh : FileName} {outer : Location} {ns : List FileName} (hf : fresh ∉ ns)
    (houter : fresh ∉ outer) (h : Below (fresh :: outer) (follow (fresh :: outer) ns)) : KeepsBelow outer ns := by
  cases hl : followWithin outer ns with
  | none => exact absurd (h.1.subset List.mem_cons_self) (notMem_follow hf hl houter)
  | some l =>
    refine ⟨l, hl, (below_append [fresh] outer l).1 ?_⟩
    rw [← follow_of_followWithin [fresh] hl]
    exact h

end Location

namespace Path

/-- The place that a path is counted from. -/
def origin (d : Location) (path : String) : Location := if RawPath.isAbsolute (RawPath.ofText path) then [] else d

/-- The place that a path leads to by its names alone, seen from a directory. -/
def settled (d : Location) (path : String) : Location := Location.follow (origin d path) (rawNames path)

theorem settled_of_isAbsolute {path : String} (h : isAbsolute path = true) (d : Location) :
    settled d path = Location.follow [] (rawNames path) := by
  rw [settled, origin, isAbsolute_ofText, if_pos h]

/-- A relative path leads on from where its base leads. -/
theorem settled_join (d : Location) (base : String) {path : String} (h : isAbsolute path = false) :
    settled d (join base path) = Location.follow (settled d base) (rawNames path) := by
  obtain ⟨front, rest, hbase, hrest, hjoin⟩ := rawNames_join_of_relative base h
  have hfront : ∀ here, Location.follow here (rawNames base) = Location.follow here front := by
    intro here
    rw [hbase, Location.follow_append]
    rcases hrest with rfl | rfl <;> simp
  rw [settled, settled, origin, origin, isAbsolute_join_of_relative base h, hjoin, Location.follow_append, hfront]

theorem settled_join_name (d : Location) (base : String) {name : String} (h : (FileName.ofText name).Proper) :
    settled d (join base name) = settled d base ++ [FileName.ofText name] := by
  have hrelative : isAbsolute name = false := isAbsolute_eq_false h.slash_notMem
  have hnames : rawNames name = [FileName.ofText name] := RawPath.names_of_slash_notMem h.slash_notMem
  rw [settled_join d base hrelative, hnames, Location.follow_cons, Location.follow_nil, Location.enter_proper h]

/-- A path that leads below the place of another one. -/
def LiesBelow (d : Location) (outer path : String) : Prop := Location.Below (settled d outer) (settled d path)

end Path

namespace FileTree

variable {t : FileTree} {last : Bool}

private theorem walkNames_free {follow : Location → List FileName → Except Fault Location} : ∀ (ns : List FileName)
    (here l : Location), (∀ ms, ms <+: ns → last = true ∨ ms ≠ ns → ∀ target,
      t.entry? (Location.follow here ms) ≠ some (.link target)) →
    t.walkNames last follow here ns = .ok l → l = Location.follow here ns := by
  intro ns
  induction ns with
  | nil =>
    intro here l _ h
    simpa [walkNames, eq_comm] using h
  | cons n ns ih =>
    intro here l hfree h
    have hrest : ∀ ms, ms <+: ns → last = true ∨ ms ≠ ns → ∀ target,
        t.entry? (Location.follow (Location.enter here n) ms) ≠ some (.link target) := fun ms hms hor target =>
      hfree (n :: ms) (List.cons_prefix_cons.2 ⟨rfl, hms⟩)
        (hor.imp_right fun hne heq => hne (List.cons.inj heq).2) target
    obtain ⟨_, -, ⟨rfl, hgo⟩ | ⟨hnil, -, ⟨rfl, hgo⟩ | ⟨rfl, hgo⟩ | ⟨hhere, hup, -, hgo⟩⟩⟩ := walkNames_cons_ok.1 h
    · exact ih _ _ hrest (by simpa using hgo)
    · exact ih _ _ hrest (by simpa [Location.enter] using hgo)
    · exact ih _ _ hrest (by simpa [Location.enter_up] using hgo)
    · have henter : Location.enter here n = here ++ [n] := by simp [Location.enter, hnil, hhere, hup]
      rw [Location.follow_cons, henter]
      rw [henter] at hrest
      rcases hgo with ⟨target, hlink, ⟨rfl, -, rfl⟩ | ⟨hgoes, -⟩⟩ | ⟨-, hgo⟩
      · rfl
      · refine absurd hlink (hrest [] List.nil_prefix ?_ target)
        rw [not_and_or, Bool.not_eq_false] at hgoes
        exact hgoes.symm.imp_right Ne.symm
      · exact ih _ _ hrest hgo

/-- No link is met on the way through the names of a path; at its end there may be one if it is not followed. -/
def LinkFree (t : FileTree) (last : Bool) (d : Location) (path : String) : Prop :=
  ∀ ns, ns <+: Path.rawNames path → last = true ∨ ns ≠ Path.rawNames path → ∀ target,
    t.entry? (Location.follow (Path.origin d path) ns) ≠ some (.link target)

instance (t : FileTree) (last : Bool) (d : Location) (path : String) : Decidable (t.LinkFree last d path) :=
  decidable_of_iff (∀ ns ∈ (Path.rawNames path).inits, last = true ∨ ns ≠ Path.rawNames path →
      (t.entry? (Location.follow (Path.origin d path) ns)).all (fun | .link _ => false | _ => true) = true) <| by
    unfold LinkFree
    simp only [List.mem_inits]
    refine forall₃_congr fun ns _ _ => ?_
    generalize t.entry? (Location.follow (Path.origin d path) ns) = e
    rcases e with _ | (_ | _ | _ | _) <;> simp

/-- Where no link is met, a path leads where its names lead. -/
theorem LinkFree.resolve_eq {d l : Location} {path : String} (hf : t.LinkFree last d path)
    (h : t.resolve last d path = .ok l) : l = Path.settled d path := by
  exact walkNames_free _ _ _ hf (show t.walkNames last (t.walk last 39) _ _ = _ from resolve_eq_walk h)

end FileTree

end ImageRecipe
