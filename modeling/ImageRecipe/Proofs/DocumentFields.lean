import Mathlib.Data.List.Nodup
import ImageRecipe.Document.Fields
import ImageRecipe.Proofs.JsonRoundTrip

/-! What is read from the table that a record is written as: each of its fields, be it written always or left out when
it has no value. -/

namespace ImageRecipe

theorem Text.lt_limit64 {n : Nat} (h : n < limit32) : n < limit64 := Nat.lt_trans h (by decide)

namespace Document

mutual

/-- Every part of a document that comes back from its text can be read. -/
theorem readable_of_exact : ∀ {room : Nat} {d : Document}, d.Exact room → d.readable = true
  | _, .null, _ | _, .bool _, _ | _, .text _, _ | _, .int _, _ => by rw [readable] <;> nofun
  | room + 1, .list items, h => by
    rw [readable]
    exact readableItems_of_exact (by simpa only [Exact] using h)
  | room + 1, .table fields, h => by
    rw [readable]
    exact readableFields_of_exact (by simpa only [Exact] using h)

theorem readableItems_of_exact : ∀ {room : Nat} {l : List Document}, ExactItems room l → readableItems l = true
  | _, [], _ => by rw [readableItems]
  | _, d :: l, h => by
    rw [ExactItems] at h
    rw [readableItems, readable_of_exact h.1, readableItems_of_exact h.2, Bool.and_self]

theorem readableFields_of_exact : ∀ {room : Nat} {l : List (String × Document)}, ExactFields room l →
    readableFields l = true
  | _, [], _ => by rw [readableFields]
  | _, (_, d) :: l, h => by
    rw [ExactFields] at h
    rw [readableFields, readable_of_exact h.1, readableFields_of_exact h.2, Bool.and_self]

end

/-! ### Fields -/

section Fields

variable {names : List String} {entries : List (String × Option Document)} {n : String}

/-- The fields of a record that have a value, each with its name. -/
def present (entries : List (String × Option Document)) : List (String × Document) :=
  entries.filterMap fun e => e.2.map (e.1, ·)

/-- What a table gives for a field that has a value or has none. -/
def found : Option Document → Field
  | some d => .given d
  | none => .absent

@[simp] theorem found_some (d : Document) : found (some d) = .given d := rfl

@[simp] theorem present_nil : present [] = [] := rfl

@[simp] theorem present_some (d : Document) : present ((n, some d) :: entries) = (n, d) :: present entries := rfl

@[simp] theorem present_map {α : Type} (write : α → Document) (o : Option α) :
    present ((n, o.map write) :: entries) = optionalField n write o ++ present entries := by
  cases o <;> rfl

theorem map_fst_present : ((present entries).map Prod.fst).Sublist (entries.map Prod.fst) := by
  induction entries with
  | nil => exact .slnil
  | cons e entries ih =>
    obtain ⟨k, _ | d⟩ := e
    · exact ih.cons k
    · exact ih.cons_cons k

private theorem occurrences_le {fields : List (String × Document)} (h : (fields.map Prod.fst).Nodup) :
    occurrences n fields ≤ 1 := by
  have hcount := List.nodup_iff_count_le_one.1 h n
  rw [List.count_eq_length_filter, List.filter_map, List.length_map] at hcount
  exact hcount

/-- Under its name there is the value of a field and no other. -/
private theorem lookup_present (h : (entries.map Prod.fst).Nodup) {e : String × Option Document} (he : e ∈ entries) :
    (present entries).lookup e.1 = e.2 := by
  induction entries with
  | nil => cases he
  | cons f entries ih =>
    obtain ⟨k, o⟩ := f
    rw [List.map_cons, List.nodup_cons] at h
    rcases List.mem_cons.1 he with rfl | hmem
    · cases o with
      | none =>
        refine List.lookup_eq_none_iff.2 fun f hf => ?_
        have hin : f.1 ∈ entries.map Prod.fst := map_fst_present.subset (List.mem_map_of_mem hf)
        have hne : k ≠ f.1 := fun heq => h.1 (heq ▸ hin)
        simpa using hne
      | some d => simp
    · have hin : e.1 ∈ entries.map Prod.fst := List.mem_map_of_mem hmem
      have hne : e.1 ≠ k := fun heq => h.1 (heq ▸ hin)
      cases o with
      | none => exact ih h.2 hmem
      | some d =>
        rw [present_some, List.lookup_cons, beq_false_of_ne hne]
        exact ih h.2 hmem

/-- The table of a record gives its fields. -/
theorem fields?_present (format : Format) (closed : Bool) (hn : entries.map Prod.fst = names) (h : names.Nodup) :
    (Document.table (present entries)).fields? format closed names = some (entries.map fun e => found e.2) := by
  subst hn
  have hnames : ∀ f ∈ present entries, f.1 ∈ entries.map Prod.fst := fun f hf =>
    map_fst_present.subset (List.mem_map_of_mem hf)
  unfold Document.fields?
  dsimp only
  rw [if_neg, if_neg]
  · rw [List.map_map]
    congr 1
    refine List.map_congr_left fun e he => ?_
    rw [Function.comp_apply, lookup_present h he]
    rfl
  · simpa using fun _ => hnames
  · simp only [List.any_eq_true, decide_eq_true_eq, not_exists, not_and, Nat.not_lt]
    exact fun n _ => occurrences_le (h.sublist map_fst_present)

/-- A table with exactly the fields of a record, each of them once, gives all of them. -/
theorem fields?_table (format : Format) (closed : Bool) {fields : List (String × Document)}
    (h : (fields.map Prod.fst).Nodup) :
    (Document.table fields).fields? format closed (fields.map Prod.fst) = some (fields.map fun f => .given f.2) := by
  have hpresent : present (fields.map fun f => (f.1, some f.2)) = fields := by
    simp [present, List.filterMap_map]
  have hnames : (fields.map fun f => (f.1, some f.2)).map Prod.fst = fields.map Prod.fst := by
    rw [List.map_map]
    rfl
  have hfields := fields?_present format closed hnames h
  rw [hpresent, List.map_map] at hfields
  exact hfields

end Fields

/-! ### Values -/

section Reading

variable {α : Type} {write : α → Document} {read : Document → Option α} {room : Nat}

theorem exactItems_map {l : List α} (h : ∀ a ∈ l, (write a).Exact room) : ExactItems room (l.map write) := by
  induction l with
  | nil => trivial
  | cons a l ih => exact ⟨h a List.mem_cons_self, ih fun b hb => h b (.tail _ hb)⟩

theorem exactFields_present {entries : List (String × Option Document)} (h : ∀ e ∈ entries, ∀ d ∈ e.2, d.Exact room) :
    ExactFields room (present entries) := by
  induction entries with
  | nil => trivial
  | cons e entries ih =>
    obtain ⟨he, hentries⟩ := List.forall_mem_cons.1 h
    obtain ⟨k, _ | d⟩ := e
    · exact ih hentries
    · exact ⟨he d rfl, ih hentries⟩

theorem exact_ofOption {o : Option α} (h : ∀ a ∈ o, (write a).Exact room) : (ofOption write o).Exact room := by
  cases o with
  | none => simp [ofOption, Exact]
  | some a => exact h a rfl

theorem exact_ofNat {n : Nat} (h : n < Text.limit64) : (ofNat n).Exact room := by
  unfold Text.limit64 at h
  unfold ofNat
  rw [Exact, Json.IsInt64, Int.ofNat_eq_natCast]
  omega

/-- A list comes back if each of its items does. -/
theorem list?_map {l : List α} (h : ∀ a ∈ l, read (write a) = some a) :
    list? read (.list (l.map write)) = some l := by
  unfold list?
  dsimp only
  induction l with
  | nil => rfl
  | cons a l ih =>
    rw [List.map_cons, List.mapM_cons, h a List.mem_cons_self, ih fun b hb => h b (.tail _ hb)]
    rfl

theorem texts?_ofTexts (l : List String) : texts? (ofTexts l) = some l := list?_map fun _ _ => rfl

theorem exact_ofTexts (l : List String) : (ofTexts l).Exact (room + 1) := by
  rw [ofTexts, Exact]
  exact exactItems_map fun _ _ => by simp [Exact]

/-- Each item of a list that is read is read from a document. -/
theorem exists_of_list? {d : Document} {l : List α} (h : list? read d = some l) : ∀ a ∈ l, ∃ d, read d = some a := by
  unfold list? at h
  split at h
  · next items =>
    induction items generalizing l with
    | nil =>
      cases h
      exact nofun
    | cons item items ih =>
      rw [List.mapM_cons] at h
      obtain ⟨a, ha, h⟩ := Option.bind_eq_some_iff.1 h
      obtain ⟨as, has, h⟩ := Option.bind_eq_some_iff.1 h
      cases h
      exact List.forall_mem_cons.2 ⟨⟨item, ha⟩, ih has⟩
  · cases h

/-- A value that may be missing comes back if it is not written as null. -/
theorem optional_ofOption {o : Option α} (hn : ∀ a, write a ≠ .null) (h : ∀ a ∈ o, read (write a) = some a) :
    Field.optional read (.given (ofOption write o)) = some o := by
  cases o with
  | none => rfl
  | some a =>
    change Field.optional read (.given (write a)) = some (some a)
    rw [Field.optional.eq_def]
    split
    · next heq => exact absurd (Field.given.inj heq) (hn a)
    · next heq => rw [← Field.given.inj heq, h a rfl]; rfl
    · next heq => cases heq
    · next heq => cases heq

/-- A value that is left out when there is none comes back if it is not written as null. -/
theorem omissible_found {o : Option α} (hn : ∀ a, write a ≠ .null) (h : ∀ a ∈ o, read (write a) = some a) :
    Field.omissible read (found (o.map write)) = some o := by
  cases o with
  | none => rfl
  | some a =>
    change Field.omissible read (.given (write a)) = some (some a)
    rw [Field.omissible.eq_def]
    split
    · next heq => exact absurd (Field.given.inj heq) (hn a)
    · next heq => rw [← Field.given.inj heq, h a rfl]; rfl
    · next hno => exact (hno _ rfl).elim

theorem omissible_text (o : Option String) : Field.omissible text? (found (o.map .text)) = some o :=
  omissible_found (fun _ => by simp) fun _ _ => rfl

/-- A table with exactly the fields of a record gives all of them. -/
theorem fields?_named {format : Format} {closed : Bool} {names : List String} {fields : List (String × Document)}
    (hn : fields.map Prod.fst = names) (h : names.Nodup) :
    (Document.table fields).fields? format closed names = some (fields.map fun f => .given f.2) := by
  subst hn
  exact fields?_table format closed h

theorem optional_text (o : Option String) : Field.optional text? (.given (ofOption .text o)) = some o :=
  optional_ofOption (fun _ => by simp) fun _ _ => rfl

theorem nat?_ofNat {bound n : Nat} (h : n < bound) : nat? bound (ofNat n) = some n := if_pos h

/-! Numbers that are read are below their bound. -/

theorem lt_of_nat? {bound n : Nat} {d : Document} (h : nat? bound d = some n) : n < bound := by
  unfold nat? at h
  split at h
  · split at h
    · next hlt => exact Option.some.inj h ▸ hlt
    · cases h
  · cases h

theorem lt_of_required {bound n : Nat} {f : Field} (h : f.required (nat? bound) = some n) : n < bound := by
  cases f with
  | given d => exact lt_of_nat? h
  | _ => cases h

theorem lt_of_omissible {bound : Nat} {f : Field} {o : Option Nat} (h : f.omissible (nat? bound) = some o) :
    ∀ n ∈ o, n < bound := by
  unfold Field.omissible at h
  split at h
  · cases h
    exact nofun
  · obtain ⟨m, hm, rfl⟩ := Option.map_eq_some_iff.1 h
    rintro _ ⟨⟩
    exact lt_of_nat? hm
  · cases h
    exact nofun

/-- The tag of a variant that is written in front of its fields. -/
theorem tagged?_table (room : Nat) (nested : Bool) {tag name : String} {names : List String}
    {fields : List (String × Document)} (hname : name ∈ names) (htag : tag ∉ fields.map Prod.fst) (h : ExactFields room fields) :
    tagged? nested tag names (.table ((tag, .text name) :: fields)) = some (name, .table fields) := by
  have hreadable : (Document.table ((tag, .text name) :: fields)).readable = true := by
    rw [readable, readableFields, readableFields_of_exact h]
    rfl
  have hother : ∀ f ∈ fields, f.1 ≠ tag := fun f hf heq => htag (heq ▸ List.mem_map_of_mem hf)
  have hoccurrences : occurrences tag ((tag, .text name) :: fields) = 1 := by
    unfold occurrences
    rw [List.filter_cons_of_pos (by simp), List.filter_eq_nil_iff.2 (by simpa using hother)]
    rfl
  have hrest : ((tag, .text name) :: fields).filter (fun f => f.1 != tag) = fields := by
    rw [List.filter_cons_of_neg (by simp), List.filter_eq_self.2 (by simpa using hother)]
  unfold tagged?
  rw [hreadable]
  simp [hoccurrences, hrest, tagName?, hname]

end Reading

end Document

end ImageRecipe
