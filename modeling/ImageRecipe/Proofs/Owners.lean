import ImageRecipe.Archive.Ownership
import ImageRecipe.Proofs.TextPieces

/-! Owners as texts. Which owner a text gives, and which texts give none, is said by a grammar. It is the one that
owners are told by, a user and a group that are both numbers or both names, wherever numbers are written in digits alone
and do not exceed 64 bits, and wherever there is no second colon. -/

namespace ImageRecipe

namespace Text

/-- A text of decimal digits, one at least. -/
def IsNumeral (cs : List Char) : Prop := cs ≠ [] ∧ ∀ c ∈ cs, isDigit c = true

instance : DecidablePred IsNumeral := fun cs =>
  decidable_of_iff (cs ≠ [] ∧ cs.all isDigit = true) (by simp [IsNumeral])

/-- A number of 64 bits in decimal digits, behind a plus sign or none. -/
inductive Denotes : List Char → Nat → Prop
  | plain {ds : List Char} (h : IsNumeral ds) (hn : ofDigits ds < limit64) : Denotes ds (ofDigits ds)
  | signed {ds : List Char} (h : IsNumeral ds) (hn : ofDigits ds < limit64) : Denotes ('+' :: ds) (ofDigits ds)

variable {cs ds : List Char} {bound n : Nat}

theorem IsNumeral.notMem (h : IsNumeral cs) {c : Char} (hc : isDigit c = false) : c ∉ cs := fun hm => by
  simp [h.2 c hm] at hc

theorem IsNumeral.withoutPlus_eq (h : IsNumeral cs) : withoutPlus cs = cs := by
  unfold withoutPlus
  split
  · exact absurd List.mem_cons_self (h.notMem (by decide))
  · rfl

theorem withoutPlus_cases (cs : List Char) : withoutPlus cs = cs ∨ cs = '+' :: withoutPlus cs := by
  unfold withoutPlus
  split
  · exact .inr rfl
  · exact .inl rfl

theorem parseUnsigned_eq_some_iff :
    parseUnsigned bound cs = some n ↔ IsNumeral (withoutPlus cs) ∧ ofDigits (withoutPlus cs) < bound ∧
      ofDigits (withoutPlus cs) = n := by
  have hcond : ((withoutPlus cs).isEmpty || !(withoutPlus cs).all isDigit) = true ↔ ¬ IsNumeral (withoutPlus cs) := by
    unfold IsNumeral
    rw [not_and_or, Bool.or_eq_true, List.isEmpty_iff, not_not, Bool.not_eq_true', ← Bool.not_eq_true,
      List.all_eq_true]
  unfold parseUnsigned
  by_cases h : IsNumeral (withoutPlus cs)
  · simp [hcond, h]
  · simp [hcond, h]

theorem parseUnsigned_limit64 : parseUnsigned limit64 cs = some n ↔ Denotes cs n := by
  rw [parseUnsigned_eq_some_iff]
  constructor
  · rintro ⟨h, hn, rfl⟩
    obtain heq | heq := withoutPlus_cases cs
    · rw [heq] at h hn ⊢
      exact .plain h hn
    · rw [heq]
      exact .signed h hn
  · rintro (⟨h, hn⟩ | ⟨h, hn⟩)
    · rw [h.withoutPlus_eq]
      exact ⟨h, hn, rfl⟩
    · exact ⟨h, hn, rfl⟩

theorem parseUnsigned_limit64_eq_none : parseUnsigned limit64 cs = none ↔ ∀ n, ¬ Denotes cs n := by
  simp only [Option.eq_none_iff_forall_ne_some, ne_eq, parseUnsigned_limit64]

theorem Denotes.ne_nil (h : Denotes cs n) : cs ≠ [] := by
  cases h with
  | plain h => exact h.1
  | signed => simp

/-- Digits alone denote their value. -/
theorem Denotes.of_isNumeral (h : Denotes cs n) (hcs : IsNumeral cs) : ofDigits cs < limit64 ∧ ofDigits cs = n := by
  cases h with
  | plain _ hn => exact ⟨hn, rfl⟩
  | signed => exact absurd List.mem_cons_self (hcs.notMem (by decide))

end Text

namespace Ownership

open Text (IsNumeral Denotes ofDigits limit64)

/-- The text that is looked at: the blanks around it do not count, and where there is none it is empty. -/
def trimmed (spec : Option String) : List Char := (Text.trim (spec.getD "")).toList

/-- The user and the group of a text: what stands before and behind its first colon, or the whole of it. -/
inductive Parts : List Char → List Char → List Char → Prop
  | whole {t : List Char} (h : ':' ∉ t) : Parts t t t
  | pair {user : List Char} (h : ':' ∉ user) (group : List Char) : Parts (user ++ ':' :: group) user group

/-- What the text of an owner gives, and the texts that give none. -/
inductive Spells : List Char → Except String Ownership → Prop
  | root : Spells [] (.ok root)
  | numeric {t user group : List Char} {uid gid : Nat} (hp : Parts t user group) (hu : Denotes user uid)
      (hg : Denotes group gid) : Spells t (.ok (numeric uid gid))
  | named {t user group : List Char} (hp : Parts t user group) (hu : user ≠ []) (hg : group ≠ [])
      (hun : ∀ n, ¬ Denotes user n) (hgn : ∀ n, ¬ Denotes group n) :
      Spells t (.ok (named (String.ofList user) (String.ofList group)))
  /-- A part is missing. -/
  | lacking {t user group : List Char} (hp : Parts t user group) (ht : t ≠ []) (h : user = [] ∨ group = []) :
      Spells t (.error (String.ofList t))
  /-- One part is a number and the other is a name. -/
  | mixed {t user group : List Char} (hp : Parts t user group) (hu : user ≠ []) (hg : group ≠ [])
      (h : (∃ n, Denotes user n) ↔ ¬ ∃ n, Denotes group n) : Spells t (.error (String.ofList t))

/-- The owners that texts are told to give: numbers in digits alone, or names without a colon of which neither is in
digits alone. -/
inductive Means : List Char → Ownership → Prop
  | root : Means [] root
  | numeric {t user group : List Char} (hp : Parts t user group) (hu : IsNumeral user) (hg : IsNumeral group)
      (hun : ofDigits user < limit64) (hgn : ofDigits group < limit64) :
      Means t (numeric (ofDigits user) (ofDigits group))
  | named {t user group : List Char} (hp : Parts t user group) (hu : user ≠ []) (hg : group ≠ []) (hcolon : ':' ∉ group)
      (hun : ¬ IsNumeral user) (hgn : ¬ IsNumeral group) :
      Means t (named (String.ofList user) (String.ofList group))

/-- There is no second colon, and a part of a text is a number just when it is in digits alone: it has no plus sign in
front, and it does not exceed 64 bits. -/
def Regular (t : List Char) : Prop :=
  ∀ user group, Parts t user group →
    ':' ∉ group ∧ ((∃ n, Denotes user n) ↔ IsNumeral user) ∧ ((∃ n, Denotes group n) ↔ IsNumeral group)

variable {t user group : List Char} {spec : Option String}

theorem exists_parts (t : List Char) : ∃ user group, Parts t user group := by
  by_cases h : ':' ∈ t
  · obtain ⟨user, group, rfl, hu⟩ := List.eq_append_cons_of_mem h
    exact ⟨user, group, .pair hu group⟩
  · exact ⟨t, t, .whole h⟩

theorem Parts.cut (hp : Parts t user group) : (Text.cutFirst ':' t).getD (t, t) = (user, group) := by
  cases hp with
  | whole h => rw [Text.cutFirst_eq_none h, Option.getD_none]
  | pair h => rw [Text.cutFirst_append h, Option.getD_some]

theorem Parts.unique {user' group' : List Char} (hp : Parts t user group) (hp' : Parts t user' group') :
    user = user' ∧ group = group' := Prod.mk.inj (hp.cut.symm.trans hp'.cut)

theorem Parts.user_ne_nil (hp : Parts [] user group) : user = [] := by
  have := hp.cut
  simp only [Text.cutFirst, Option.getD_none, Prod.mk.injEq] at this
  exact this.1.symm

theorem parse_of_blank (ht : trimmed spec = []) : parse spec = .ok root := by
  unfold trimmed at ht
  unfold parse
  simp [ht]

/-- What a text gives goes by its parts. -/
theorem parse_of_parts (ht : trimmed spec = t) (hne : t ≠ []) (hp : Parts t user group) :
    parse spec =
      if user = [] ∨ group = [] then .error (String.ofList t)
      else match Text.parseUnsigned limit64 user, Text.parseUnsigned limit64 group with
        | some uid, some gid => .ok (numeric uid gid)
        | none, none => .ok (named (String.ofList user) (String.ofList group))
        | _, _ => .error (String.ofList t) := by
  have htext : Text.trim (spec.getD "") = String.ofList t := by rw [← ht, trimmed, String.ofList_toList]
  by_cases hempty : user = [] ∨ group = []
  · simp [parse, htext, hp.cut, hne, hempty]
  · cases hun : Text.parseUnsigned limit64 user <;> cases hgn : Text.parseUnsigned limit64 group <;>
      simp [parse, htext, hp.cut, hne, hempty, hun, hgn]

/-- Every text has an outcome. -/
theorem spells_parse (spec : Option String) : Spells (trimmed spec) (parse spec) := by
  generalize ht : trimmed spec = t
  by_cases hne : t = []
  · subst hne
    rw [parse_of_blank ht]
    exact .root
  obtain ⟨user, group, hp⟩ := exists_parts t
  rw [parse_of_parts ht hne hp]
  split
  · next hempty => exact .lacking hp hne hempty
  next hempty =>
  obtain ⟨hu, hg⟩ := not_or.1 hempty
  cases hun : Text.parseUnsigned limit64 user with
  | some uid =>
    have hun := Text.parseUnsigned_limit64.1 hun
    cases hgn : Text.parseUnsigned limit64 group with
    | some gid => exact .numeric hp hun (Text.parseUnsigned_limit64.1 hgn)
    | none =>
      have hgn := Text.parseUnsigned_limit64_eq_none.1 hgn
      exact .mixed hp hu hg (iff_of_true ⟨uid, hun⟩ (not_exists.2 hgn))
  | none =>
    have hun := Text.parseUnsigned_limit64_eq_none.1 hun
    cases hgn : Text.parseUnsigned limit64 group with
    | some gid =>
      have hgn := Text.parseUnsigned_limit64.1 hgn
      exact .mixed hp hu hg (iff_of_false (not_exists.2 hun) (not_not.2 ⟨gid, hgn⟩))
    | none => exact .named hp hu hg hun (Text.parseUnsigned_limit64_eq_none.1 hgn)

theorem parse_of_spells {r : Except String Ownership} (ht : trimmed spec = t) (h : Spells t r) :
    parse spec = r := by
  have hne : ∀ {user group : List Char}, Parts t user group → user ≠ [] → t ≠ [] := by
    rintro user group hp hu rfl
    exact hu hp.user_ne_nil
  have hnone : ∀ {part : List Char}, (¬ ∃ n, Denotes part n) → Text.parseUnsigned limit64 part = none := fun h =>
    Text.parseUnsigned_limit64_eq_none.2 (not_exists.1 h)
  cases h with
  | root => exact parse_of_blank ht
  | numeric hp hu hg =>
    rw [parse_of_parts ht (hne hp hu.ne_nil) hp, if_neg (not_or.2 ⟨hu.ne_nil, hg.ne_nil⟩),
      Text.parseUnsigned_limit64.2 hu, Text.parseUnsigned_limit64.2 hg]
  | named hp hu hg hun hgn =>
    rw [parse_of_parts ht (hne hp hu) hp, if_neg (not_or.2 ⟨hu, hg⟩), hnone (not_exists.2 hun),
      hnone (not_exists.2 hgn)]
  | lacking hp ht' hempty => rw [parse_of_parts ht ht' hp, if_pos hempty]
  | @mixed _ user group hp hu hg h =>
    rw [parse_of_parts ht (hne hp hu) hp, if_neg (not_or.2 ⟨hu, hg⟩)]
    by_cases hun : ∃ n, Denotes user n
    · rw [hnone (h.1 hun)]
      obtain ⟨uid, hun⟩ := hun
      rw [Text.parseUnsigned_limit64.2 hun]
    · obtain ⟨gid, hgn⟩ := not_not.1 (mt h.2 hun)
      rw [hnone hun, Text.parseUnsigned_limit64.2 hgn]

/-- The text of an owner that makes no sense is told as it is. -/
theorem Spells.error_eq {e : String} (h : Spells t (.error e)) : e = String.ofList t := by
  cases h <;> rfl

/-- Where numbers are in digits alone and there is no second colon, texts give the owners that they are told to give. -/
theorem Regular.spells_ok_iff (hr : Regular t) {o : Ownership} : Spells t (.ok o) ↔ Means t o := by
  constructor
  · intro h
    cases h with
    | root => exact .root
    | numeric hp hu hg =>
      obtain ⟨-, huser, hgroup⟩ := hr _ _ hp
      obtain ⟨hun, rfl⟩ := hu.of_isNumeral (huser.1 ⟨_, hu⟩)
      obtain ⟨hgn, rfl⟩ := hg.of_isNumeral (hgroup.1 ⟨_, hg⟩)
      exact .numeric hp (huser.1 ⟨_, hu⟩) (hgroup.1 ⟨_, hg⟩) hun hgn
    | named hp hu hg hun hgn =>
      obtain ⟨hcolon, huser, hgroup⟩ := hr _ _ hp
      exact .named hp hu hg hcolon (fun h => not_exists.2 hun (huser.2 h)) fun h => not_exists.2 hgn (hgroup.2 h)
  · intro h
    cases h with
    | root => exact .root
    | numeric hp hu hg hun hgn => exact .numeric hp (.plain hu hun) (.plain hg hgn)
    | named hp hu hg hcolon hun hgn =>
      obtain ⟨-, huser, hgroup⟩ := hr _ _ hp
      exact .named hp hu hg (fun n hn => hun (huser.1 ⟨n, hn⟩)) fun n hn => hgn (hgroup.1 ⟨n, hn⟩)

/-- A text gives what the grammar says, be it an owner or none. So a plus sign may stand in front of a number, digits
that exceed 64 bits are a name, and all that stands behind the first colon is the group. In regular texts this is what
owners are told by: root for a blank text, numbers for digits alone, names for names, and none in every other case. -/
theorem parse_iff (spec : Option String) :
    (∀ r, parse spec = r ↔ Spells (trimmed spec) r) ∧
      (Regular (trimmed spec) → (∀ o, parse spec = .ok o ↔ Means (trimmed spec) o) ∧
        ∀ e, parse spec = .error e ↔ e = String.ofList (trimmed spec) ∧ ∀ o, ¬ Means (trimmed spec) o) := by
  have hspells : ∀ r, parse spec = r ↔ Spells (trimmed spec) r := fun r =>
    ⟨fun h => h ▸ spells_parse spec, parse_of_spells rfl⟩
  refine ⟨hspells, fun hr => ?_⟩
  have hmeans : ∀ o, parse spec = .ok o ↔ Means (trimmed spec) o := fun o => (hspells _).trans hr.spells_ok_iff
  refine ⟨hmeans, fun e => ⟨fun h => ⟨((hspells _).1 h).error_eq, fun o ho => ?_⟩, ?_⟩⟩
  · rw [(hmeans o).2 ho] at h
    cases h
  · rintro ⟨rfl, hno⟩
    cases hparse : parse spec with
    | ok o => exact absurd ((hmeans o).1 hparse) (hno o)
    | error e => rw [((hspells _).1 hparse).error_eq]

theorem regular_of_parts (hp : Parts t user group) (hcolon : ':' ∉ group)
    (hu : (∃ n, Denotes user n) ↔ IsNumeral user) (hg : (∃ n, Denotes group n) ↔ IsNumeral group) : Regular t := by
  intro user' group' hp'
  obtain ⟨rfl, rfl⟩ := hp.unique hp'
  exact ⟨hcolon, hu, hg⟩

/-- Names are taken as they are told. A number behind a plus sign is one, digits beyond 64 bits are a name, and so is
what has a second colon. -/
theorem parse_iff_sample :
    (Regular (trimmed (some " app:staff ")) ∧ parse (some " app:staff ") = .ok (named "app" "staff")) ∧
      parse (some "+5") = .ok (numeric 5 5) ∧
      parse (some "18446744073709551616") = .ok (named "18446744073709551616" "18446744073709551616") ∧
      parse (some "app:staff:wheel") = .ok (named "app" "staff:wheel") := by
  have hname : ∀ name : String, Text.parseUnsigned limit64 name.toList = none → ∀ n, ¬ Denotes name.toList n :=
    fun _ => Text.parseUnsigned_limit64_eq_none.1
  have happ : ':' ∉ "app".toList := by decide
  have hparts : Parts (trimmed (some " app:staff ")) "app".toList "staff".toList := .pair happ _
  have hregular : Regular (trimmed (some " app:staff ")) :=
    regular_of_parts hparts (by decide) (iff_of_false (not_exists.2 (hname "app" (by decide))) (by decide))
      (iff_of_false (not_exists.2 (hname "staff" (by decide))) (by decide))
  refine ⟨⟨hregular, ?_⟩, ?_, ?_, ?_⟩
  · refine (((parse_iff (some " app:staff ")).2 hregular).1 _).2 ?_
    exact .named hparts (by decide) (by decide) (by decide) (by decide) (by decide)
  · have hfive : Denotes "+5".toList 5 := Text.parseUnsigned_limit64.1 (by decide)
    exact ((parse_iff (some "+5")).1 _).2 (.numeric (.whole (by decide)) hfive hfive)
  · exact ((parse_iff (some "18446744073709551616")).1 _).2
      (.named (.whole (by decide)) (by decide) (by decide) (hname "18446744073709551616" (by decide))
        (hname "18446744073709551616" (by decide)))
  · have hpair : Parts "app:staff:wheel".toList "app".toList "staff:wheel".toList := .pair happ _
    exact ((parse_iff (some "app:staff:wheel")).1 _).2
      (.named hpair (by decide) (by decide) (hname "app" (by decide)) (hname "staff:wheel" (by decide)))

end Ownership

end ImageRecipe
