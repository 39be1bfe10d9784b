import ImageRecipe.Proofs.BuildFileReader
import ImageRecipe.Proofs.DaemonPlans

/-! The fields of a directive and the line that its text is. A text that keeps to one line may be put together from
fixed words, which do, and fields, which need not: nothing escapes a line feed in a field or a backslash at its
end. -/

namespace ImageRecipe

namespace Text

variable {last : Bool} {s t words : String}

theorem keepsLine_append (h : keepsLine true words = true) : keepsLine last (words ++ t) = keepsLine last t := by
  unfold keepsLine at h
  rw [keepsLineFrom_true, Bool.and_eq_true, Bool.not_eq_true'] at h
  simp only [keepsLine, String.toList_append, keepsLineFrom_append, h.1, h.2, Bool.true_and]

/-- Words that keep to a line part what is before them from what follows them. -/
theorem keepsLine_append_append (h : keepsLine true words = true) (hne : words ≠ "") :
    keepsLine last (s ++ (words ++ t)) = (keepsLine false s && keepsLine last t) := by
  rw [← keepsLine_append (t := t) h]
  simp only [keepsLine, String.toList_append, keepsLineFrom_append _ _ s.toList]
  -- the words begin with no line feed, so that a backslash in front of them makes no difference
  cases hw : words.toList with
  | nil => exact absurd (String.toList_eq_nil_iff.1 hw) hne
  | cons c r =>
    simp only [keepsLine, hw, keepsLineFrom, Bool.false_or, Bool.and_eq_true] at h
    simp [keepsLineFrom, h.1]

theorem keepsLine_append_words (h : keepsLine true words = true) (hne : words ≠ "") :
    keepsLine last (s ++ words) = keepsLine false s := by
  have hempty : keepsLine last "" = true := by simp [keepsLine, keepsLineFrom]
  simpa [hempty] using @keepsLine_append_append last s "" words h hne

theorem keepsLineFrom_of_forall {cs : List Char} (h : ∀ c ∈ cs, c ≠ '\n' ∧ c ≠ '\\') :
    keepsLineFrom last false cs = true := by
  induction cs with
  | nil => simp [keepsLineFrom]
  | cons c r ih =>
    obtain ⟨hn, hb⟩ := h c List.mem_cons_self
    have hbeq : (c == '\\') = false := by simpa using hb
    simp [keepsLineFrom, hn, hbeq, ih fun d hd => h d (.tail c hd)]

@[simp] theorem keepsLine_decimal (n : Nat) : keepsLine last (decimal n) = true := by
  unfold keepsLine decimal
  rw [String.toList_ofList]
  refine keepsLineFrom_of_forall fun c hc => ?_
  have hdigit := Nat.isDigit_of_mem_toDigits (by decide) (by decide) hc
  constructor <;> (rintro rfl; revert hdigit; decide)

/-- Backslashes and quotes are escaped, line feeds are not. -/
theorem keepsLineFrom_flatMap_escapeEnv : ∀ {cs : List Char} {escaped : Bool},
    keepsLineFrom last escaped (cs.flatMap escapeEnv) = keepsLineFrom last escaped cs
  | [], _ => rfl
  | c :: r, escaped => by
    have ih := @keepsLineFrom_flatMap_escapeEnv r (c == '\\')
    rw [List.flatMap_cons]
    by_cases hb : c = '\\'
    · subst hb
      simpa [escapeEnv, keepsLineFrom] using ih
    · by_cases hq : c = '\x22'
      · subst hq
        simpa [escapeEnv, keepsLineFrom] using ih
      · simp [escapeEnv, keepsLineFrom, hb, hq, ← ih]

theorem keepsLine_of_needsQuotes {value : String} (h : needsQuotes value = false) :
    keepsLine last value = true := by
  simp only [needsQuotes, Bool.or_eq_false_iff, List.any_eq_false] at h
  refine keepsLineFrom_of_forall fun c hc => ?_
  have hplain := h.2 c hc
  constructor <;> (rintro rfl; revert hplain; decide)

theorem keepsLine_false_of_keepsLine (h : keepsLine last s = true) : keepsLine false s = true := by
  cases last with
  | false => exact h
  | true =>
    unfold keepsLine at h
    rw [keepsLineFrom_true, Bool.and_eq_true] at h
    exact h.1

/-- Texts with words between them keep to one line if each does, and the last as it has to. -/
theorem keepsLine_intercalate (h : keepsLine true words = true) (hne : words ≠ "") :
    ∀ texts : List String, keepsLine last (words.intercalate texts) =
      (texts.all (keepsLine false) && texts.getLast?.all (keepsLine last))
  | [] => by simp [keepsLine, keepsLineFrom]
  | [s] => by
    rw [String.intercalate_singleton, Bool.eq_iff_iff]
    simpa using keepsLine_false_of_keepsLine
  | s :: t :: r => by
    rw [String.intercalate_cons_cons, String.append_assoc, keepsLine_append_append h hne,
      keepsLine_intercalate h hne (t :: r)]
    simp [Bool.and_assoc]

theorem keepsLine_false_intercalate (h : keepsLine true words = true) (hne : words ≠ "") (texts : List String) :
    keepsLine false (words.intercalate texts) = texts.all (keepsLine false) := by
  rw [keepsLine_intercalate h hne, Bool.eq_iff_iff, Bool.and_eq_true, List.all_eq_true]
  refine ⟨And.left, fun hall => ⟨hall, ?_⟩⟩
  cases hlast : texts.getLast? with
  | none => rfl
  | some s => exact hall s (List.mem_of_getLast? hlast)

end Text

open Text

namespace Directive

/-- The text of a directive without the comment in front. -/
def statement : Directive → String
  | builtBase _ tag => "FROM " ++ tag
  | d => d.render

/-- The comment in front of a directive. -/
def comment? : Directive → Option String
  | builtBase project _ => some project
  | _ => none

/-- Whether no field of a directive ends its line before the directive does, or goes on after it. -/
def isWhole : Directive → Bool
  | base image version digest =>
    keepsLine false image && match digest with
      | some d => if d.isEmpty then keepsLine true version else keepsLine false version && keepsLine true d
      | none => keepsLine true version
  | builtBase project tag => BuildFile.staysComment project.toList && keepsLine true tag
  | copy _ owner => owner.all (keepsLine false)
  | run commands mounts =>
    mounts.all (fun m => keepsLine false m.target && keepsLine false m.source) &&
      commands.all (keepsLine false) && commands.getLast?.all (keepsLine true)
  | user name => keepsLine true name
  | env key value => keepsLine false key && keepsLine false value
  | healthCheck h =>
    h.interval.all (keepsLine false) && h.timeout.all (keepsLine false) && h.startPeriod.all (keepsLine false) &&
      keepsLine true h.command
  | createUser name _ group _ => keepsLine false name && keepsLine false group

variable {last : Bool}

theorem keepsLine_flag (m : Mount) :
    keepsLine last m.flag = (keepsLine false m.target && keepsLine last m.source) := by
  unfold Mount.flag
  simp only [String.append_assoc]
  rw [keepsLine_append (by decide)]
  split <;> rw [keepsLine_append (by decide), keepsLine_append (by decide),
    keepsLine_append_append (by decide) (by decide)]

theorem keepsLine_flagText_append {name : String} {value : Option String} {t : String}
    (hname : keepsLine true name = true) :
    keepsLine last (flagText name value ++ t) = (value.all (keepsLine false) && keepsLine last t) := by
  cases value with
  | none => simp [flagText]
  | some v =>
    simp only [flagText, String.append_assoc, Option.all_some]
    rw [keepsLine_append (by decide), keepsLine_append hname, keepsLine_append (by decide),
      keepsLine_append_append (by decide) (by decide)]

@[simp] theorem keepsLine_layerSource (layer : Nat) : keepsLine last (layerSource layer) = true := by
  unfold layerSource
  rw [keepsLine_append (by decide), keepsLine_decimal]

theorem keepsLine_imageReference (image version : String) (digest : Option String) :
    keepsLine last (imageReference image version digest) = (keepsLine false image && match digest with
      | some d => if d.isEmpty then keepsLine last version else keepsLine false version && keepsLine last d
      | none => keepsLine last version) := by
  unfold imageReference
  cases digest with
  | none => simp (disch := decide) only [String.append_assoc, keepsLine_append_append]
  | some d => by_cases hd : d = "" <;> simp (disch := decide) [hd, String.append_assoc, keepsLine_append_append]

theorem keepsLine_render_copy (layer : Nat) (owner : Option String) :
    keepsLine true (copy layer owner).render = owner.all (keepsLine false) := by
  have hlayer : keepsLine true ("COPY " ++ (layerSource layer ++ " /")) = true := by
    rw [keepsLine_append (by decide), keepsLine_append_words (by decide) (by decide), keepsLine_layerSource]
  cases owner with
  | none =>
    dsimp only [render]
    rwa [String.append_assoc]
  | some o =>
    dsimp only [render]
    by_cases ho : o = ""
    · subst ho
      rwa [if_pos (String.isEmpty_iff.2 rfl), String.append_assoc]
    · simp (disch := decide) [ho, String.append_assoc, keepsLine_append, keepsLine_append_append,
        keepsLine_append_words]

theorem keepsLine_render_run (commands : List String) (mounts : List Mount) :
    keepsLine true (run commands mounts).render =
      (mounts.all (fun m => keepsLine false m.target && keepsLine false m.source) &&
        (commands.all (keepsLine false) && commands.getLast?.all (keepsLine true))) := by
  have hcommands : keepsLine true (chain commands) =
      (commands.all (keepsLine false) && commands.getLast?.all (keepsLine true)) :=
    keepsLine_intercalate (by decide) (by decide) commands
  have hflags : keepsLine false (" ".intercalate (mounts.map Mount.flag)) =
      mounts.all fun m => keepsLine false m.target && keepsLine false m.source := by
    rw [keepsLine_false_intercalate (by decide) (by decide), List.all_map]
    exact congrArg mounts.all (funext keepsLine_flag)
  dsimp only [render]
  rw [← hcommands]
  cases hm : mounts.isEmpty with
  | true =>
    rw [if_pos rfl, keepsLine_append (by decide), List.isEmpty_iff.1 hm, List.all_nil, Bool.true_and]
  | false =>
    rw [if_neg nofun, ← hflags]
    simp (disch := decide) only [String.append_assoc, keepsLine_append, keepsLine_append_append]

theorem keepsLine_render_env (key value : String) :
    keepsLine true (env key value).render = (keepsLine false key && keepsLine false value) := by
  have hescaped : keepsLine false (String.ofList (value.toList.flatMap escapeEnv)) = keepsLine false value := by
    simp only [keepsLine, String.toList_ofList, keepsLineFrom_flatMap_escapeEnv]
  dsimp only [render]
  cases hq : needsQuotes value with
  | true =>
    rw [if_pos rfl, ← hescaped]
    simp (disch := decide) only [String.append_assoc, keepsLine_append, keepsLine_append_append,
      keepsLine_append_words]
  | false =>
    have hplain : ∀ last, keepsLine last value = true := fun _ => keepsLine_of_needsQuotes hq
    rw [if_neg nofun]
    simp (disch := decide) only [String.append_assoc, keepsLine_append, keepsLine_append_append, hplain]

theorem keepsLine_render_healthCheck (h : HealthCheck) :
    keepsLine true (healthCheck h).render = (h.interval.all (keepsLine false) && (h.timeout.all (keepsLine false) &&
      (h.startPeriod.all (keepsLine false) && keepsLine true h.command))) := by
  have hretries : (h.retries.map decimal).all (keepsLine false) = true := by cases h.retries <;> simp
  dsimp only [render]
  simp (disch := decide) only [String.append_assoc, keepsLine_append, keepsLine_flagText_append, hretries,
    Bool.true_and]

theorem keepsLine_render_createUser (name : String) (uid : Nat) (group : String) (gid : Nat) :
    keepsLine true (createUser name uid group gid).render = (keepsLine false name && keepsLine false group) := by
  dsimp only [render]
  simp (disch := decide) only [String.append_assoc, keepsLine_append, keepsLine_append_append, keepsLine_decimal]
  -- either name stands in the text more than once
  cases keepsLine false name <;> cases keepsLine false group <;> decide

/-- A directive is whole if its text keeps to one line and so does the comment in front. -/
theorem isWhole_eq (d : Directive) : d.isWhole =
    (d.comment?.all (fun c => BuildFile.staysComment c.toList) && keepsLine true d.statement) := by
  cases d with
  | base image version digest =>
    have h : keepsLine true (base image version digest).render =
        keepsLine true (imageReference image version digest) := keepsLine_append (by decide)
    simp only [isWhole, comment?, statement, h, keepsLine_imageReference, Option.all_none, Bool.true_and]
  | builtBase project tag =>
    have h : keepsLine true ("FROM " ++ tag) = keepsLine true tag := keepsLine_append (by decide)
    simp only [isWhole, comment?, statement, h, Option.all_some]
  | copy layer owner => simp [isWhole, comment?, statement, keepsLine_render_copy]
  | run commands mounts => simp [isWhole, comment?, statement, keepsLine_render_run, Bool.and_assoc]
  | user name =>
    have h : keepsLine true ("USER " ++ name) = keepsLine true name := keepsLine_append (by decide)
    exact h.symm
  | env key value => simp [isWhole, comment?, statement, keepsLine_render_env]
  | healthCheck h => simp [isWhole, comment?, statement, keepsLine_render_healthCheck, Bool.and_assoc]
  | createUser name uid group gid => simp [isWhole, comment?, statement, keepsLine_render_createUser]

theorem keepsLine_statement {d : Directive} (h : d.isWhole = true) : keepsLine true d.statement = true := by
  rw [d.isWhole_eq, Bool.and_eq_true] at h
  exact h.2

/-- The comment in front of a directive is a line of its own. -/
theorem render_eq (d : Directive) :
    d.render = (d.comment?.elim "" fun c => "# " ++ c ++ "\n") ++ d.statement := by
  cases d with
  | builtBase project tag =>
    have hline : "\nFROM " = "\n" ++ "FROM " := by decide
    dsimp only [render, comment?, statement, Option.elim]
    simp only [hline, String.append_assoc]
  | _ => simp only [comment?, statement, Option.elim_none, String.empty_append]

theorem head?_statement (d : Directive) : d.statement.toList.head? ≠ some '#' := by
  cases d with
  | builtBase project tag => simp [statement]
  | _ =>
    intro h
    have hword := head?_firstWord h (by decide)
    rw [statement, firstWord_render] at hword
    · simp [keyword] at hword
    · nofun

end Directive

end ImageRecipe
