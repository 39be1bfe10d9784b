import Mathlib.Data.List.Basic
import ImageRecipe.Build.Basic
import ImageRecipe.Proofs.Actions

/-! Instructions on their way into a plan: the base is the first of them and the only one, and a base that is
another project's image becomes the first directive of a daemon's plan. -/

namespace ImageRecipe

namespace Instruction

private theorem isBase_of_baseFrom? {l : List Instruction} : ∀ {n : Nat}, baseFrom? n l = none →
    ∀ i ∈ l, i.isBase = false := by
  induction l with
  | nil => simp
  | cons j l ih =>
    intro n h i hi
    rw [baseFrom?] at h
    split at h
    · simp at h
    · next hj =>
      rcases List.mem_cons.1 hi with rfl | hi
      · simpa using hj
      · exact ih h i hi

/-- Valid instructions begin with a base and have no other. -/
theorem validate_ok {l : List Instruction} (h : validate l = .ok ()) :
    ∃ i rest, l = i :: rest ∧ i.isBase = true ∧ ∀ j ∈ rest, j.isBase = false := by
  cases l with
  | nil => simp [validate] at h
  | cons i rest =>
    rw [validate] at h
    split at h
    · simp at h
    · next hi =>
      split at h
      · simp at h
      · next hrest => exact ⟨i, rest, rfl, by simpa using hi, isBase_of_baseFrom? hrest⟩

end Instruction

namespace Session

/-- Filling in the images of base projects makes no instruction a base and takes none away. -/
theorem isBase_resolveBase {s : Session} {i j : Instruction} (h : s.resolveBase i = .ok j) :
    j.isBase = i.isBase := by
  unfold resolveBase at h
  split at h
  · obtain ⟨x, -, rfl⟩ := map_eq_ok.1 h
    rfl
  · cases h
    rfl

/-- The image that is filled in is the one of the project in the session. -/
theorem resolveBase_builtBase {s : Session} {project : String} {tag id : Option String} {j : Instruction}
    (h : s.resolveBase (.builtBase project tag id) = .ok j) :
    ∃ x, s.resolve? project = some x ∧ j = .builtBase project (some x.tag) (some x.imageId) := by
  obtain ⟨x, hx, rfl⟩ := map_eq_ok.1 h
  refine ⟨x, ?_, rfl⟩
  unfold require at hx
  split at hx
  · next y hy => rw [hy, Except.ok.inj hx]
  · simp at hx

theorem resolveBases_cons {s : Session} {i : Instruction} {l js : List Instruction}
    (h : s.resolveBases (i :: l) = .ok js) :
    ∃ j rest, s.resolveBase i = .ok j ∧ s.resolveBases l = .ok rest ∧ js = j :: rest := by
  unfold resolveBases at h
  rw [List.mapM_cons] at h
  obtain ⟨j, hj, h⟩ := bind_eq_ok.1 h
  obtain ⟨rest, hrest, h⟩ := bind_eq_ok.1 h
  exact ⟨j, rest, hj, hrest, (Except.ok.inj h).symm⟩

theorem isBase_of_resolveBases {s : Session} {l : List Instruction} : ∀ {js}, s.resolveBases l = .ok js →
    (∀ j ∈ js, j.isBase = false) → ∀ i ∈ l, i.isBase = false := by
  induction l with
  | nil => simp
  | cons i l ih =>
    intro js h hjs k hk
    obtain ⟨j, rest, hj, hrest, rfl⟩ := resolveBases_cons h
    rcases List.mem_cons.1 hk with rfl | hk
    · rw [← isBase_resolveBase hj]
      exact hjs j (by simp)
    · exact ih hrest (fun j hj => hjs j (by simp [hj])) k hk

end Session

namespace Plan

theorem validate_of_compile {l : List Instruction} {lock : Lockfile} {t : Target} {p : Plan}
    (h : compile l lock t = .ok p) : Instruction.validate l = .ok () := by
  obtain ⟨_, hvalid, -⟩ := bind_eq_ok.1 h
  cases hv : Instruction.validate l with
  | error e => simp [hv] at hvalid
  | ok => rfl

/-- The first directive of a plan that starts from another project's image names the tag of that image. -/
theorem compile_builtBase {project : String} {tag id : Option String} {l : List Instruction}
    {lock : Lockfile} {t : Target} {p : Plan} (ht : t.builder = .daemon)
    (h : compile (.builtBase project tag id :: l) lock t = .ok p) :
    ∃ name plan rest, tag = some name ∧ p = .daemon plan ∧
      plan.directives = ("# " ++ project ++ "\nFROM " ++ name) :: rest := by
  obtain ⟨_, -, h⟩ := bind_eq_ok.1 h
  rw [ht] at h
  obtain ⟨plan, hplan, rfl⟩ := map_eq_ok.1 h
  obtain ⟨mounts, -, hplan⟩ := bind_eq_ok.1 hplan
  obtain ⟨directives, hdirectives, hplan⟩ := bind_eq_ok.1 hplan
  cases hplan
  rw [Target.directivesFrom] at hdirectives
  obtain ⟨⟨here, user⟩, hhere, hdirectives⟩ := bind_eq_ok.1 hdirectives
  obtain ⟨rest, -, hdirectives⟩ := bind_eq_ok.1 hdirectives
  cases hdirectives
  cases tag with
  | none => simp [Target.directives] at hhere
  | some name =>
    simp only [Target.directives, Except.ok.injEq, Prod.mk.injEq] at hhere
    obtain ⟨rfl, -⟩ := hhere
    exact ⟨name, _, rest.map Directive.render, rfl, rfl, rfl⟩

end Plan

namespace Instruction

/-- The layers that a direct plan has for instructions. -/
def layers (l : List Instruction) : List Layer :=
  l.filterMap fun
    | copy layer owner => some ⟨layer, layerSource layer, "/", owner, .preserve⟩
    | _ => none

theorem eq_of_mem_layers {l : List Instruction} {x : Layer} (h : x ∈ layers l) :
    x = ⟨x.ordinal, layerSource x.ordinal, "/", x.owner, .preserve⟩ := by
  obtain ⟨i, -, hi⟩ := List.mem_filterMap.1 h
  split at hi
  · cases hi
    rfl
  · cases hi

theorem copiedLayers_eq (l : List Instruction) :
    BuildContext.copiedLayers l = (SortedSet.ofList ((layers l).map Layer.ordinal)).toList := by
  unfold BuildContext.copiedLayers layers
  rw [List.map_filterMap]
  refine congrArg (fun l => (SortedSet.ofList l).toList) (List.filterMap_congr fun i _ => ?_)
  cases i <;> rfl

theorem baseLines_of_not_isBase {l : List Instruction} (h : ∀ i ∈ l, i.isBase = false) :
    BuildContext.baseLines l = "" := by
  unfold BuildContext.baseLines
  refine congrArg String.join (List.filterMap_eq_nil_iff.2 fun i hi => ?_)
  have hbase := h i hi
  cases i with
  | builtBase => simp [isBase] at hbase
  | _ => rfl

end Instruction

/-- The line for the image that a direct plan starts from. -/
def DirectBase.line : DirectBase → String
  | reference _ => ""
  | builtImage project _ imageId => "base " ++ project ++ " " ++ imageId ++ "\n"

namespace DirectDraft

variable {isolate : Bool} {n : Nat} {d d' : DirectDraft}

/-- Taking in an instruction adds the layers that are copied, and only a base changes the base. -/
theorem add_ok {i : Instruction} (h : d.add isolate n i = .ok d') :
    d'.layers = d.layers ++ Instruction.layers [i] ∧ (i.isBase = false → d'.base = d.base) ∧
      (i.isBase = true → ∃ b, d'.base = some b ∧ BuildContext.baseLines [i] = b.line) := by
  unfold add at h
  split at h
  · cases h
    exact ⟨by simp [Instruction.layers], by simp [Instruction.isBase], fun _ => ⟨_, rfl, rfl⟩⟩
  · cases h
    refine ⟨by simp [Instruction.layers], by simp [Instruction.isBase], fun _ => ⟨_, rfl, ?_⟩⟩
    simp [BuildContext.baseLines, DirectBase.line]
  · cases h
  · cases h
    exact ⟨rfl, fun _ => rfl, by simp [Instruction.isBase]⟩
  · cases h
    exact ⟨by simp [Instruction.layers], fun _ => rfl, by simp [Instruction.isBase]⟩
  · cases h
    exact ⟨by simp [Instruction.layers], fun _ => rfl, by simp [Instruction.isBase]⟩
  · cases h
    exact ⟨by simp [Instruction.layers], fun _ => rfl, by simp [Instruction.isBase]⟩
  · split at h
    · cases h
      exact ⟨by simp [Instruction.layers], fun _ => rfl, by simp [Instruction.isBase]⟩
    · cases h
  · cases h

theorem addFrom_ok : ∀ {l : List Instruction} {n : Nat} {d d' : DirectDraft},
    addFrom isolate n d l = .ok d' → (∀ i ∈ l, i.isBase = false) →
    d'.layers = d.layers ++ Instruction.layers l ∧ d'.base = d.base := by
  intro l
  induction l with
  | nil =>
    intro n d d' h _
    cases h
    exact ⟨by simp [Instruction.layers], rfl⟩
  | cons i l ih =>
    intro n d d' h hi
    obtain ⟨e, hadd, hrest⟩ := bind_eq_ok.1 h
    obtain ⟨hlayers, hbase, -⟩ := add_ok hadd
    obtain ⟨hlayers', hbase'⟩ := ih hrest fun j hj => hi j (by simp [hj])
    refine ⟨?_, hbase'.trans (hbase (hi i (by simp)))⟩
    rw [hlayers', hlayers, List.append_assoc]
    unfold Instruction.layers
    rw [← List.filterMap_append, List.singleton_append]

end DirectDraft

/-- A direct plan has the layers that are copied, and starts from the image that the context names. -/
theorem Plan.compile_direct {l : List Instruction} {lock : Lockfile} {t : Target} {p : Plan}
    (ht : t.builder = .direct) (h : compile l lock t = .ok p) :
    ∃ d, p = .direct d ∧ d.layers = Instruction.layers l ∧ BuildContext.baseLines l = d.base.line := by
  obtain ⟨i, rest, rfl, hi, hrest⟩ := Instruction.validate_ok (validate_of_compile h)
  obtain ⟨_, -, h⟩ := bind_eq_ok.1 h
  rw [ht] at h
  obtain ⟨d, hd, rfl⟩ := map_eq_ok.1 h
  refine ⟨d, rfl, ?_⟩
  unfold Target.directPlan at hd
  obtain ⟨draft, hdraft, hd⟩ := bind_eq_ok.1 hd
  obtain ⟨first, hfirst, hfrom⟩ := bind_eq_ok.1 hdraft
  obtain ⟨hlayers, -, hbase⟩ := DirectDraft.add_ok hfirst
  obtain ⟨b, hb, hline⟩ := hbase hi
  obtain ⟨hlayers', hbase'⟩ := DirectDraft.addFrom_ok hfrom hrest
  rw [hbase', hb] at hd
  cases hd
  refine ⟨?_, ?_⟩
  · rw [hlayers', hlayers]
    unfold Instruction.layers
    rw [List.nil_append, ← List.filterMap_append, List.singleton_append]
  · have hsplit : BuildContext.baseLines (i :: rest) =
        BuildContext.baseLines [i] ++ BuildContext.baseLines rest := by
      unfold BuildContext.baseLines
      rw [← List.singleton_append, List.filterMap_append, String.join_append]
    rw [hsplit, Instruction.baseLines_of_not_isBase hrest, hline, String.append_empty]

end ImageRecipe
