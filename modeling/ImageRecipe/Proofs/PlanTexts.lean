import ImageRecipe.Plan.Document
import ImageRecipe.Proofs.JsonInjectivity

/-! The content text of a direct plan tells the plan. -/

namespace ImageRecipe

namespace Document

theorem toldItems_map {α : Type} {write : α → Document} (h : ∀ a, (write a).Told) (l : List α) :
    ToldItems (l.map write) := by
  induction l with
  | nil => trivial
  | cons a l ih => exact ⟨h a, ih⟩

theorem told_ofOption {α : Type} {write : α → Document} (h : ∀ a, (write a).Told) (o : Option α) :
    (ofOption write o).Told := by
  cases o with
  | none => trivial
  | some a => exact h a

theorem ofNat_injective {n m : Nat} (h : ofNat n = ofNat m) : n = m := Int.ofNat.inj (Document.int.inj h)

theorem text_injective {s t : String} (h : Document.text s = .text t) : s = t := Document.text.inj h

theorem told_optionalText (o : Option String) : (ofOption .text o).Told :=
  @told_ofOption _ .text (fun _ => trivial) o

/-- A value that may be missing is told by what is written of it, as long as no value is written as null. -/
theorem ofOption_injective {α : Type} {write : α → Document} (hw : ∀ {a b}, write a = write b → a = b)
    (hn : ∀ a, write a ≠ .null) {o o' : Option α} (h : ofOption write o = ofOption write o') : o = o' := by
  cases o with
  | none =>
    cases o' with
    | none => rfl
    | some b => exact absurd h.symm (hn b)
  | some a =>
    cases o' with
    | none => exact absurd h (hn a)
    | some b => exact congrArg some (hw h)

theorem map_injective {α : Type} {write : α → Document} (hw : ∀ {a b}, write a = write b → a = b)
    {l l' : List α} (h : Document.list (l.map write) = .list (l'.map write)) : l = l' :=
  (List.map_inj_right fun _ _ => hw).1 (Document.list.inj h)

end Document

open Document

theorem Permissions.told_toDocument (x : Permissions) : x.toDocument.Told := by
  cases x <;> simp [toDocument, Told, ToldFields, ofNat]

theorem Permissions.toDocument_injective {x y : Permissions} (h : x.toDocument = y.toDocument) : x = y := by
  cases x <;> cases y
  case preserve.preserve => rfl
  case fixed.fixed =>
    simp only [toDocument, Document.table.injEq, List.cons.injEq, Prod.mk.injEq, true_and, and_true] at h
    rw [ofNat_injective h.1, ofNat_injective h.2]
  all_goals simp [toDocument] at h

theorem Layer.told_toDocument (l : Layer) : l.toDocument.Told := by
  simp [toDocument, Told, ToldFields, ofNat, told_optionalText, l.permissions.told_toDocument]

theorem Layer.toDocument_injective {l l' : Layer} (h : l.toDocument = l'.toDocument) : l = l' := by
  simp only [toDocument, Document.table.injEq, List.cons.injEq, Prod.mk.injEq, true_and, and_true] at h
  obtain ⟨hordinal, hsource, hdestination, howner, hpermissions⟩ := h
  cases l
  cases l'
  simp only [Layer.mk.injEq]
  exact ⟨ofNat_injective hordinal, text_injective hsource, text_injective hdestination,
    ofOption_injective text_injective (fun _ => by simp) howner, Permissions.toDocument_injective hpermissions⟩

theorem HealthCheck.told_toDocument (c : HealthCheck) : c.toDocument.Told := by
  have hretries : (ofOption ofNat c.retries).Told := @told_ofOption _ ofNat (fun _ => trivial) _
  simp [toDocument, Told, ToldFields, told_optionalText, hretries]

theorem HealthCheck.toDocument_injective {c c' : HealthCheck} (h : c.toDocument = c'.toDocument) : c = c' := by
  simp only [toDocument, Document.table.injEq, List.cons.injEq, Prod.mk.injEq, true_and, and_true] at h
  obtain ⟨hcommand, hinterval, htimeout, hstart, hretries⟩ := h
  have htext : ∀ {o o' : Option String}, ofOption .text o = ofOption .text o' → o = o' :=
    ofOption_injective text_injective fun _ => by simp
  cases c
  cases c'
  simp only [HealthCheck.mk.injEq]
  exact ⟨text_injective hcommand, htext hinterval, htext htimeout, htext hstart,
    ofOption_injective ofNat_injective (fun _ => by simp [ofNat]) hretries⟩

theorem DirectBase.told_toDocument (b : DirectBase) : b.toDocument.Told := by
  cases b <;> simp [toDocument, Told, ToldFields]

theorem DirectBase.toDocument_injective {b b' : DirectBase} (h : b.toDocument = b'.toDocument) : b = b' := by
  cases b <;> cases b' <;> simp_all [toDocument]

private def pair (p : String × String) : Document := .list [.text p.1, .text p.2]

private theorem pair_injective {p p' : String × String} (h : pair p = pair p') : p = p' := by
  simpa [pair, Prod.ext_iff] using h

namespace Plan

variable {p p' : DirectPlan}

theorem told_toDocument_direct (p : DirectPlan) : (direct p).toDocument.Told := by
  have hlayers := toldItems_map Layer.told_toDocument p.layers
  have henv : ToldItems (p.env.map pair) := @toldItems_map _ pair (fun _ => ⟨trivial, trivial, trivial⟩) _
  have hcheck := told_ofOption HealthCheck.told_toDocument p.healthCheck
  exact ⟨trivial, p.base.told_toDocument, hlayers, henv, told_optionalText _, hcheck, trivial⟩

/-- Direct plans with one content text are one plan. -/
theorem contentText_direct_injective (h : (direct p).contentText = (direct p').contentText) : p = p' := by
  have hd := Json.compact_injective (told_toDocument_direct p) (told_toDocument_direct p') h
  simp only [toDocument, fields, Document.table.injEq, List.cons.injEq, Prod.mk.injEq, true_and, and_true]
    at hd
  obtain ⟨-, hbase, hlayers, henv, huser, hcheck⟩ := hd
  have hpairs : p.env = p'.env := map_injective pair_injective henv
  have hcheck := ofOption_injective HealthCheck.toDocument_injective
    (fun _ => by simp [HealthCheck.toDocument]) hcheck
  cases p
  cases p'
  simp only [DirectPlan.mk.injEq]
  exact ⟨DirectBase.toDocument_injective hbase, map_injective Layer.toDocument_injective hlayers, hpairs,
    ofOption_injective text_injective (fun _ => by simp) huser, hcheck⟩

end Plan

end ImageRecipe
