import ImageRecipe.Proofs.ContextStreams
import ImageRecipe.Proofs.MockImages
import ImageRecipe.Proofs.PlanTexts

/-! The images of the direct backend over a history of builds. -/

namespace ImageRecipe

open Workshop

namespace Recipe.Settles

variable {r r' : Recipe} {w₀ w₀' w w' : Workshop} {j j' : Job} {p : DirectPlan}

theorem exists_stream (h : r.Settles w₀ j w) :
    ∃ bs, Yields (BuildContext.stream j.directory j.instructions j.plan) w bs w ∧
      j.context = Blake3.hex ⟨bs.toArray⟩ := by
  obtain ⟨bs, w₁, hstream, hpure⟩ := (yields_bind ..).1 h.context
  obtain ⟨heq, rfl⟩ := (yields_pure ..).1 hpure
  exact ⟨bs, hstream, heq.symm⟩

theorem direct (h : r.Settles w₀ j w) (hk : r.backend = .direct) :
    ∃ p, j.plan = .direct p ∧ p.layers = Instruction.layers j.instructions ∧
      BuildContext.baseLines j.instructions = p.base.line := by
  obtain ⟨lock, t, hbuilder, hplan⟩ := h.plan
  exact Plan.compile_direct (by rw [hbuilder, hk]; rfl) hplan

/-- Two jobs with one plan and one context come to one record, if the directories of their layers are there. -/
theorem record_eq (h : r.Settles w₀ j w) (h' : r'.Settles w₀' j' w') (hk : r.backend = .direct)
    (hk' : r'.backend = .direct) (hp : j.plan = .direct p) (hp' : j'.plan = .direct p)
    (hd : ∀ l ∈ p.layers, Direct.HasLayer w.host j.directory l)
    (hd' : ∀ l ∈ p.layers, Direct.HasLayer w'.host j'.directory l) {bs : List UInt8}
    (hs : Yields (BuildContext.stream j.directory j.instructions j.plan) w bs w)
    (hs' : Yields (BuildContext.stream j'.directory j'.instructions j'.plan) w' bs w')
    (hl : bs.length < Text.limit64) :
    Direct.record w.host j.directory p = Direct.record w'.host j'.directory p := by
  have hcopied : ∀ {r : Recipe} {w₀ w : Workshop} {j : Job}, r.Settles w₀ j w → r.backend = .direct →
      j.plan = .direct p → p.layers = Instruction.layers j.instructions ∧
        BuildContext.baseLines j.instructions = p.base.line ∧
        BuildContext.copiedLayers j.instructions = (SortedSet.ofList (p.layers.map Layer.ordinal)).toList := by
    intro r w₀ w j h hk hp
    obtain ⟨q, hq, hlayers, hbase⟩ := h.direct hk
    rw [hp] at hq
    cases hq
    exact ⟨hlayers, hbase, by rw [Instruction.copiedLayers_eq, hlayers]⟩
  obtain ⟨hlayers, hbase, hns⟩ := hcopied h hk hp
  obtain ⟨-, hbase', hns'⟩ := hcopied h' hk' hp'
  have hthere : ∀ {h : Host} {d : WorkDirectory}, (∀ l ∈ p.layers, Direct.HasLayer h d l) →
      ∀ n ∈ (SortedSet.ofList (p.layers.map Layer.ordinal)).toList,
        h.files.isDirectory h.directory (d.layer n) = true := by
    intro h d hd n hn
    obtain ⟨l, hl, rfl⟩ := List.mem_map.1 (SortedSet.mem_ofList.1 hn)
    have := hd l hl
    rw [hlayers] at hl
    rwa [Instruction.eq_of_mem_layers hl] at this
  rw [hp] at hs
  rw [hp'] at hs'
  obtain ⟨parts, hparts, hbs⟩ := BuildContext.yields_stream (hns ▸ hthere hd) hs
  obtain ⟨parts', hparts', hbs'⟩ := BuildContext.yields_stream (hns' ▸ hthere hd') hs'
  rw [hns] at hparts
  rw [hns'] at hparts'
  rw [hbs] at hl hbs'
  rw [hbase, hbase'] at hbs'
  have hsame := BuildContext.packDirectory_eq_of_parts hparts hparts' (Archive.lt_of_append hl)
    (List.append_cancel_left hbs')
  apply Direct.record_congr
  intro l hmem
  have hn : l.ordinal ∈ (SortedSet.ofList (p.layers.map Layer.ordinal)).toList :=
    SortedSet.mem_ofList.2 (List.mem_map_of_mem hmem)
  rw [hlayers] at hmem
  rw [Instruction.eq_of_mem_layers hmem]
  exact Direct.packLayer_congr (hsame l.ordinal hn)

end Recipe.Settles

namespace BuildCall

variable (c : BuildCall)

/-- The content texts of the plans that a call takes digests of. -/
def HashesPlan (text : String) : Prop := ∃ j w, c.Settles j w ∧ text = j.plan.contentText

/-- The bytes of the contexts that a call takes digests of. -/
def HashesContext (data : ByteArray) : Prop :=
  ∃ j w bs, c.Settles j w ∧ Yields (BuildContext.stream j.directory j.instructions j.plan) w bs w ∧
    data = ⟨bs.toArray⟩

/-- The layers that a call's plan copies are apart from the store, if the call packed them or they could be
packed. -/
def LayersApart (s : Store) : Prop :=
  ∀ j w p, c.Settles j w → j.plan = .direct p →
    (∃ x, c.Makes j x) ∨ (∀ l ∈ p.layers, Direct.HasLayer w.host j.directory l) →
      ∀ l ∈ p.layers, s.Apart w.host (Path.join j.directory.root l.source)

variable {c}

/-- An image that a call makes directly has the record of its layers as they were when its context was read. -/
theorem Makes.record {s : Store} {j : Recipe.Job} {x : BuildResult} (h : c.Makes j x)
    (hk : c.recipe.backend = .direct) (hs : c.workshop.Uses s) (hp : s.Plain c.workshop.host)
    (ha : c.LayersApart s) {p : DirectPlan} (hplan : j.plan = .direct p) :
    ∃ w r, c.Settles j w ∧ (∀ l ∈ p.layers, Direct.HasLayer w.host j.directory l) ∧
      Direct.record w.host j.directory p = .ok r ∧ x.imageId = r.id := by
  obtain ⟨w₁, w₂, w₃, hj, hmiss, hmake⟩ := id h
  have hne : c.recipe.backend ≠ .daemon := by simp [hk]
  have hjob := ((Recipe.keeps_job hne Store.allowsClearing_all Store.allowsPlain_all).yields hj hs).1
  have hlookup : Evolves s Store.Frame.inside w₁ w₂ :=
    ((Recipe.keeps_cached? hne (c.recipe.isDigest_key j) fun _ => List.prefix_append ..).yields hmiss
      hjob.uses).1
  obtain ⟨host, he, hmade⟩ := Recipe.yields_makeImage_direct Store.allowsStore_inside hk hlookup.uses hmake
  rw [hplan] at hmade
  have hevolves : s.Evolves Store.Frame.inside w₁.host host := IsTrans.trans _ _ _ hlookup.host he
  obtain ⟨hall, r, hr, hid⟩ := Direct.yields_materialize hevolves (hjob.plain hp)
    (ha j w₁ p hj hplan (.inl ⟨x, h⟩)) hmade
  exact ⟨w₁, r, hj, hall, hr, hid⟩

end BuildCall

namespace History

variable {s : Store} {calls : List BuildCall} {w : Workshop} {c : BuildCall}

end History

namespace Sample

variable {j : Recipe.Job} {w : Workshop}

theorem instructions_call (h : (call .direct).Settles j w) : j.instructions = [.base "i" "v" none] := by
  have hinstructions := (Recipe.yields_job h).instructions
  exact (Except.ok.inj hinstructions).symm

/-- The call copies no layers. -/
theorem layers_call {p : DirectPlan} (h : (call .direct).Settles j w) (hp : j.plan = .direct p) :
    p.layers = [] := by
  obtain ⟨q, hq, hlayers, -⟩ := (Recipe.yields_job h).direct rfl
  rw [hp] at hq
  cases hq
  rw [hlayers, instructions_call h]
  rfl

theorem injOn_hashesPlan : Set.InjOn Blake3.hexOfText {t | ∃ m ∈ [call .direct], m.HashesPlan t} := by
  rintro t ⟨m, hm, j, w, hj, rfl⟩ t' ⟨m', hm', j', w', hj', rfl⟩ -
  rw [List.mem_singleton] at hm hm'
  subst hm hm'
  rw [(Yields.unique hj hj').1]

/-- The context of the call has no bytes. -/
theorem hashesContext_call {data : ByteArray} (h : (call .direct).HashesContext data) :
    data = ByteArray.empty := by
  obtain ⟨j, w, bs, hj, hs, rfl⟩ := h
  obtain ⟨p, hp, -⟩ := (Recipe.yields_job hj).direct rfl
  have hinstructions := instructions_call hj
  rw [hp, hinstructions] at hs
  have hnone : BuildContext.copiedLayers [.base "i" "v" none] = [] := rfl
  obtain ⟨parts, hparts, rfl⟩ := BuildContext.yields_stream (by simp [hnone]) hs
  rw [hnone] at hparts
  cases hparts
  have hlines : Archive.bytesOfText (BuildContext.baseLines [.base "i" "v" none]) = [] := by
    simp [BuildContext.baseLines, Archive.bytesOfText, Text.bytes]
  rw [hlines]
  rfl

end Sample

end ImageRecipe
