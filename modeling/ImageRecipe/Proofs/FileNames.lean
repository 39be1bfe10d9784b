import ImageRecipe.Proofs.Digest
import ImageRecipe.Proofs.Paths

/-! Names of files: those that builds give to what they leave beside the images are none of the names that
come from digests. -/

namespace ImageRecipe

theorem Text.dropStart?_append (p cs : List Char) : dropStart? p (p ++ cs) = some cs := by
  induction p with
  | nil => rfl
  | cons c p ih => simp [dropStart?, ih]

theorem Text.eq_append_of_dropStart? : ∀ {p cs rest : List Char}, dropStart? p cs = some rest → cs = p ++ rest
  | [], _, _, h => Option.some.inj h
  | _ :: _, [], _, h => by cases h
  | p :: ps, c :: cs, rest, h => by
    unfold dropStart? at h
    split at h
    · next heq => rw [heq, eq_append_of_dropStart? h, List.cons_append]
    · cases h

namespace FileName

theorem slash_notMem_ofText {s : String} (hs : '/' ∉ s.toList) : RawPath.slash ∉ ofText s := by
  intro h
  rw [ofText_eq_flatMap] at h
  obtain ⟨x, hx, hm⟩ := List.mem_flatMap.1 h
  exact hs (mem_utf8EncodeChar (d := '/') (by decide) hm ▸ hx)

/-- A text without slashes that is neither empty nor made of one or two dots is a proper name. -/
theorem proper_of_ne {s : String} (hs : '/' ∉ s.toList) (hempty : s ≠ "") (hdot : s ≠ ".") (hdots : s ≠ "..") :
    (ofText s).Proper where
  ne_nil h := hempty (ofText_injective (h.trans ofText_empty.symm))
  ne_here h := hdot (ofText_injective (h.trans (by decide +kernel)))
  ne_up h := hdots (ofText_injective (h.trans (by decide +kernel)))
  slash_notMem := slash_notMem_ofText hs

/-- A text without slashes and with something else than dots is a proper name. -/
theorem proper_ofText {s : String} {c : Char} (hs : '/' ∉ s.toList) (hc : c ∈ s.toList) (hdot : c ≠ '.') :
    (ofText s).Proper := by
  apply proper_of_ne hs
  · rintro rfl
    simp at hc
  · rintro rfl
    simp [hdot] at hc
  · rintro rfl
    simp [hdot] at hc

end FileName

namespace IsDigest

variable {s : String}

theorem exists_mem (h : IsDigest s) : ∃ c ∈ s.toList, c ≠ '.' := by
  cases hl : s.toList with
  | nil =>
    have := h.length_eq
    simp [hl] at this
  | cons c r =>
    refine ⟨c, by simp, ?_⟩
    rintro rfl
    have := h.mem_hexDigits '.' (by simp [hl])
    simp [hexDigits] at this

theorem notMem (h : IsDigest s) {c : Char} (hc : c ∉ hexDigits) : c ∉ s.toList :=
  fun hm => hc (h.mem_hexDigits c hm)

theorem proper (h : IsDigest s) : (FileName.ofText s).Proper := by
  obtain ⟨c, hc, hdot⟩ := h.exists_mem
  exact FileName.proper_ofText (h.notMem (by simp [hexDigits])) hc hdot

theorem proper_json (h : IsDigest s) : (FileName.ofText (s ++ ".json")).Proper := by
  obtain ⟨c, hc, hdot⟩ := h.exists_mem
  apply FileName.proper_ofText (c := c) _ (by simp [hc]) hdot
  have := h.notMem (c := '/') (by simp [hexDigits])
  simp [this]

end IsDigest

/-- The names of the files that builds leave in work directories on the way to a result, and of those that
belong to a store as a whole. -/
def fixedNames : List String :=
  ["Dockerfile", ".dockerignore", "image-id", "sources.list", "version", ".lock"]

/-- The names of all that every store and every work directory has. -/
def knownNames : List String :=
  fixedNames ++ ["store", "objects", "images", "tags", "cache", "image-build.json", "context", "ephemeral", "docker",
    "packages", "repos"]

theorem FileName.proper_of_known {s : String} (h : s ∈ knownNames) : (ofText s).Proper := by
  have hall : knownNames.all (fun s => decide (ofText s).Proper) = true := by decide +kernel
  exact of_decide_eq_true (List.all_eq_true.1 hall s h)

theorem FileName.proper_of_fixed {s : String} (h : s ∈ fixedNames) : (ofText s).Proper :=
  proper_of_known (List.mem_append_left _ h)

/-- The name of the file in which a work directory keeps the result of its last build. -/
def resultName : FileName := FileName.ofText "image-build.json"

/-- The name of the file in which the engine leaves an image id. -/
def imageIdName : FileName := FileName.ofText "image-id"

theorem proper_resultName : resultName.Proper := FileName.proper_of_known (by simp [knownNames])

theorem proper_imageIdName : imageIdName.Proper := FileName.proper_of_fixed (by simp [fixedNames])

/-- A name that a build gives to a file without taking a digest. -/
def FileName.IsPlain (n : FileName) : Prop :=
  n ∈ fixedNames.map FileName.ofText ∨ FileName.ofText ".repo" <:+ n

theorem FileName.isPlain_ofText {s : String} (h : s ∈ fixedNames) : (ofText s).IsPlain :=
  .inl (List.mem_map_of_mem h)

private theorem not_isPlain {s : String} (hl : 16 < s.toList.length)
    (hr : ¬ FileName.ofText ".repo" <:+ FileName.ofText s) : ¬ (FileName.ofText s).IsPlain := by
  rintro (h | h)
  · obtain ⟨t, ht, heq⟩ := List.mem_map.1 h
    have := FileName.ofText_injective heq
    subst this
    simp only [fixedNames, List.mem_cons, List.not_mem_nil, or_false] at ht
    rcases ht with rfl | rfl | rfl | rfl | rfl | rfl <;> simp at hl
  · exact hr h

theorem IsDigest.not_isPlain {s : String} (h : IsDigest s) : ¬ (FileName.ofText s).IsPlain := by
  apply ImageRecipe.not_isPlain (by rw [h.length_eq]; omega)
  intro hr
  have hdot : UInt8.ofNat ('.' : Char).toNat ∈ FileName.ofText s :=
    hr.subset (by decide +kernel)
  rw [FileName.ofText_eq_flatMap] at hdot
  obtain ⟨c, hc, hm⟩ := List.mem_flatMap.1 hdot
  have := mem_utf8EncodeChar (by decide) hm
  exact h.notMem (c := '.') (by simp [hexDigits]) (this ▸ hc)

theorem IsDigest.not_isPlain_json {s : String} (h : IsDigest s) :
    ¬ (FileName.ofText (s ++ ".json")).IsPlain := by
  apply ImageRecipe.not_isPlain
  · rw [String.toList_append, List.length_append, h.length_eq]
    omega
  · rintro ⟨x, hx⟩
    rw [FileName.ofText_append] at hx
    have hlen : (FileName.ofText ".repo").length = (FileName.ofText ".json").length := by decide +kernel
    have := (List.append_inj' hx hlen).2
    exact absurd this (by decide +kernel)

theorem ofText_ne_resultName {s : String} (h : s ≠ "image-build.json") : FileName.ofText s ≠ resultName :=
  mt FileName.ofText_injective h

theorem IsDigest.ne_resultName {s : String} (h : IsDigest s) : FileName.ofText s ≠ resultName := by
  apply ofText_ne_resultName
  rintro rfl
  exact absurd h.length_eq (by decide)

theorem IsDigest.ne_resultName_json {s : String} (h : IsDigest s) :
    FileName.ofText (s ++ ".json") ≠ resultName := by
  apply ofText_ne_resultName
  intro heq
  have := congrArg (fun t : String => t.toList.length) heq
  simp [h.length_eq] at this

theorem FileName.IsPlain.ne_resultName {n : FileName} (h : n.IsPlain) : n ≠ resultName := by
  rintro rfl
  rcases h with h | h
  · obtain ⟨t, ht, heq⟩ := List.mem_map.1 h
    have := FileName.ofText_injective heq
    subst this
    simp [fixedNames] at ht
  · exact absurd h (by decide +kernel)

end ImageRecipe
