import ImageRecipe.Build.Basic
import ImageRecipe.Proofs.Paths

/-! Digests in hexadecimal: how long they are, which characters they have, and that the texts made from them
tell their parts apart. -/

namespace ImageRecipe

/-- The characters of digests. -/
def hexDigits : List Char :=
  ['0', '1', '2', '3', '4', '5', '6', '7', '8', '9', 'a', 'b', 'c', 'd', 'e', 'f']

/-- A text of as many hexadecimal digits as a digest has. -/
structure IsDigest (s : String) : Prop where
  length_eq : s.toList.length = 64
  mem_hexDigits : ∀ c ∈ s.toList, c ∈ hexDigits

private theorem hexDigit_mem {n : Nat} (h : n < 16) : Text.hexDigit n ∈ hexDigits := by
  have : ∀ n : Fin 16, Text.hexDigit n.val ∈ hexDigits := by decide
  exact this ⟨n, h⟩

private theorem hexOfBytes_spec (bs : List UInt8) :
    (Text.hexOfBytes bs).length = 2 * bs.length ∧ ∀ c ∈ Text.hexOfBytes bs, c ∈ hexDigits := by
  induction bs with
  | nil => exact ⟨rfl, by simp [Text.hexOfBytes]⟩
  | cons b bs ih =>
    have hb := b.toNat_lt
    have hcons : Text.hexOfBytes (b :: bs) =
        Text.hexDigit (b.toNat / 16) :: Text.hexDigit (b.toNat % 16) :: Text.hexOfBytes bs := rfl
    rw [hcons]
    refine ⟨by simp only [List.length_cons, ih.1]; omega, ?_⟩
    intro c hc
    rcases List.mem_cons.1 hc with rfl | hc
    · exact hexDigit_mem (by omega)
    · rcases List.mem_cons.1 hc with rfl | hc
      · exact hexDigit_mem (by omega)
      · exact ih.2 c hc

private theorem length_digest (data : ByteArray) : (Blake3.digest data).length = 32 := by
  unfold Blake3.digest
  simp only
  rw [List.length_flatMap]
  have h : ∀ l : List UInt32, (l.map fun w => (Blake3.wordBytes w).length).sum = 4 * l.length := by
    intro l
    induction l with
    | nil => rfl
    | cons w l ih =>
      rw [List.map_cons, List.sum_cons, ih, List.length_cons]
      simp only [Blake3.wordBytes, List.length_cons, List.length_nil]
      omega
  rw [h, Vector.length_toList]

theorem isDigest_hex (data : ByteArray) : IsDigest (Blake3.hex data) := by
  have h := hexOfBytes_spec (Blake3.digest data)
  rw [length_digest] at h
  constructor
  · rw [Blake3.hex, String.toList_ofList]
    exact h.1
  · rw [Blake3.hex, String.toList_ofList]
    exact h.2

theorem isDigest_hexOfText (s : String) : IsDigest (Blake3.hexOfText s) := isDigest_hex _

theorem Plan.isDigest_contentHash (p : Plan) : IsDigest p.contentHash := isDigest_hexOfText _

theorem Recipe.isDigest_key (r : Recipe) (j : Recipe.Job) : IsDigest (r.key j) := isDigest_hexOfText _

/-- The text of a cache key tells plan, builder and tag, as long as the plans are told by texts of one
length. -/
theorem cacheKeyText_injective {p p' tag tag' : String} {b b' : Builder}
    (hl : p.toList.length = p'.toList.length) (h : cacheKeyText p b tag = cacheKeyText p' b' tag') :
    p = p' ∧ b = b' ∧ tag = tag' := by
  have hname : b.name.toList.length = b'.name.toList.length := by
    cases b <;> cases b' <;> simp [Builder.name]
  have hc := congrArg String.toList h
  simp only [cacheKeyText, String.toList_append, List.append_assoc] at hc
  obtain ⟨hp, hc⟩ := List.append_inj (List.append_cancel_left hc) hl
  obtain ⟨hb, hc⟩ := List.append_inj (List.append_cancel_left hc) hname
  refine ⟨String.toList_injective hp, ?_, ?_⟩
  · have := String.toList_injective hb
    revert this
    cases b <;> cases b' <;> simp [Builder.name]
  · exact String.toList_injective (List.append_cancel_right (List.append_cancel_left hc))

namespace Recipe

/-- The text that the key of a job is the digest of. -/
def keyText (r : Recipe) (j : Job) : String :=
  cacheKeyText (j.plan.contentHash ++ ":" ++ j.context) j.plan.builder r.tag

/-- The text of a job's key tells its plan, its context, its builder and its tag. -/
theorem keyText_injective {r r' : Recipe} {j j' : Job} (hj : IsDigest j.context) (hj' : IsDigest j'.context)
    (h : r.keyText j = r'.keyText j') :
    j.plan.contentHash = j'.plan.contentHash ∧ j.context = j'.context ∧
      j.plan.builder = j'.plan.builder ∧ r.tag = r'.tag := by
  have hplan := j.plan.isDigest_contentHash.length_eq
  have hplan' := j'.plan.isDigest_contentHash.length_eq
  obtain ⟨htext, hbuilder, htag⟩ := cacheKeyText_injective
    (by simp only [String.toList_append, List.length_append, hplan, hplan', hj.length_eq, hj'.length_eq]) h
  have hc := congrArg String.toList htext
  simp only [String.toList_append, List.append_assoc] at hc
  obtain ⟨hp, hc⟩ := List.append_inj hc (by rw [hplan, hplan'])
  exact ⟨String.toList_injective hp, String.toList_injective (List.append_cancel_left hc), hbuilder, htag⟩

end Recipe

end ImageRecipe
