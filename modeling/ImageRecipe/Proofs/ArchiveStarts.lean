import ImageRecipe.Proofs.ArchivePacks

/-! The beginnings of archives. A header that names no owner has the letter by which headers are known in one place
and in none of the places behind it, so that an archive cannot begin with some text and go on as another archive. -/

namespace ImageRecipe.Archive

theorem octalField_eq (width n : Nat) : ∃ ds, ds.length = width ∧ octalField (width + 1) n = ds ++ [0] := by
  refine ⟨_, ?_, rfl⟩
  have := length_octalField width n
  unfold octalField at this
  simpa using this

/-- The end of a header that names no owner: what headers are known by, and zeros. -/
def mark : List UInt8 := bytesOfText "ustar  " ++ zeros 248

theorem Header.block_eq {h : Header} (hu : h.user = []) (hg : h.group = []) :
    ∃ b c, b.length = 107 ∧ c.length = 149 ∧ h.block = b ++ 0 :: (c ++ mark) := by
  obtain ⟨ds, hds, hmode⟩ := octalField_eq 7 h.mode
  have hmark : bytesOfText "ustar  " ++ ([0] ++ (fit ownerNameSize [] ++ (fit ownerNameSize [] ++ zeros 183))) = mark := by
    decide +kernel
  refine ⟨fit nameSize h.name ++ ds, ownerField h.uid ++ (ownerField h.gid ++ (sizeField h.size ++ (octalField 12 0 ++
    (octalField 8 (sum (h.blockWith (List.replicate 8 0x20))) ++ ([h.code] ++ fit nameSize h.target))))), ?_, ?_, ?_⟩
  · rw [List.length_append, length_fit, hds]
    rfl
  · simp only [List.length_append, length_ownerField, length_sizeField, length_octalField, length_fit,
      List.length_singleton]
    rfl
  · unfold block blockWith
    rw [hu, hg, hmode, ← hmark]
    simp only [List.append_assoc, List.cons_append, List.nil_append]

/-- What is found in three places of a header that names no owner. -/
theorem Header.getElem?_block {h : Header} (hu : h.user = []) (hg : h.group = []) (r : List UInt8) :
    (h.block ++ r)[107]? = some 0 ∧ (h.block ++ r)[257]? = some 0x75 ∧
      ∀ i, 257 < i → i < 512 → (h.block ++ r)[i]? ≠ some 0x75 := by
  obtain ⟨b, c, hb, hc, heq⟩ := block_eq hu hg
  have hbehind : ∀ i, 257 ≤ i → i < 512 → (h.block ++ r)[i]? = mark[i - 257]? := by
    intro i hi hlt
    have hmark : mark.length = 255 := by decide +kernel
    rw [List.getElem?_append_left (by rw [length_block]; exact hlt), heq,
      List.getElem?_append_right (by omega), hb, show i - 107 = (i - 108) + 1 by omega, List.getElem?_cons_succ,
      List.getElem?_append_right (by omega), hc, show i - 108 - 149 = i - 257 by omega]
  refine ⟨?_, ?_, fun i hi hlt h75 => ?_⟩
  · rw [heq, List.append_assoc, List.getElem?_append_right (by omega), hb]
    rfl
  · rw [hbehind 257 (by omega) (by omega)]
    decide +kernel
  · rw [hbehind i (by omega) hlt, show i - 257 = (i - 258) + 1 by omega] at h75
    have htail : mark = 0x75 :: mark.tail ∧ (0x75 : UInt8) ∉ mark.tail := by decide +kernel
    rw [htail.1, List.getElem?_cons_succ] at h75
    exact htail.2 (List.mem_of_getElem? h75)

/-- The archive of a directory, whose owner is root. -/
def IsPack (a : List UInt8) : Prop := ∃ es, pack {} es = .ok a

/-- An archive is empty or begins with a header that names no owner. -/
theorem IsPack.begins {a : List UInt8} (h : IsPack a) :
    a = zeros 1024 ∨ ∃ (x : Header) (r : List UInt8), x.user = [] ∧ x.group = [] ∧ a = x.block ++ r := by
  obtain ⟨es, h⟩ := h
  unfold pack at h
  cases hm : LayerOptions.members {} es with
  | nil =>
    rw [hm, encode_nil] at h
    exact .inl (Except.ok.inj h).symm
  | cons m ms =>
    rw [hm] at h
    obtain ⟨c, b, hc, -, rfl⟩ := encode_cons h
    obtain ⟨x, r, rfl, hu, hg⟩ := exists_block hc
    obtain ⟨huser, hgroup⟩ := LayerOptions.owners_of_mem_members {} rfl m (hm ▸ List.mem_cons_self)
    exact .inr ⟨x, r ++ b, hu huser, hg hgroup, List.append_assoc ..⟩

/-- No archive begins with a text that is not empty and goes on with nothing or with another archive. The text would
end before the first zero byte of the header, and the letter of the second header would be where the first has none. -/
theorem IsPack.append_ne_text {a r t y : List UInt8} (h : IsPack a) (ht : t ≠ []) (hfree : 0 ∉ t)
    (hy : y = [] ∨ ∃ a' r', IsPack a' ∧ y = a' ++ r') : a ++ r ≠ t ++ y := by
  intro heq
  rcases h.begins with rfl | ⟨x, rest, hu, hg, rfl⟩
  · cases t with
    | nil => exact ht rfl
    | cons b t =>
      have : (0 : UInt8) = b := (List.cons.inj heq).1
      exact hfree (this ▸ List.mem_cons_self)
  · rw [List.append_assoc] at heq
    obtain ⟨hzero, hletter, hnone⟩ := Header.getElem?_block hu hg (rest ++ r)
    rw [heq] at hzero hletter hnone
    have hlength : t.length ≤ 107 := by
      by_contra hlong
      rw [List.getElem?_append_left (by omega)] at hzero
      exact hfree (List.mem_of_getElem? hzero)
    rw [List.getElem?_append_right (by omega)] at hletter
    rcases hy with rfl | ⟨a', r', ha', rfl⟩
    · cases hletter
    · rcases ha'.begins with rfl | ⟨x', rest', hu', hg', rfl⟩
      · rw [List.getElem?_append_left (by rw [length_zeros]; omega)] at hletter
        have := List.mem_of_getElem? hletter
        exact absurd (List.mem_replicate.1 this).2 (by decide)
      · have hpos : 0 < t.length := List.length_pos_iff.2 ht
        have := hnone (257 + t.length) (by omega) (by omega)
        rw [List.getElem?_append_right (by omega), Nat.add_sub_cancel, List.append_assoc] at this
        exact this (Header.getElem?_block hu' hg' (rest' ++ r')).2.1

end ImageRecipe.Archive
