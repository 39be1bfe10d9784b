import ImageRecipe.Proofs.Paths

/-! Names and places as texts. A name without a slash has none in its text either, even where its bytes spell
no text, so the text of a place tells the texts of its names. -/

namespace ImageRecipe

theorem lt_append_cons {α : Type} [LT α] (p : List α) (b : α) (r : List α) : p < p ++ b :: r := by
  induction p with
  | nil => exact List.Lex.nil
  | cons a p ih => exact List.Lex.cons ih

namespace Text

variable {d : Char}

private theorem ofNat_ne (hd : d.toNat ≠ 0) {v : Nat} (h : v ≠ d.toNat) : Char.ofNat v ≠ d := by
  intro heq
  by_cases hv : v.isValidChar
  · have hval : (Char.ofNat v).toNat = v := by
      rw [Char.ofNat, dif_pos hv]
      rfl
    rw [heq] at hval
    exact h hval.symm
  · rw [Char.ofNat, dif_neg hv] at heq
    rw [← heq] at hd
    exact absurd rfl hd

/-- The number that the bytes after the first add to. -/
private def added (v : Nat) (l : List UInt8) : Nat := l.foldl (fun v x => 64 * v + (x.toNat - 128)) v

private theorem added_cons (v : Nat) (x : UInt8) (l : List UInt8) :
    added v (x :: l) = added (64 * v + (x.toNat - 128)) l := List.foldl_cons ..

private theorem le_added (v : Nat) (l : List UInt8) : v ≤ added v l := by
  induction l generalizing v with
  | nil => exact Nat.le_refl v
  | cons x l ih =>
    have hrest := ih (64 * v + (x.toNat - 128))
    rw [added_cons]
    omega

/-- With a byte more a number of sixteen is already too great for a character of one byte. -/
private theorem limit_le_added {v : Nat} {l : List UInt8} (h : 128 ≤ v ∨ 16 ≤ v ∧ l ≠ []) : 128 ≤ added v l := by
  rcases h with h | ⟨h, hl⟩
  · exact h.trans (le_added v l)
  · obtain ⟨x, l, rfl⟩ := List.exists_cons_of_ne_nil hl
    have := le_added (64 * v + (x.toNat - 128)) l
    rw [added_cons]
    omega

/-- The first byte of a character and the one after it leave no room for the characters of one byte. -/
private theorem bound_of_continuation {lead low high b : UInt8} {n : Nat}
    (h : continuation lead = some (n, low, high)) (hb : low ≤ b) :
    (n = 1 ∧ 2 ≤ lead.toNat - 0xC0) ∨ (n = 2 ∧ 32 ≤ 64 * (lead.toNat - 0xE0) + (b.toNat - 128)) ∨
      n = 3 ∧ 16 ≤ 64 * (lead.toNat - 0xF0) + (b.toNat - 128) := by
  have hb' := UInt8.le_iff_toNat_le.1 hb
  unfold continuation at h
  simp only [Bool.and_eq_true, decide_eq_true_eq, beq_iff_eq, UInt8.le_iff_toNat_le, ← UInt8.toNat_inj,
    UInt8.reduceToNat] at h
  -- in each range of leads the least byte that may follow gives the bound
  split_ifs at h <;> cases h <;> simp only [UInt8.reduceToNat] at hb' <;> omega

/-- A character of several bytes is none of those of one byte. -/
private theorem character_ne (hzero : d.toNat ≠ 0) (hd : d.toNat < 128) {lead : UInt8} {rest : List UInt8} {c : Char}
    (h : (character lead rest).2 = some c) : c ≠ d := by
  unfold character at h
  split at h
  · cases h
  · next n low high hcont =>
    split at h
    · next b r =>
      simp only at h
      split at h
      · next hrange =>
        simp only [Bool.and_eq_true, decide_eq_true_eq] at hrange
        split at h
        · next hlength =>
          obtain rfl := Option.some.inj h
          apply ofNat_ne hzero
          generalize (r.take (n - 1)).takeWhile isTail = tail at hlength
          have htail : n ≠ 1 → tail ≠ [] := by
            rintro hn rfl
            rcases bound_of_continuation hcont hrange.1 with hb | hb | hb <;> simp_all
          rw [List.foldl_cons]
          refine (hd.trans_le (limit_le_added ?_)).ne'
          rcases bound_of_continuation hcont hrange.1 with ⟨rfl, hb⟩ | ⟨rfl, hb⟩ | ⟨rfl, hb⟩
          · rw [if_pos rfl]
            omega
          · exact .inr ⟨by rw [if_neg (by decide), if_pos rfl]; omega, htail (by decide)⟩
          · exact .inr ⟨by rw [if_neg (by decide), if_neg (by decide)]; omega, htail (by decide)⟩
        · cases h
      · cases h
    · cases h

theorem slash_notMem_lossyFrom {fuel : Nat} {bs : List UInt8} (h : RawPath.slash ∉ bs) :
    '/' ∉ lossyFrom fuel bs := by
  fun_induction lossyFrom fuel bs with
  | case1 => simp
  | case2 => simp
  | case3 fuel b r hb ih =>
    rw [List.mem_cons, not_or] at h ⊢
    refine ⟨Ne.symm (ofNat_ne (by decide) fun hv => h.1 ?_), ih h.2⟩
    exact (UInt8.toNat_inj.1 hv).symm
  | case4 fuel b r hb taken char hchar ih =>
    rw [List.mem_cons, not_or] at h ⊢
    refine ⟨?_, ih fun hm => h.2 (List.mem_of_mem_drop hm)⟩
    cases hc : char with
    | none => decide
    | some c =>
      have hwhole : (character b r).2 = some c := by rw [hchar, hc]
      exact Ne.symm (character_ne (by decide) (by decide) hwhole)

theorem lossyFrom_eq_nil {bs : List UInt8} (h : lossyFrom bs.length bs = []) : bs = [] := by
  cases bs with
  | nil => rfl
  | cons b r =>
    rw [List.length_cons, lossyFrom] at h
    split at h <;> cases h

/-- What spells one character of one byte is this byte. -/
theorem lossyFrom_eq_singleton (hzero : d.toNat ≠ 0) (hd : d.toNat < 128) {bs : List UInt8}
    (h : lossyFrom bs.length bs = [d]) : bs = [UInt8.ofNat d.toNat] := by
  cases bs with
  | nil => cases h
  | cons b r =>
    rw [List.length_cons, lossyFrom] at h
    split at h
    · obtain ⟨hb, hr⟩ := List.cons.inj h
      have hvalue : b.toNat = d.toNat := by
        by_contra hne
        exact ofNat_ne hzero hne hb
      rw [lossyFrom_eq_nil hr, ← hvalue, UInt8.ofNat_toNat]
    · rcases hwhole : character b r with ⟨taken, char⟩
      rw [hwhole] at h
      have hchar : char.getD '\uFFFD' = d := (List.cons.inj h).1
      cases char with
      | none =>
        rw [← hchar] at hd
        exact absurd hd (by decide)
      | some c => exact absurd hchar (character_ne hzero hd (congrArg Prod.snd hwhole))

end Text

/-- The text of a name without a slash has none. -/
theorem FileName.slash_notMem_text {n : FileName} (h : RawPath.slash ∉ n) : '/' ∉ n.text.toList := by
  unfold text Text.ofBytesLossy
  split
  · next s hs =>
    intro hmem
    apply h
    rw [text?_eq_some.1 hs, ofText_eq_flatMap, List.mem_flatMap]
    exact ⟨'/', hmem, by decide⟩
  · rw [String.toList_ofList]
    exact Text.slash_notMem_lossyFrom (by simpa using h)

/-- A text that a name is lossily read as is that of what spells it, or the characters of its bytes one by one. -/
private theorem FileName.text_cases {n : FileName} {s : String} (h : n.text = s) :
    n = ofText s ∨ Text.lossyFrom n.length n = s.toList := by
  unfold text Text.ofBytesLossy at h
  split at h
  · next s' hs =>
    subst h
    exact .inl (text?_eq_some.1 hs)
  · right
    rw [← h, String.toList_ofList]
    simp [ByteArray.size]

theorem FileName.text_eq_empty {n : FileName} (h : n.text = "") : n = [] :=
  (text_cases h).elim (fun heq => heq.trans ofText_empty) Text.lossyFrom_eq_nil

/-- No other name than a dot reads as one. -/
theorem FileName.text_eq_dot {n : FileName} (h : n.text = ".") : n = here := by
  rcases text_cases h with heq | heq
  · rw [heq]
    decide +kernel
  · exact Text.lossyFrom_eq_singleton (d := '.') (by decide) (by decide) heq

namespace Location

theorem toList_text (l : Location) :
    l.text.toList = Path.joinPieces (l.map fun n => n.text.toList) := by
  unfold text
  induction l with
  | nil => rfl
  | cons n l ih =>
    cases l with
    | nil => simp [Path.joinPieces]
    | cons m l =>
      have hjoin : Path.joinPieces ((n :: m :: l).map fun n => n.text.toList) =
          n.text.toList ++ '/' :: Path.joinPieces ((m :: l).map fun n => n.text.toList) := rfl
      rw [hjoin, ← ih, List.map_cons, List.map_cons, String.intercalate_cons_cons, String.toList_append,
        String.toList_append]
      simp

/-- The text of a place tells the texts of its names. -/
theorem texts_eq_of_text_eq {l l' : Location} (hne : l ≠ []) (hne' : l' ≠ [])
    (h : ∀ n ∈ l, RawPath.slash ∉ n) (h' : ∀ n ∈ l', RawPath.slash ∉ n) (heq : l.text = l'.text) :
    l.map FileName.text = l'.map FileName.text := by
  have hpieces : ∀ {l : Location}, l ≠ [] → (∀ n ∈ l, RawPath.slash ∉ n) →
      Path.pieces l.text.toList = l.map fun n => n.text.toList := by
    intro l hne h
    rw [toList_text, Path.pieces_joinPieces (by simpa using hne)]
    simp only [List.mem_map]
    rintro _ ⟨n, hn, rfl⟩
    exact FileName.slash_notMem_text (h n hn)
  have htexts := hpieces hne h
  rw [heq, hpieces hne' h'] at htexts
  have := congrArg (List.map String.ofList) htexts
  simpa [List.map_map, Function.comp_def] using this.symm

end Location

end ImageRecipe
