import ImageRecipe.Proofs.SortedMap
import ImageRecipe.Proofs.StoreFrame

/-! The backends that are open in a workshop: which one is found, what opening one does, and what the steps
that leave all images as they are have in common. -/

namespace ImageRecipe

namespace Backend

/-- The id that a tag leads to, as far as the backend itself remembers it. -/
def image? (b : Backend) (tag : String) : Option String :=
  match b with
  | mock m => m.images.get? tag
  | _ => none

/-- The store that the backend keeps its images in. -/
def store? : Backend → Option Store
  | direct s => some s
  | _ => none

theorem eq_mock {b : Backend} (h : b.kind = .mock) : ∃ m, b = mock m := by
  cases b with
  | mock m => exact ⟨m, rfl⟩
  | daemon | direct => simp [kind] at h

theorem eq_direct {b : Backend} (h : b.kind = .direct) : ∃ s, b = direct s := by
  cases b with
  | direct s => exact ⟨s, rfl⟩
  | daemon | mock => simp [kind] at h

@[simp] theorem kind_ofSettings (t : Settings) (s : Store) (k : BackendKind) : (ofSettings t s k).kind = k := by
  cases k <;> rfl

@[simp] theorem image?_ofSettings (t : Settings) (s : Store) (k : BackendKind) (tag : String) :
    (ofSettings t s k).image? tag = none := by
  cases k with
  | daemon | direct => rfl
  | mock => exact SortedMap.get?_empty tag

theorem store?_ofSettings {t : Settings} {s s' : Store} {k : BackendKind}
    (h : (ofSettings t s k).store? = some s') : s' = s := by
  cases k with
  | daemon | mock => simp [ofSettings, store?] at h
  | direct => simpa [ofSettings, store?] using h.symm

/-- Select the backend of a kind and check what must hold before it builds anything. -/
def start (t : Settings) (s : Store) (k : BackendKind) : BackendM Backend := do
  let b ← select t s k
  b.preflight

/-- A backend that is not the daemon is started without a look at the host. -/
theorem ran_start {k : BackendKind} (hk : k ≠ .daemon) (t : Settings) (s : Store) (h : Host) :
    ran (start t s k) h = (.ok (ofSettings t s k), h) := by
  cases k with
  | daemon => exact absurd rfl hk
  | direct | mock => rfl

/-- A backend that was started is the one of the settings, but for what it knows of the engine. -/
theorem yields_start {t : Settings} {s : Store} {k : BackendKind} {h h' : Host} {b : Backend}
    (hy : Yields (start t s k) h b h') :
    b.kind = k ∧ b.image? = (ofSettings t s k).image? ∧ b.store? = (ofSettings t s k).store? := by
  have hpreflight : ∀ (c : Backend) h b h', Yields c.preflight h b h' →
      b.kind = c.kind ∧ b.image? = c.image? ∧ b.store? = c.store? := by
    intro c h b h' hy
    cases c with
    | daemon d =>
      obtain ⟨_, _, -, hy⟩ := (yields_bind ..).1 hy
      obtain ⟨rfl, -⟩ := (yields_pure ..).1 hy
      exact ⟨rfl, rfl, rfl⟩
    | direct | mock =>
      obtain ⟨rfl, -⟩ := (yields_pure ..).1 hy
      exact ⟨rfl, rfl, rfl⟩
  unfold start at hy
  obtain ⟨c, h₁, hselect, hy⟩ := (yields_bind ..).1 hy
  obtain ⟨available, _, -, hselect⟩ := (yields_bind ..).1 hselect
  obtain rfl : ofSettings t s k = c := by
    split at hselect
    · obtain ⟨_, _, hthrow, -⟩ := (yields_bind ..).1 hselect
      exact (yields_throw _ _ _ _ hthrow).elim
    · exact ((yields_pure ..).1 hselect).1
  have h := hpreflight _ _ _ _ hy
  rwa [kind_ofSettings] at h

end Backend

namespace Workshop

variable {w w' : Workshop} {k : BackendKind}

theorem kind_of_backend? {b : Backend} (h : w.backend? k = some b) : b.kind = k := by
  simpa using List.find?_some h

theorem backend?_withBackend (w : Workshop) (b : Backend) (k : BackendKind) :
    (w.withBackend b).backend? k = if b.kind = k then some b else w.backend? k := by
  unfold backend? withBackend
  by_cases h : b.kind = k
  · simp [h]
  · rw [if_neg h, List.find?_cons_of_neg (by simpa using h), List.find?_filter]
    congr 1
    funext c
    by_cases hc : c.kind = k
    · simp [hc, Ne.symm h]
    · simp [hc]

/-- The id that a tag leads to among the images of the mock backend. -/
def mockImage? (w : Workshop) (tag : String) : Option String :=
  (w.backend? .mock).bind fun b => b.image? tag

theorem mockImage?_of_backend? {m : Mock} (h : w.backend? .mock = some (.mock m)) (tag : String) :
    w.mockImage? tag = m.images.get? tag := by
  unfold mockImage?
  rw [h]
  rfl

/-- The workshop has a store, and its direct backends keep their images there. -/
structure Uses (w : Workshop) (s : Store) : Prop where
  store_eq : w.store = s
  backends : ∀ b ∈ w.backends, ∀ s', b.store? = some s' → s' = s

theorem Uses.withBackend {s : Store} (h : w.Uses s) {b : Backend} (hb : ∀ s', b.store? = some s' → s' = s) :
    (w.withBackend b).Uses s where
  store_eq := h.store_eq
  backends := by
    intro c hc
    rcases List.mem_cons.1 hc with rfl | hc
    · exact hb
    · exact h.backends c (List.mem_filter.1 hc).1

theorem Uses.backend? {s : Store} (h : w.Uses s) {b : Backend} (hb : w.backend? k = some b) :
    ∀ s', b.store? = some s' → s' = s := h.backends b (List.mem_of_find?_eq_some hb)

theorem Uses.direct {s : Store} (h : w.Uses s) {b : Backend} (hb : w.backend? .direct = some b) :
    b = .direct s := by
  obtain ⟨s', rfl⟩ := Backend.eq_direct (kind_of_backend? hb)
  rw [h.backend? hb s' rfl]

theorem mockImage?_withBackend {b : Backend} (hb : ∀ tag, b.kind = .mock → b.image? tag = w.mockImage? tag) :
    (w.withBackend b).mockImage? = w.mockImage? := by
  funext tag
  unfold mockImage?
  rw [backend?_withBackend]
  split
  · next h => exact hb tag h
  · rfl

/-- What opening a backend does: the one that is open is found, or a new one is started. -/
theorem ran_openBackend (k : BackendKind) (w : Workshop) :
    ran (openBackend k) w = match w.backend? k with
      | some b => (.ok b, w)
      | none => match ran (Backend.start w.settings w.store k) w.host with
        | (.ok b, host) => (.ok b, { w with host }.withBackend b)
        | (.error e, host) => (.error (.backend e), { w with host }) := by
  unfold openBackend
  rw [ran_bind, ran_get]
  dsimp only
  cases w.backend? k with
  | some b => rfl
  | none =>
    change ran (onHost .backend (Backend.start w.settings w.store k) >>= fun b => _) w = _
    rw [ran_bind, ran_onHost]
    rcases ran (Backend.start w.settings w.store k) w.host with ⟨_ | b, host⟩ <;> rfl

end Workshop

end ImageRecipe
