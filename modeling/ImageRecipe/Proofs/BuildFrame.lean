import ImageRecipe.Proofs.EngineCalls

/-! How workshops change by steps within a frame, and the steps that moreover leave the images of the mock
backend as they are. -/

namespace ImageRecipe.Workshop

open Host (SameFiles)

variable {s : Store} {f : Store.Frame}

/-- A workshop that uses a store comes out of another one by steps within a frame. -/
structure Evolves (s : Store) (f : Store.Frame) (w w' : Workshop) : Prop where
  settings : w'.settings = w.settings
  uses : w'.Uses s
  host : s.Evolves f w.host w'.host

namespace Evolves

variable {w w' w'' : Workshop}

theorem refl (h : w.Uses s) : Evolves s f w w := ⟨rfl, h, Std.Refl.refl w.host⟩

theorem trans (h : Evolves s f w w') (h' : Evolves s f w' w'') : Evolves s f w w'' where
  settings := h'.settings.trans h.settings
  uses := h'.uses
  host := IsTrans.trans _ _ _ h.host h'.host

theorem onHost (h : w.Uses s) {host : Host} (hh : s.Evolves f w.host host) :
    Evolves s f w { w with host } := ⟨rfl, ⟨h.store_eq, h.backends⟩, hh⟩

theorem withBackend (h : w.Uses s) {b : Backend} (hb : ∀ s', b.store? = some s' → s' = s) :
    Evolves s f w (w.withBackend b) := ⟨rfl, h.withBackend hb, Std.Refl.refl w.host⟩

theorem plain (h : Evolves s f w w') (hp : s.Plain w.host) : s.Plain w'.host :=
  hp.evolves h.host

end Evolves

/-- The steps of workshops that use a store keep to a frame. -/
def Works (s : Store) (f : Store.Frame) (w w' : Workshop) : Prop := w.Uses s → Evolves s f w w'

instance (f : Store.Frame) : Std.Refl (Works s f) where
  refl _ hs := .refl hs

instance (f : Store.Frame) : IsTrans Workshop (Works s f) where
  trans _ _ _ h h' hs := (h hs).trans (h' (h hs).uses)

/-- The steps of workshops that use a store keep to a frame, and leave the session and the mock backend's
images as they are. -/
def Idles (s : Store) (f : Store.Frame) (w w' : Workshop) : Prop :=
  w.Uses s → Evolves s f w w' ∧ w'.session = w.session ∧ w'.mockImage? = w.mockImage?

instance (f : Store.Frame) : Std.Refl (Idles s f) where
  refl _ hs := ⟨.refl hs, rfl, rfl⟩

instance (f : Store.Frame) : IsTrans Workshop (Idles s f) where
  trans _ _ _ h h' hs := by
    obtain ⟨he, hn, hi⟩ := h hs
    obtain ⟨he', hn', hi'⟩ := h' he.uses
    exact ⟨he.trans he', hn'.trans hn, hi'.trans hi⟩

variable {ε α : Type} {k : BackendKind}

theorem Idles.works {x : BuildM α} (hx : Keeps (Idles s f) x) : Keeps (Works s f) x :=
  hx.mono fun _ _ h hs => (h hs).1

theorem keeps_onHost {x : HostM ε α} (hx : Keeps (s.Evolves f) x) (wrap : ε → BuildError) :
    Keeps (Idles s f) (onHost wrap x) := by
  constructor
  intro w hs
  rw [ran_onHost]
  exact ⟨.onHost hs (hx.run w.host), rfl, rfl⟩

/-- Recording an image touches neither the files nor the backends. -/
theorem keeps_register (project : String) (x : BuildResult) : Keeps (Works s f) (register project x) := by
  constructor
  intro w hs
  unfold register
  simp only [ran_bind, ran_get, ran_workshopOfExcept]
  cases w.session.register project x with
  | error e => exact .refl hs
  | ok session => exact ⟨rfl, ⟨hs.store_eq, hs.backends⟩, Std.Refl.refl w.host⟩

theorem keeps_ofExcept (wrap : ε → BuildError) (x : Except ε α) : Keeps (Idles s f) (ofExcept wrap x) := by
  constructor
  intro w
  rw [ran_workshopOfExcept]
  exact Std.Refl.refl w

/-- What is done with a value that was computed may count on how it was computed. -/
theorem keeps_ofExcept_bind {β : Type} {wrap : ε → BuildError} {x : Except ε α} {g : α → BuildM β}
    (hg : ∀ a, x = .ok a → Keeps (Idles s f) (g a)) : Keeps (Idles s f) (ofExcept wrap x >>= g) := by
  constructor
  intro w
  apply Keeps.bind_at ((keeps_ofExcept wrap x).run w)
  intro a w' hy
  obtain ⟨hx, rfl⟩ := (yields_workshopOfExcept ..).1 hy
  exact (hg a hx).run w

/-- What is done after a look at the workshop may count on the store that is seen. -/
theorem keeps_get {g : Workshop → BuildM α} (hg : ∀ w, w.store = s → Keeps (Idles s f) (g w)) :
    Keeps (Idles s f) (get >>= g) := by
  constructor
  intro w hs
  rw [ran_bind, ran_get]
  exact (hg w hs.store_eq).run w hs

private theorem mockImage?_start {w : Workshop} {h h' : Host} {b : Backend} (hnone : w.backend? k = none)
    (hb : Yields (Backend.start w.settings w.store k) h b h') :
    (w.withBackend b).mockImage? = w.mockImage? := by
  obtain ⟨hkind, himage, -⟩ := Backend.yields_start hb
  apply mockImage?_withBackend
  intro tag hm
  rw [hkind] at hm
  unfold mockImage?
  rw [himage, Backend.image?_ofSettings, ← hm, hnone]
  rfl

private theorem uses_start {w : Workshop} (hs : w.Uses s) {h h' : Host} {b : Backend}
    (hb : Yields (Backend.start w.settings w.store k) h b h') : ({ w with host := h' }.withBackend b).Uses s := by
  have hhost : { w with host := h' }.Uses s := ⟨hs.store_eq, hs.backends⟩
  refine hhost.withBackend fun s' h => ?_
  rw [(Backend.yields_start hb).2.2] at h
  rw [← hs.store_eq]
  exact Backend.store?_ofSettings h

theorem keeps_openBackend (k : BackendKind) : Keeps (Idles s f) (openBackend k) := by
  constructor
  intro w hs
  rw [ran_openBackend]
  cases hb : w.backend? k with
  | some b => exact ⟨.refl hs, rfl, rfl⟩
  | none =>
    have hsame := (Backend.sameFiles_start w.settings w.store k).run w.host
    rcases hrun : ran (Backend.start w.settings w.store k) w.host with ⟨e | b, host⟩
    · rw [hrun] at hsame
      exact ⟨.onHost hs (Store.evolves_of_sameFiles hsame), rfl, rfl⟩
    · rw [hrun] at hsame
      exact ⟨⟨rfl, uses_start hs hrun, Store.evolves_of_sameFiles hsame⟩, rfl, mockImage?_start hb hrun⟩

/-- A workshop after the backend of a kind was asked for: it is open, and nothing else has changed but the
files that its actions changed. -/
structure Opens (k : BackendKind) (b : Backend) (w w' : Workshop) : Prop where
  backend : w'.backend? k = some b
  mockImage : w'.mockImage? = w.mockImage?
  session : w'.session = w.session
  uses : ∀ s, w.Uses s → w'.Uses s

theorem yields_openBackend {w w' : Workshop} {b : Backend} (h : Yields (openBackend k) w b w') :
    Opens k b w w' ∧ SameFiles w.host w'.host := by
  unfold Yields at h
  rw [ran_openBackend] at h
  cases hb : w.backend? k with
  | some c =>
    simp only [hb, Prod.mk.injEq, Except.ok.injEq] at h
    obtain ⟨rfl, rfl⟩ := h
    exact ⟨⟨hb, rfl, rfl, fun _ => id⟩, refl _⟩
  | none =>
    have hsame := (Backend.sameFiles_start w.settings w.store k).run w.host
    rcases hrun : ran (Backend.start w.settings w.store k) w.host with ⟨e | c, host⟩
    · simp [hb, hrun] at h
    · simp only [hb, hrun, Prod.mk.injEq, Except.ok.injEq] at h
      obtain ⟨rfl, rfl⟩ := h
      rw [hrun] at hsame
      refine ⟨⟨?_, mockImage?_start hb hrun, rfl, fun s hs => uses_start hs hrun⟩, hsame⟩
      rw [backend?_withBackend, (Backend.yields_start hrun).1, if_pos rfl]

/-- A backend that is not the daemon is opened without a look at the host. -/
theorem host_openBackend (hk : k ≠ .daemon) {w w' : Workshop} {b : Backend}
    (h : Yields (openBackend k) w b w') : w'.host = w.host := by
  unfold Yields at h
  rw [ran_openBackend] at h
  cases hb : w.backend? k with
  | some c =>
    simp only [hb, Prod.mk.injEq, Except.ok.injEq] at h
    rw [h.2]
  | none =>
    simp only [hb, Backend.ran_start hk, Prod.mk.injEq, Except.ok.injEq] at h
    rw [← h.2]
    rfl

/-- What an action of the backend of a kind yields, the open backend yields from a host with the same files. -/
theorem yields_withOpen_opened {x : Backend → BackendM α} {w w' : Workshop} {a : α}
    (h : Yields (withOpen k x) w a w') :
    ∃ b host, Opens k b w w' ∧ SameFiles w.host host ∧ (k ≠ .daemon → host = w.host) ∧ Yields (x b) host a w'.host := by
  unfold withOpen at h
  obtain ⟨b, w₁, hb, hrest⟩ := (yields_bind ..).1 h
  obtain ⟨host, hrun, rfl⟩ := (yields_onHost ..).1 hrest
  obtain ⟨ho, hsame⟩ := yields_openBackend hb
  refine ⟨b, w₁.host, ⟨ho.backend, ho.mockImage, ho.session, fun s hs => ?_⟩, hsame,
    fun hk => host_openBackend hk hb, hrun⟩
  exact ⟨(ho.uses s hs).store_eq, (ho.uses s hs).backends⟩

theorem yields_withOpen (hk : k ≠ .daemon) {x : Backend → BackendM α} {w w' : Workshop} {a : α}
    (h : Yields (withOpen k x) w a w') : ∃ b, Opens k b w w' ∧ Yields (x b) w.host a w'.host := by
  obtain ⟨b, host, hopen, -, hhost, hrun⟩ := yields_withOpen_opened h
  rw [hhost hk] at hrun
  exact ⟨b, hopen, hrun⟩

/-- An action of the backend of a kind keeps to a frame from a workshop if it does from every host with the
same files. -/
theorem idles_withOpen {x : Backend → BackendM α} {w : Workshop}
    (hx : ∀ b h, b.kind = k → (∀ s', b.store? = some s' → s' = s) → SameFiles w.host h →
      s.Evolves f h (ran (x b) h).2) : Idles s f w (ran (withOpen k x) w).2 := by
  unfold withOpen
  apply Keeps.bind_at ((keeps_openBackend k).run w)
  intro b w' hb hs
  obtain ⟨ho, hsame⟩ := yields_openBackend hb
  rw [ran_onHost]
  exact ⟨.onHost hs (hx b w'.host (kind_of_backend? ho.backend) (hs.backend? ho.backend) hsame), rfl, rfl⟩

theorem keeps_withOpen {x : Backend → BackendM α}
    (hx : ∀ b, b.kind = k → (∀ s', b.store? = some s' → s' = s) → Keeps (s.Evolves f) (x b)) :
    Keeps (Idles s f) (withOpen k x) :=
  ⟨fun _ => idles_withOpen fun b h hb hs _ => (hx b hb hs).run h⟩

section Changing

variable {x : Backend → BackendM (α × Backend)}

/-- What an action that may change the backend of a kind yields, the open backend yields, and it is put
back as it is then. -/
theorem yields_changing_opened {w w' : Workshop} {a : α} (h : Yields (changing k x) w a w') :
    ∃ (b b' : Backend) (host : Host) (w₁ : Workshop), Opens k b w w₁ ∧ (k ≠ .daemon → host = w.host) ∧
      Yields (x b) host (a, b') w₁.host ∧ w' = w₁.withBackend b' := by
  unfold changing at h
  obtain ⟨⟨a', b'⟩, w₁, hy, hrest⟩ := (yields_bind ..).1 h
  obtain ⟨_, _, hmod, hpure⟩ := (yields_bind ..).1 hrest
  obtain rfl := (yields_modify ..).1 hmod
  obtain ⟨rfl, rfl⟩ := (yields_pure ..).1 hpure
  obtain ⟨b, host, hopen, -, hhost, hrun⟩ := yields_withOpen_opened hy
  exact ⟨b, b', host, w₁, hopen, hhost, hrun, rfl⟩

theorem yields_changing (hk : k ≠ .daemon) {w w' : Workshop} {a : α} (h : Yields (changing k x) w a w') :
    ∃ (b b' : Backend) (w₁ : Workshop), Opens k b w w₁ ∧ Yields (x b) w.host (a, b') w₁.host ∧
      w' = w₁.withBackend b' := by
  obtain ⟨b, b', host, w₁, hopen, hhost, hrun, hw⟩ := yields_changing_opened h
  rw [hhost hk] at hrun
  exact ⟨b, b', w₁, hopen, hrun, hw⟩

private theorem ran_changing (w : Workshop) : ran (changing k x) w = match ran (withOpen k x) w with
    | (.ok (a, b), w') => (.ok a, w'.withBackend b)
    | (.error e, w') => (.error e, w') := by
  unfold changing
  rw [ran_bind]
  rcases ran (withOpen k x) w with ⟨_ | ⟨a, b⟩, w'⟩ <;> rfl

/-- What an action of a backend that is not the daemon does to the host, the open backend does. -/
theorem host_changing (hk : k ≠ .daemon) (w : Workshop) :
    ∃ b w₁, Opens k b w w₁ ∧ (ran (changing k x) w).2.host = (ran (x b) w.host).2 := by
  obtain ⟨b, w₁, hb⟩ : ∃ b w₁, Yields (openBackend k) w b w₁ := by
    unfold Yields
    rw [ran_openBackend]
    cases w.backend? k with
    | some b => exact ⟨b, w, rfl⟩
    | none =>
      rw [Backend.ran_start hk]
      exact ⟨_, _, rfl⟩
  refine ⟨b, w₁, (yields_openBackend hb).1, ?_⟩
  have hhost := host_openBackend hk hb
  rw [ran_changing]
  unfold withOpen
  rw [ran_bind, show ran (openBackend k) w = (.ok b, w₁) from hb]
  dsimp only
  rw [ran_onHost, hhost]
  rcases ran (x b) w.host with ⟨_ | ⟨a, b'⟩, h⟩ <;> rfl

/-- An action that gives the backend back with the store that it had. -/
theorem works_changing {w : Workshop}
    (hx : ∀ b h, b.kind = k → (∀ s', b.store? = some s' → s' = s) → SameFiles w.host h →
      s.Evolves f h (ran (x b) h).2)
    (hsame : ∀ b h a b' h', Yields (x b) h (a, b') h' → b'.store? = b.store?) :
    Works s f w (ran (changing k x) w).2 := by
  intro hs
  have hw := (idles_withOpen hx hs).1
  rw [ran_changing]
  rcases hy : ran (withOpen k x) w with ⟨_ | ⟨a, b'⟩, w₁⟩
  · simpa [hy] using hw
  · rw [hy] at hw
    obtain ⟨b, host, hopen, -, -, hrun⟩ := yields_withOpen_opened hy
    refine hw.trans (.withBackend hw.uses fun s' h' => ?_)
    rw [hsame _ _ _ _ _ hrun] at h'
    exact hw.uses.backend? hopen.backend s' h'

theorem keeps_changing_works
    (hx : ∀ b, b.kind = k → (∀ s', b.store? = some s' → s' = s) → Keeps (s.Evolves f) (x b))
    (hsame : ∀ b h a b' h', Yields (x b) h (a, b') h' → b'.store? = b.store?) :
    Keeps (Works s f) (changing k x) :=
  ⟨fun _ => works_changing (fun b h hb hs _ => (hx b hb hs).run h) hsame⟩

/-- An action that gives the backend back with the store and with the images that it had. -/
theorem keeps_changing
    (hx : ∀ b, b.kind = k → (∀ s', b.store? = some s' → s' = s) → Keeps (s.Evolves f) (x b))
    (hsame : ∀ b h a b' h', Yields (x b) h (a, b') h' →
      b'.kind = b.kind ∧ b'.image? = b.image? ∧ b'.store? = b.store?) :
    Keeps (Idles s f) (changing k x) := by
  constructor
  intro w hs
  refine ⟨(keeps_changing_works hx fun b h a b' h' hy => (hsame b h a b' h' hy).2.2).run w hs, ?_⟩
  obtain ⟨-, hsession, hw⟩ := (keeps_withOpen hx).run w hs
  rw [ran_changing]
  rcases hy : ran (withOpen k x) w with ⟨_ | ⟨a, b'⟩, w₁⟩
  · rw [hy] at hsession hw
    exact ⟨hsession, hw⟩
  · rw [hy] at hsession hw
    obtain ⟨b, host, ho, -, -, hrun⟩ := yields_withOpen_opened hy
    have hopen := ho.backend
    obtain ⟨hkind, himage, -⟩ := hsame _ _ _ _ _ hrun
    refine ⟨hsession, (mockImage?_withBackend fun tag hm => ?_).trans hw⟩
    rw [himage]
    unfold mockImage?
    rw [hkind, kind_of_backend? hopen] at hm
    rw [hm] at hopen
    exact (congrArg (Option.bind · fun b => b.image? tag) hopen).symm

end Changing

end ImageRecipe.Workshop
