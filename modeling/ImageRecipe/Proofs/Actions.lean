import Mathlib.Order.Defs.Unbundled
import ImageRecipe.Build.Workshop

/-! What actions come to. An action that may fail is followed through the values that it yields; what it
does to its state, failed or not, is followed through relations that its runs keep to. -/

namespace ImageRecipe

/-- An outcome of two steps in a row comes out of an outcome of the first. -/
theorem bind_eq_ok {ε α β : Type} {x : Except ε α} {f : α → Except ε β} {b : β} :
    x >>= f = .ok b ↔ ∃ a, x = .ok a ∧ f a = .ok b := by
  cases x with
  | error e => simp [bind, Except.bind]
  | ok a => simp [bind, Except.bind]

/-- An outcome that is mapped comes out of an outcome. -/
theorem map_eq_ok {ε α β : Type} {x : Except ε α} {f : α → β} {b : β} :
    x.map f = .ok b ↔ ∃ a, x = .ok a ∧ f a = b := by
  cases x <;> simp [Except.map]

/-- An error of two steps in a row is one of the first, or one of the second after an outcome of the first. -/
theorem bind_eq_error {ε α β : Type} {x : Except ε α} {f : α → Except ε β} {e : ε} :
    x >>= f = .error e ↔ x = .error e ∨ ∃ a, x = .ok a ∧ f a = .error e := by
  cases x with
  | error e' => simp [bind, Except.bind]
  | ok a => simp [bind, Except.bind]

theorem map_eq_error {ε α β : Type} {x : Except ε α} {f : α → β} {e : ε} :
    x.map f = .error e ↔ x = .error e := by
  cases x <;> simp [Except.map]

@[simp] theorem mapError_ok {ε δ α : Type} (f : ε → δ) (a : α) : (.ok a : Except ε α).mapError f = .ok a := rfl

@[simp] theorem mapError_error {ε δ α : Type} (f : ε → δ) (e : ε) :
    (.error e : Except ε α).mapError f = .error (f e) := rfl

theorem mapError_eq_ok {ε δ α : Type} {x : Except ε α} {f : ε → δ} {a : α} :
    x.mapError f = .ok a ↔ x = .ok a := by
  cases x <;> simp

theorem mapError_eq_error {ε δ α : Type} {x : Except ε α} {f : ε → δ} {e : δ} :
    x.mapError f = .error e ↔ ∃ e', x = .error e' ∧ f e' = e := by
  cases x <;> simp

theorem exists_of_isOk {ε α : Type} {x : Except ε α} (h : x.isOk = true) : ∃ a, x = .ok a := by
  cases x with
  | error e => simp [Except.isOk, Except.toBool] at h
  | ok a => exact ⟨a, rfl⟩

section Runs

variable {σ ε δ α β : Type}

/-- The outcome of an action from a state, and the state that it leaves. -/
def ran (x : ExceptT ε (StateM σ) α) (s : σ) : Except ε α × σ := x.run.run s

/-- An action gives a value from a state and leaves a state. -/
def Yields (x : ExceptT ε (StateM σ) α) (s : σ) (a : α) (s' : σ) : Prop := ran x s = (.ok a, s')

@[simp] theorem ran_pure (a : α) (s : σ) :
    ran (pure a : ExceptT ε (StateM σ) α) s = (.ok a, s) := rfl

@[simp] theorem ran_throw (e : ε) (s : σ) :
    ran (throw e : ExceptT ε (StateM σ) α) s = (.error e, s) := rfl

@[simp] theorem ran_get (s : σ) : ran (get : ExceptT ε (StateM σ) σ) s = (.ok s, s) := rfl

@[simp] theorem ran_set (s s' : σ) :
    ran (set s' : ExceptT ε (StateM σ) PUnit) s = (.ok ⟨⟩, s') := rfl

@[simp] theorem ran_modify (f : σ → σ) (s : σ) :
    ran (modify f : ExceptT ε (StateM σ) PUnit) s = (.ok ⟨⟩, f s) := rfl

theorem ran_bind (x : ExceptT ε (StateM σ) α) (f : α → ExceptT ε (StateM σ) β) (s : σ) :
    ran (x >>= f) s = match ran x s with
      | (.ok a, s') => ran (f a) s'
      | (.error e, s') => (.error e, s') := by
  unfold ran
  rw [ExceptT.run_bind, StateT.run_bind]
  rcases h : x.run.run s with ⟨_ | a, s'⟩ <;> rfl

@[simp] theorem yields_pure (a b : α) (s s' : σ) :
    Yields (pure a : ExceptT ε (StateM σ) α) s b s' ↔ a = b ∧ s = s' := by
  simp [Yields]

@[simp] theorem yields_throw (e : ε) (a : α) (s s' : σ) :
    ¬ Yields (throw e : ExceptT ε (StateM σ) α) s a s' := by
  simp [Yields]

@[simp] theorem yields_get (s a s' : σ) :
    Yields (get : ExceptT ε (StateM σ) σ) s a s' ↔ s = a ∧ s = s' := by
  simp [Yields]

@[simp] theorem yields_set (t s s' : σ) (u : PUnit) :
    Yields (set t : ExceptT ε (StateM σ) PUnit) s u s' ↔ t = s' := by
  simp [Yields]

@[simp] theorem yields_modify (f : σ → σ) (s s' : σ) (u : PUnit) :
    Yields (modify f : ExceptT ε (StateM σ) PUnit) s u s' ↔ f s = s' := by
  simp [Yields]

/-- A value comes out of two actions in a row by way of a value of the first. -/
theorem yields_bind (x : ExceptT ε (StateM σ) α) (f : α → ExceptT ε (StateM σ) β) (s : σ) (b : β)
    (s' : σ) : Yields (x >>= f) s b s' ↔ ∃ a t, Yields x s a t ∧ Yields (f a) t b s' := by
  unfold Yields
  rw [ran_bind]
  rcases h : ran x s with ⟨_ | a, t⟩
  · simp
  · constructor
    · intro hf
      exact ⟨a, t, rfl, hf⟩
    · rintro ⟨a', t', heq, hf⟩
      cases heq
      exact hf

/-- Two actions in a row fail when the first does, or when the second does after a value of the first. -/
theorem ran_bind_eq_error {x : ExceptT ε (StateM σ) α} {f : α → ExceptT ε (StateM σ) β} {s s' : σ} {e : ε} :
    ran (x >>= f) s = (.error e, s') ↔
      ran x s = (.error e, s') ∨ ∃ a t, Yields x s a t ∧ ran (f a) t = (.error e, s') := by
  unfold Yields
  rw [ran_bind]
  rcases ran x s with ⟨_ | a, t⟩
  · simp
  · constructor
    · intro hf
      exact .inr ⟨a, t, rfl, hf⟩
    · rintro (h | ⟨a', t', heq, hf⟩)
      · cases h
      · cases heq
        exact hf

/-- An action that follows one that yields a value goes on from there. -/
theorem Yields.ran_bind {x : ExceptT ε (StateM σ) α} {s s' : σ} {a : α} (h : Yields x s a s')
    (f : α → ExceptT ε (StateM σ) β) : ran (x >>= f) s = ran (f a) s' := by
  rw [ImageRecipe.ran_bind, show ran x s = (.ok a, s') from h]

/-- What an action yields is decided by the state that it starts from. -/
theorem Yields.unique {x : ExceptT ε (StateM σ) α} {s s₁ s₂ : σ} {a₁ a₂ : α}
    (h₁ : Yields x s a₁ s₁) (h₂ : Yields x s a₂ s₂) : a₁ = a₂ ∧ s₁ = s₂ := by
  have h := h₁.symm.trans h₂
  simpa using h

/-- An action with an outcome that is no error yields it. -/
theorem exists_yields {x : ExceptT ε (StateM σ) α} {s : σ} {a : α} (h : (ran x s).1 = .ok a) :
    ∃ s', Yields x s a s' := ⟨(ran x s).2, Prod.ext h rfl⟩

theorem yields_mapM_nil (f : α → ExceptT ε (StateM σ) β) (s : σ) (bs : List β) (s' : σ) :
    Yields (([] : List α).mapM f) s bs s' ↔ bs = [] ∧ s = s' := by
  simp [eq_comm]

theorem yields_mapM_cons (f : α → ExceptT ε (StateM σ) β) (a : α) (l : List α) (s : σ) (bs : List β)
    (s' : σ) : Yields ((a :: l).mapM f) s bs s' ↔
      ∃ b t bs', Yields (f a) s b t ∧ Yields (l.mapM f) t bs' s' ∧ bs = b :: bs' := by
  rw [List.mapM_cons, yields_bind]
  constructor
  · rintro ⟨b, t, hb, h⟩
    obtain ⟨bs', t', hbs, h⟩ := (yields_bind ..).1 h
    obtain ⟨rfl, rfl⟩ := (yields_pure ..).1 h
    exact ⟨b, t, bs', hb, hbs, rfl⟩
  · rintro ⟨b, t, bs', hb, hbs, rfl⟩
    exact ⟨b, t, hb, (yields_bind ..).2 ⟨bs', s', hbs, by simp⟩⟩

/-- An action that for each element of a list yields what a function says, and changes nothing. -/
theorem yields_mapM_map {f : α → ExceptT ε (StateM σ) β} {g : α → β} {s : σ} :
    ∀ {l : List α}, (∀ a ∈ l, Yields (f a) s (g a) s) → Yields (l.mapM f) s (l.map g) s
  | [], _ => (yields_mapM_nil ..).2 ⟨rfl, rfl⟩
  | a :: _, h => (yields_mapM_cons ..).2
    ⟨g a, s, _, h a List.mem_cons_self, yields_mapM_map fun b hb => h b (.tail _ hb), rfl⟩

end Runs

section Host

variable {ε δ α : Type}

@[simp] theorem ran_failingAs (wrap : δ → ε) (x : HostM δ α) (h : Host) :
    ran (x.failingAs wrap) h = ((ran x h).1.mapError wrap, (ran x h).2) := by
  unfold ran HostM.failingAs
  rw [ExceptT.run_adapt]
  rfl

@[simp] theorem ran_outcome (x : HostM ε α) (h : Host) :
    ran (x.outcome : HostM δ (Except ε α)) h = (.ok (ran x h).1, (ran x h).2) := rfl

@[simp] theorem ran_ofExcept (x : Except ε α) (h : Host) : ran (HostM.ofExcept x) h = (x, h) := by
  cases x <;> rfl

@[simp] theorem ran_look (f : FileTree → Location → String → α) (path : String) (h : Host) :
    ran (Host.look f path : HostM ε α) h = (.ok (f h.files h.directory path), h) := rfl

@[simp] theorem ran_inspect (f : FileTree → Location → String → Except Fault α) (path : String)
    (h : Host) : ran (Host.inspect f path) h = (f h.files h.directory path, h) := by
  unfold Host.inspect
  simp [ran_bind]

@[simp] theorem ran_change (f : FileTree → Location → String → Except Fault FileTree) (path : String)
    (h : Host) : ran (Host.change f path) h = match f h.files h.directory path with
      | .ok files => (.ok (), { h with files })
      | .error e => (.error e, h) := by
  unfold Host.change
  cases hf : f h.files h.directory path <;> simp [ran_bind, hf]

@[simp] theorem yields_failingAs (wrap : δ → ε) (x : HostM δ α) (h : Host) (a : α) (h' : Host) :
    Yields (x.failingAs wrap) h a h' ↔ Yields x h a h' := by
  unfold Yields
  rw [ran_failingAs]
  rcases ran x h with ⟨_ | b, t⟩ <;> simp

@[simp] theorem yields_onFiles (x : HostM Fault α) (h : Host) (a : α) (h' : Host) :
    Yields (Store.onFiles x) h a h' ↔ Yields x h a h' := yields_failingAs ..

@[simp] theorem yields_ofExcept (x : Except ε α) (h : Host) (a : α) (h' : Host) :
    Yields (HostM.ofExcept x) h a h' ↔ x = .ok a ∧ h = h' := by
  simp [Yields]

@[simp] theorem yields_look (f : FileTree → Location → String → α) (path : String) (h : Host) (a : α)
    (h' : Host) :
    Yields (Host.look f path : HostM ε α) h a h' ↔ f h.files h.directory path = a ∧ h = h' := by
  simp [Yields]

@[simp] theorem yields_inspect (f : FileTree → Location → String → Except Fault α) (path : String)
    (h : Host) (a : α) (h' : Host) :
    Yields (Host.inspect f path) h a h' ↔ f h.files h.directory path = .ok a ∧ h = h' := by
  simp [Yields]

@[simp] theorem yields_now {h h' : Host} {t : Instant} :
    Yields (Host.now : HostM ε Instant) h t h' ↔ h.clock = t ∧ h = h' := by
  have hrun : ran (Host.now : HostM ε Instant) h = (.ok h.clock, h) := rfl
  simp [Yields, hrun]

@[simp] theorem yields_change (f : FileTree → Location → String → Except Fault FileTree) (path : String)
    (h : Host) (u : Unit) (h' : Host) : Yields (Host.change f path) h u h' ↔
      ∃ files, f h.files h.directory path = .ok files ∧ { h with files } = h' := by
  unfold Yields
  rw [ran_change]
  cases f h.files h.directory path <;> simp

end Host

section Workshop

variable {ε α : Type}

@[simp] theorem ran_onHost (wrap : ε → BuildError) (x : HostM ε α) (w : Workshop) :
    ran (Workshop.onHost wrap x) w =
      ((ran x w.host).1.mapError wrap, { w with host := (ran x w.host).2 }) := by
  unfold Workshop.onHost
  rw [ran_bind, ran_get]
  unfold ran
  simp only
  generalize x.run.run w.host = p
  rcases p with ⟨_ | a, host⟩ <;> rfl

@[simp] theorem ran_workshopOfExcept (wrap : ε → BuildError) (x : Except ε α) (w : Workshop) :
    ran (Workshop.ofExcept wrap x) w = (x.mapError wrap, w) := by
  cases x <;> rfl

@[simp] theorem yields_onHost (wrap : ε → BuildError) (x : HostM ε α) (w : Workshop) (a : α)
    (w' : Workshop) : Yields (Workshop.onHost wrap x) w a w' ↔
      ∃ host, Yields x w.host a host ∧ { w with host } = w' := by
  unfold Yields
  rw [ran_onHost]
  rcases ran x w.host with ⟨_ | b, host⟩
  · simp
  · simp [and_assoc]

@[simp] theorem yields_workshopOfExcept (wrap : ε → BuildError) (x : Except ε α) (w : Workshop) (a : α)
    (w' : Workshop) : Yields (Workshop.ofExcept wrap x) w a w' ↔ x = .ok a ∧ w = w' := by
  unfold Yields
  rw [ran_workshopOfExcept]
  cases x <;> simp

end Workshop

/-! Relations between the states before and after an action that hold of every run. -/

/-- Every run of an action, failed or not, keeps to a relation between the states before and after. -/
structure Keeps {σ ε α : Type} (R : σ → σ → Prop) (x : ExceptT ε (StateM σ) α) : Prop where
  run : ∀ s, R s (ran x s).2

namespace Keeps

section

variable {σ ε δ α β : Type} {R : σ → σ → Prop}

theorem ends {x : ExceptT ε (StateM σ) α} (hx : Keeps R x) {s s' : σ} {o : Except ε α} (h : ran x s = (o, s')) :
    R s s' := by
  have := hx.run s
  rwa [h] at this

theorem yields {x : ExceptT ε (StateM σ) α} (hx : Keeps R x) {s s' : σ} {a : α}
    (h : Yields x s a s') : R s s' := hx.ends h

theorem pure [Std.Refl R] (a : α) : Keeps R (pure a : ExceptT ε (StateM σ) α) := ⟨fun s => refl s⟩

theorem throw [Std.Refl R] (e : ε) : Keeps R (throw e : ExceptT ε (StateM σ) α) := ⟨fun s => refl s⟩

theorem get [Std.Refl R] : Keeps R (get : ExceptT ε (StateM σ) σ) := ⟨fun s => refl s⟩

/-- Two actions in a row, where the second is known to keep to the relation after a value of the first. -/
theorem bind_at [IsTrans σ R] {x : ExceptT ε (StateM σ) α} {f : α → ExceptT ε (StateM σ) β} {s : σ}
    (hx : R s (ran x s).2) (hf : ∀ a t, Yields x s a t → R t (ran (f a) t).2) :
    R s (ran (x >>= f) s).2 := by
  rw [ran_bind]
  rcases h : ran x s with ⟨_ | a, t⟩
  · simpa [h] using hx
  · rw [h] at hx
    exact IsTrans.trans _ _ _ hx (hf a t h)

theorem bind [IsTrans σ R] {x : ExceptT ε (StateM σ) α} {f : α → ExceptT ε (StateM σ) β}
    (hx : Keeps R x) (hf : ∀ a, Keeps R (f a)) : Keeps R (x >>= f) :=
  ⟨fun s => bind_at (hx.run s) fun a t _ => (hf a).run t⟩

/-- An action that is done under a condition before others. -/
theorem when [IsTrans σ R] {c : Prop} [Decidable c] {x : ExceptT ε (StateM σ) α}
    {k : α → ExceptT ε (StateM σ) β} {y : ExceptT ε (StateM σ) β} (hx : Keeps R x)
    (hk : ∀ a, Keeps R (k a)) (hy : Keeps R y) : Keeps R (if c then x >>= k else y) := by
  split
  · exact hx.bind hk
  · exact hy

theorem mono {R' : σ → σ → Prop} {x : ExceptT ε (StateM σ) α} (hx : Keeps R x)
    (h : ∀ s s', R s s' → R' s s') : Keeps R' x := ⟨fun s => h _ _ (hx.run s)⟩

/-- An action that changes nothing keeps to every relation that a state has to itself. -/
theorem of_eq [Std.Refl R] {x : ExceptT ε (StateM σ) α} (hx : Keeps Eq x) : Keeps R x :=
  hx.mono fun s _ h => h ▸ refl s

theorem mapM [Std.Refl R] [IsTrans σ R] {f : α → ExceptT ε (StateM σ) β} :
    ∀ l : List α, (∀ a ∈ l, Keeps R (f a)) → Keeps R (l.mapM f)
  | [], _ => by
    rw [List.mapM_nil]
    exact Keeps.pure _
  | a :: l, hf => by
    rw [List.mapM_cons]
    apply Keeps.bind (hf a (by simp))
    intro b
    apply Keeps.bind (Keeps.mapM l fun c hc => hf c (by simp [hc]))
    intro bs
    exact Keeps.pure _

theorem foldlM [Std.Refl R] [IsTrans σ R] {f : β → α → ExceptT ε (StateM σ) β} (hf : ∀ b a, Keeps R (f b a)) :
    ∀ (l : List α) (b : β), Keeps R (l.foldlM f b)
  | [], _ => by
    rw [List.foldlM_nil]
    exact Keeps.pure _
  | a :: l, b => by
    rw [List.foldlM_cons]
    exact (hf b a).bind fun c => Keeps.foldlM hf l c

end

section Host

variable {ε δ α : Type} {R : Host → Host → Prop}

theorem failingAs {x : HostM δ α} (hx : Keeps R x) (wrap : δ → ε) : Keeps R (x.failingAs wrap) := by
  constructor
  intro h
  rw [ran_failingAs]
  exact hx.run h

theorem onFiles {x : HostM Fault α} (hx : Keeps R x) : Keeps R (Store.onFiles x) := hx.failingAs _

theorem outcome {x : HostM ε α} (hx : Keeps R x) : Keeps R (x.outcome : HostM δ (Except ε α)) :=
  ⟨fun h => hx.run h⟩

theorem ofExcept [Std.Refl R] (x : Except ε α) : Keeps R (HostM.ofExcept x) := by
  constructor
  intro h
  rw [ran_ofExcept]
  exact refl h

theorem look [Std.Refl R] (f : FileTree → Location → String → α) (path : String) :
    Keeps R (Host.look f path : HostM ε α) := ⟨fun h => refl h⟩

theorem inspect [Std.Refl R] (f : FileTree → Location → String → Except Fault α) (path : String) :
    Keeps R (Host.inspect f path) := by
  constructor
  intro h
  rw [ran_inspect]
  exact refl h

theorem change [Std.Refl R] {f : FileTree → Location → String → Except Fault FileTree} {path : String}
    (hf : ∀ h files, f h.files h.directory path = .ok files → R h { h with files }) :
    Keeps R (Host.change f path) := by
  constructor
  intro h
  rw [ran_change]
  cases hfiles : f h.files h.directory path with
  | error e => exact refl h
  | ok files => exact hf h files hfiles

theorem now [Std.Refl R] : Keeps R (Host.now : HostM ε Instant) := ⟨fun h => refl h⟩

theorem readText [Std.Refl R] [IsTrans Host R] (path : String) : Keeps R (Host.readText path) := by
  unfold Host.readText Host.readBytes
  apply Keeps.bind (Keeps.inspect ..)
  intro b
  split
  · exact Keeps.pure _
  · exact Keeps.throw _

theorem readDocument [Std.Refl R] [IsTrans Host R] (form : Option Json.Form)
    (ofDocument? : Document → Option α) (path : String) :
    Keeps R (Store.readDocument form ofDocument? path) := by
  unfold Store.readDocument
  apply Keeps.bind (Keeps.readText path).onFiles
  intro text
  split
  · exact Keeps.pure _
  · exact Keeps.throw _

theorem writeBytes [Std.Refl R] [IsTrans Host R] {path : String} {data : ByteArray}
    (hf : ∀ h files, h.files.write h.directory path data = .ok files → R h { h with files }) :
    Keeps R (Host.writeBytes path data) := by
  unfold Host.writeBytes
  apply Keeps.bind (Keeps.change hf)
  intro _
  exact Keeps.inspect ..

end Host

section Workshop

variable {ε α : Type}

/-- An action on the host that changes nothing changes nothing in the workshop. -/
theorem onHost_eq {x : HostM ε α} (hx : Keeps Eq x) (wrap : ε → BuildError) :
    Keeps Eq (Workshop.onHost wrap x) := by
  constructor
  intro w
  rw [ran_onHost]
  exact congrArg (fun host => { w with host }) (hx.run w.host)

end Workshop

end Keeps

end ImageRecipe
