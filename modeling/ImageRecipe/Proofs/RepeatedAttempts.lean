import ImageRecipe.Backend.Daemon
import ImageRecipe.Proofs.Actions

/-! Repeated attempts come to an end with the first that succeeds, or with the last that is allowed. The operation is
called once for each index up to there, and between two calls the delay of the first of them is slept. -/

namespace ImageRecipe

namespace Backoff

/-- What can be seen of repeated attempts. -/
inductive Event where
  | attempted (index : Nat)
  | slept (delay : Nat)
  deriving DecidableEq, Repr

/-- What is seen before the attempt of an index. -/
def earlier (b : Backoff) (k : Nat) : List Event :=
  (List.range k).flatMap fun i => [.attempted i, .slept (b.delay i)]

/-- What is seen when the attempt of an index is the last one. -/
def course (b : Backoff) (k : Nat) : List Event := b.earlier k ++ [.attempted k]

theorem earlier_succ (b : Backoff) (k : Nat) :
    b.earlier (k + 1) = b.earlier k ++ [.attempted k, .slept (b.delay k)] := by
  rw [earlier, List.range_succ, List.flatMap_append, ← earlier]
  rfl

theorem attempted_mem_course {b : Backoff} {i k : Nat} : .attempted i ∈ b.course k ↔ i ≤ k := by
  simp [course, earlier, Nat.le_iff_lt_or_eq]

section Runs

variable {σ ε α : Type} (b : Backoff) (sleep : Nat → StateM σ Unit) (op : Nat → StateM σ (Except ε α))

/-- The state that the attempt of an index starts from when all attempts before it fail. -/
def before (s : σ) : Nat → σ
  | 0 => s
  | i + 1 => ((sleep (b.delay i)).run ((op i).run (before s i)).2).2

/-- What the attempt of an index comes to. -/
def outcomeAt (s : σ) (i : Nat) : Except ε α := ((op i).run (b.before sleep op s i)).1

/-- The operation with its calls written down. -/
def watched (i : Nat) : StateM (σ × List Event) (Except ε α) := fun p =>
  (((op i).run p.1).1, ((op i).run p.1).2, p.2 ++ [.attempted i])

/-- Sleeping with the delays written down. -/
def watchedSleep (delay : Nat) : StateM (σ × List Event) Unit := fun p =>
  ((), ((sleep delay).run p.1).2, p.2 ++ [.slept delay])

variable {b sleep op} {s t : σ} {i k left : Nat}

/-- Attempts end with one that succeeds. -/
theorem retryFrom_ok {a : α} {t' : σ} (h : (op i).run t = (.ok a, t')) :
    (b.retryFrom sleep op left i).run t = (.ok a, t') := by
  cases left with
  | zero => exact h
  | succ left =>
    rw [retryFrom, StateT.run_bind, h]
    rfl

/-- After one that fails the delay is slept and the next is made, if any is left. -/
theorem retryFrom_error {e : ε} {t' : σ} (h : (op i).run t = (.error e, t')) :
    (b.retryFrom sleep op (left + 1) i).run t =
      (b.retryFrom sleep op left (i + 1)).run ((sleep (b.delay i)).run t').2 := by
  rw [retryFrom, StateT.run_bind, h]
  rfl

theorem limit_pos (b : Backoff) : 0 < b.limit := Nat.lt_of_lt_of_le Nat.one_pos (Nat.le_max_right ..)

/-- As long as all attempts fail the next one is made. -/
theorem retry_eq_retryFrom (hk : k < b.limit) (h : ∀ i < k, ∃ e, b.outcomeAt sleep op s i = .error e) :
    (b.retry sleep op).run s = (b.retryFrom sleep op (b.limit - 1 - k) k).run (b.before sleep op s k) := by
  induction k with
  | zero => rfl
  | succ k ih =>
    obtain ⟨e, he⟩ := h k k.lt_succ_self
    have hleft : b.limit - 1 - k = b.limit - 1 - (k + 1) + 1 := by omega
    rw [ih (Nat.lt_of_succ_lt hk) fun i hi => h i (Nat.lt_succ_of_lt hi), hleft]
    exact retryFrom_error (Prod.ext he rfl)

/-- The attempt of an index is the last one: all before it fail, and it succeeds or no other is allowed. -/
structure EndsAt (b : Backoff) (sleep : Nat → StateM σ Unit) (op : Nat → StateM σ (Except ε α)) (s : σ) (k : Nat) :
    Prop where
  lt : k < b.limit
  failed : ∀ i < k, ∃ e, b.outcomeAt sleep op s i = .error e
  ended : (∃ a, b.outcomeAt sleep op s k = .ok a) ∨ k + 1 = b.limit

/-- What comes of the last attempt is what comes of all. -/
theorem EndsAt.run_retry (h : EndsAt b sleep op s k) :
    (b.retry sleep op).run s = (op k).run (b.before sleep op s k) := by
  rw [retry_eq_retryFrom h.lt h.failed]
  obtain ⟨a, ha⟩ | hlast := h.ended
  · have hrun : (op k).run (b.before sleep op s k) = (.ok a, ((op k).run (b.before sleep op s k)).2) := Prod.ext ha rfl
    rw [retryFrom_ok hrun, ← hrun]
  · rw [show b.limit - 1 - k = 0 by omega, retryFrom]

/-! ### Under watch -/

theorem before_watched (b : Backoff) (sleep : Nat → StateM σ Unit) (op : Nat → StateM σ (Except ε α)) (s : σ) (k : Nat) :
    b.before (watchedSleep sleep) (watched op) (s, []) k = (b.before sleep op s k, b.earlier k) := by
  induction k with
  | zero => rfl
  | succ k ih =>
    rw [before, ih, earlier_succ]
    simp [watched, watchedSleep, before, StateT.run]

theorem outcomeAt_watched (b : Backoff) (sleep : Nat → StateM σ Unit) (op : Nat → StateM σ (Except ε α)) (s : σ)
    (k : Nat) : b.outcomeAt (watchedSleep sleep) (watched op) (s, []) k = b.outcomeAt sleep op s k := by
  unfold outcomeAt
  rw [before_watched]
  rfl

theorem EndsAt.watched (h : EndsAt b sleep op s k) :
    EndsAt b (watchedSleep sleep) (Backoff.watched op) (s, []) k := by
  refine ⟨h.lt, ?_, ?_⟩ <;> simp only [outcomeAt_watched]
  · exact h.failed
  · exact h.ended

/-- Up to the last attempt each is made once, in order, and each delay slept in between. -/
theorem EndsAt.run_watched (h : EndsAt b sleep op s k) :
    (b.retry (watchedSleep sleep) (Backoff.watched op)).run (s, []) =
      (((op k).run (b.before sleep op s k)).1, ((op k).run (b.before sleep op s k)).2, b.course k) := by
  rw [h.watched.run_retry, before_watched]
  rfl

/-- The first attempt that succeeds is the last one. -/
theorem endsAt_of_ok {a : α} (hk : k < b.limit) (h : ∀ i < k, ∃ e, b.outcomeAt sleep op s i = .error e)
    (ha : b.outcomeAt sleep op s k = .ok a) : EndsAt b sleep op s k := ⟨hk, h, .inl ⟨a, ha⟩⟩

/-- When all fail that are allowed, the last of these is the last one. -/
theorem endsAt_of_error (h : ∀ i < b.limit, ∃ e, b.outcomeAt sleep op s i = .error e) :
    EndsAt b sleep op s (b.limit - 1) :=
  have hpos := b.limit_pos
  ⟨by omega, fun i hi => h i (by omega), .inr (by omega)⟩

end Runs

/-! ### On a host -/

/-- Sleeping on a host, which never fails. -/
def pause (delay : Nat) : StateM Host Unit := modify fun h => { h with sleeps := delay :: h.sleeps }

/-- Attempts on a host are those of the operation with its failures told as outcomes. -/
theorem ran_retry {ε δ α : Type} (b : Backoff) (act : Nat → HostM ε α) (h : Host) :
    ran (b.retry Host.sleep fun i => (act i).outcome : HostM δ (Except ε α)) h =
      (.ok ((b.retry pause fun i => (act i).run).run h).1, ((b.retry pause fun i => (act i).run).run h).2) := by
  unfold retry
  generalize b.limit - 1 = left
  generalize 0 = i
  induction left generalizing i h with
  | zero => rfl
  | succ left ih =>
    rcases hrun : (act i).run.run h with ⟨e | a, t⟩
    · have hstep : (b.retryFrom pause (fun i => (act i).run) (left + 1) i).run h = _ := retryFrom_error hrun
      rw [hstep, ← ih, retryFrom, ran_bind, ran_outcome, show ran (act i) h = (.error e, t) from hrun]
      rfl
    · have hstep : (b.retryFrom pause (fun i => (act i).run) (left + 1) i).run h = _ := retryFrom_ok hrun
      rw [hstep, retryFrom, ran_bind, ran_outcome, show ran (act i) h = (.ok a, t) from hrun]
      rfl

end Backoff

namespace Daemon

open Backoff

variable (d : Daemon) (reference : String) (h : Host)

/-- The host that the pull of an index starts on when all pulls before it fail. -/
def beforePull (i : Nat) : Host := d.pullRetry.before pause (fun _ => (d.pullOnce reference).run) h i

/-- What a pull of an index comes to. -/
def pullAt (i : Nat) : Except BackendError Unit × Host := ran (d.pullOnce reference) (d.beforePull reference h i)

/-- The error of a pull of which no attempt succeeded. A cancelled pull says no more than that. -/
def pullError (e : BackendError) : BackendError :=
  if e = .cancelled then .cancelled else .pull reference d.pullRetry.limit e.message

variable {d reference h} {k : Nat}

/-- A pull comes to what its last attempt comes to. -/
theorem ran_pull (hk : EndsAt d.pullRetry pause (fun _ => (d.pullOnce reference).run) h k) :
    ran (d.pull reference) h =
      ((d.pullAt reference h k).1.mapError (d.pullError reference), (d.pullAt reference h k).2) := by
  have hrun : ran (d.pullRetry.retry Host.sleep fun _ => (d.pullOnce reference).outcome : BackendM _) h =
      (.ok (d.pullAt reference h k).1, (d.pullAt reference h k).2) := by
    rw [ran_retry, hk.run_retry]
    rfl
  unfold pull
  rw [ran_bind, hrun]
  rcases d.pullAt reference h k with ⟨e | ⟨⟩, t⟩
  · cases e <;> rfl
  · rfl

end Daemon

/-- Repeated attempts, of any operation and with any way of sleeping, end with the first that succeeds among those
that are allowed, or else with the last of these. There is always one allowed. Watching shows that the operation was
called once for each index up to the last, in order, and the delay of each but the last slept behind it; so no index
goes beyond its 32 bits. A pull succeeds with its first attempt that does. One that fails as often as it may tells how
often that was and what its last error was, but that it was cancelled it tells as it is. -/
theorem Backoff.retry_ends :
    (∀ {σ ε α : Type} (b : Backoff) (sleep : Nat → StateM σ Unit) (op : Nat → StateM σ (Except ε α)) (s : σ),
      (∀ k a, k < max 1 b.attempts → (∀ i < k, ∃ e, b.outcomeAt sleep op s i = .error e) →
        b.outcomeAt sleep op s k = .ok a →
          ∃ t, (b.retry sleep op).run s = (.ok a, t) ∧
            (b.retry (watchedSleep sleep) (watched op)).run (s, []) = (.ok a, t, b.course k)) ∧
      ((∀ i < max 1 b.attempts, ∃ e, b.outcomeAt sleep op s i = .error e) →
        ∃ e t, b.outcomeAt sleep op s (max 1 b.attempts - 1) = .error e ∧
          (b.retry sleep op).run s = (.error e, t) ∧
          (b.retry (watchedSleep sleep) (watched op)).run (s, []) =
            (.error e, t, b.course (max 1 b.attempts - 1)))) ∧
      (∀ (b : Backoff) (i k : Nat), b.attempts < Text.limit32 → k < max 1 b.attempts →
        .attempted i ∈ b.course k → i + 1 < Text.limit32) ∧
      ∀ (d : Daemon) (reference : String) (h : Host),
        (∀ k < max 1 d.pullRetry.attempts, (∀ i < k, ∃ e, (d.pullAt reference h i).1 = .error e) →
          (d.pullAt reference h k).1 = .ok () → (ran (d.pull reference) h).1 = .ok ()) ∧
        ((∀ i < max 1 d.pullRetry.attempts, ∃ e, (d.pullAt reference h i).1 = .error e) →
          ∃ e, (d.pullAt reference h (max 1 d.pullRetry.attempts - 1)).1 = .error e ∧
            (e = .cancelled → (ran (d.pull reference) h).1 = .error .cancelled) ∧
            (e ≠ .cancelled → (ran (d.pull reference) h).1 =
              .error (.pull reference (max 1 d.pullRetry.attempts) e.message))) := by
  have hlimit : ∀ b : Backoff, max 1 b.attempts = b.limit := fun b => Nat.max_comm ..
  simp only [hlimit]
  refine ⟨fun b sleep op s => ⟨fun k a hk h ha => ?_, fun h => ?_⟩, fun b i k hb hk hi => ?_,
    fun d reference h => ⟨fun k hk h' hok => ?_, fun hall => ?_⟩⟩
  · have hend := endsAt_of_ok hk h ha
    refine ⟨((op k).run (b.before sleep op s k)).2, hend.run_retry.trans (Prod.ext ha rfl), ?_⟩
    rw [hend.run_watched, ← ha]
    rfl
  · have hend := endsAt_of_error h
    obtain ⟨e, he⟩ := h _ hend.lt
    refine ⟨e, ((op _).run (b.before sleep op s _)).2, he, hend.run_retry.trans (Prod.ext he rfl), ?_⟩
    rw [hend.run_watched, ← he]
    rfl
  · have hi := attempted_mem_course.1 hi
    unfold limit at hk
    have hone : 1 < Text.limit32 := by decide
    omega
  · have hend : EndsAt d.pullRetry pause (fun _ => (d.pullOnce reference).run) h k := endsAt_of_ok hk h' hok
    rw [Daemon.ran_pull hend, hok, mapError_ok]
  · have hend : EndsAt d.pullRetry pause (fun _ => (d.pullOnce reference).run) h (d.pullRetry.limit - 1) :=
      endsAt_of_error hall
    obtain ⟨e, he⟩ := hall _ hend.lt
    refine ⟨e, he, fun hc => ?_, fun hc => ?_⟩ <;>
      rw [Daemon.ran_pull hend, he, mapError_error, Daemon.pullError]
    · rw [if_pos hc]
    · rw [if_neg hc]

namespace Sample

/-- An operation that succeeds with its third attempt. -/
def slowStart (i : Nat) : StateM Unit (Except String Nat) := pure (if i < 2 then .error "down" else .ok i)

/-- Sleeping that takes no time. -/
def nap (_ : Nat) : StateM Unit Unit := pure ()

/-- A daemon backend whose engine is nowhere to be found. -/
def missingEngine : Daemon := { engine := ⟨"docker"⟩, minMajor := 19, pullRetry := {} }

theorem pullOnce_missingEngine (h : Host) : (ran (missingEngine.pullOnce "a:1") h).1 =
    .error (.engine (.notStarted "docker" .notFound)) := rfl

end Sample

open Backoff Sample in
/-- The third attempt of three succeeds; one attempt is allowed where none is; the last index that 32 bits allow for
is not passed; and a pull fails three times. -/
theorem Backoff.retry_ends_sample :
    (∃ t, ((({} : Backoff).retry (watchedSleep nap) (watched slowStart)).run ((), [])) =
      (.ok 2, t, [.attempted 0, .slept 1000, .attempted 1, .slept 2000, .attempted 2])) ∧
      (∃ e t, (({ attempts := 0 } : Backoff).retry (watchedSleep nap) (watched slowStart)).run ((), []) =
        (.error e, t, [.attempted 0])) ∧
      4294967294 + 1 < Text.limit32 ∧
      ∃ e, (ran (missingEngine.pull "a:1") {}).1 = .error (.pull "a:1" 3 e) := by
  obtain ⟨hruns, hindex, hpull⟩ := retry_ends
  have hthree := (hruns {} nap slowStart ()).1 2 2 (by decide) (fun i hi => ⟨"down", if_pos hi⟩) rfl
  have hnone := (hruns { attempts := 0 } nap slowStart ()).2 fun i hi =>
    ⟨"down", if_pos (Nat.lt_of_lt_of_le hi (by decide))⟩
  have hlast := hindex { attempts := 4294967295 } 4294967294 4294967294 (by decide) (by decide)
    (attempted_mem_course.2 (Nat.le_refl _))
  obtain ⟨t, -, ht⟩ := hthree
  obtain ⟨e, t', -, -, ht'⟩ := hnone
  obtain ⟨f, hf, -, hother⟩ := (hpull missingEngine "a:1" {}).2 fun i _ => ⟨_, pullOnce_missingEngine _⟩
  have hf' : f ≠ .cancelled := by
    rintro rfl
    cases hf
  exact ⟨⟨t, ht⟩, ⟨e, t', ht'⟩, hlast, f.message, hother hf'⟩

namespace Sample

/-- A daemon backend with an engine that can be started. -/
def shellEngine : Daemon := { engine := ⟨"/bin/sh"⟩, minMajor := 19, pullRetry := {} }

/-- A host whose user asked to stop. -/
def stoppedHost : Host := { cancelled := true }

end Sample

open Sample in
/-- All three attempts of a cancelled pull fail, and it does not tell how many there were. -/
theorem Daemon.pull_cancelled :
    (∀ i < 3, (shellEngine.pullAt "a:1" stoppedHost i).1 = .error .cancelled) ∧
      ¬ ∃ message, (ran (shellEngine.pull "a:1") stoppedHost).1 = .error (.pull "a:1" 3 message) := by
  refine ⟨fun i hi => ?_, fun ⟨message, h⟩ => ?_⟩
  · obtain rfl | rfl | rfl : i = 0 ∨ i = 1 ∨ i = 2 := by omega
    all_goals rfl
  · have hrun : (ran (shellEngine.pull "a:1") stoppedHost).1 = .error .cancelled := rfl
    rw [hrun] at h
    cases h

end ImageRecipe
