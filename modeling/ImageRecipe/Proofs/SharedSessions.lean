import Mathlib.Data.List.Dedup
import Mathlib.Logic.Function.Basic
import Mathlib.Logic.Relation
import ImageRecipe.Session
import ImageRecipe.Proofs.SortedMap

/-! A session that many clients share. A call takes the lock of the session, does its work and gives the lock
back with its answer; look-ups hold the lock together, a registration holds it alone. In whatever order the
clients take their steps, their calls have the answers of calls made one at a time in the order in which they
returned, and the first result registered for a project is the one that stays. -/

namespace ImageRecipe

namespace SortedMap

variable {κ ν : Type} [LT κ] [BEq κ] [LawfulBEq κ] [StrictOrder κ]

omit [BEq κ] [LawfulBEq κ] in
theorem nodup_keys (m : SortedMap κ ν) : m.keys.Nodup := by
  rw [keys, List.Nodup, List.pairwise_map]
  refine m.ascending.imp fun hlt heq => ?_
  rw [heq] at hlt
  exact StrictOrder.irrefl _ hlt

theorem mem_keys_iff {m : SortedMap κ ν} {k : κ} : k ∈ m.keys ↔ m.get? k ≠ none := by
  simp only [keys, List.mem_map, Prod.exists, exists_and_right, exists_eq_right, mem_entries_iff,
    Option.ne_none_iff_exists']

end SortedMap

namespace Session

/-- A call on a session. -/
inductive Call where
  | register (project : String) (result : BuildResult)
  | resolve (project : String)

/-- What a call returns. -/
inductive Answer where
  | registered (outcome : Except SessionError Unit)
  | resolved (result : Option BuildResult)

/-- A call made alone: its answer and the session it leaves. -/
def Call.run (s : Session) : Call → Answer × Session
  | .register project r =>
    match s.register project r with
    | .ok s' => (.registered (.ok ()), s')
    | .error e => (.registered (.error e), s)
  | .resolve project => (.resolved (s.resolve? project), s)

theorem Call.run_register_of_none {s : Session} {project : String} (r : BuildResult)
    (h : s.resolve? project = none) :
    (Call.register project r).run s = (.registered (.ok ()), ⟨s.results.insert project r⟩) := by
  simp only [run, Session.register, h]

theorem Call.run_register_of_ne_none {s : Session} {project : String} (r : BuildResult)
    (h : s.resolve? project ≠ none) :
    (Call.register project r).run s = (.registered (.error (.alreadyBuilt project)), s) := by
  obtain ⟨old, hold⟩ := Option.ne_none_iff_exists'.1 h
  simp only [run, Session.register, hold]

/-- The result that the first registration of a project gives it. -/
def firstResult? (project : String) : List Call → Option BuildResult
  | [] => none
  | .register p r :: l => if p = project then some r else firstResult? project l
  | .resolve _ :: l => firstResult? project l

theorem firstResult?_append (project : String) (l m : List Call) :
    firstResult? project (l ++ m) = (firstResult? project l).or (firstResult? project m) := by
  induction l with
  | nil => rfl
  | cons c l ih =>
    cases c with
    | resolve p => simpa [firstResult?] using ih
    | register p r =>
      by_cases hp : p = project
      · simp [firstResult?, hp]
      · simpa [firstResult?, hp] using ih

/-- What a session has of a project after a call. -/
theorem Call.resolve?_run (c : Call) (s : Session) (project : String) :
    (c.run s).2.resolve? project = (s.resolve? project).or (firstResult? project [c]) := by
  cases c with
  | resolve p => simp [run, firstResult?]
  | register p r =>
    by_cases hp : s.resolve? p = none
    · rw [run_register_of_none r hp, Session.resolve?, SortedMap.get?_insert]
      by_cases hproject : project = p
      · simp [hproject, hp, firstResult?]
      · simp [hproject, Ne.symm hproject, firstResult?, Session.resolve?]
    · rw [run_register_of_ne_none r hp]
      by_cases hproject : p = project
      · obtain ⟨old, hold⟩ := Option.ne_none_iff_exists'.1 hp
        simp [← hproject, hold]
      · simp [hproject, firstResult?]

/-- The projects that calls register, in order and as often as they do. -/
def registered (l : List Call) : List String :=
  l.filterMap fun
    | .register p _ => some p
    | .resolve _ => none

theorem firstResult?_ne_none_iff {project : String} {l : List Call} :
    firstResult? project l ≠ none ↔ project ∈ registered l := by
  induction l with
  | nil => simp [firstResult?, registered]
  | cons c l ih =>
    cases c with
    | resolve p => simpa [firstResult?, registered] using ih
    | register p r =>
      by_cases hp : p = project
      · simp [firstResult?, registered, hp]
      · simpa [firstResult?, registered, hp, Ne.symm hp] using ih

/-! ### Calls by many clients -/

/-- Where a client stands: between calls, waiting for the lock, or at work with the lock held. Inside a call it
knows the session that it found when it got the lock. -/
inductive Phase where
  | idle
  | waiting (call : Call)
  | looking (project : String) (found : Session)
  | looked (project : String) (found : Session) (result : Option BuildResult)
  | checking (project : String) (r : BuildResult) (found : Session)
  | checked (project : String) (r : BuildResult) (found : Session) (known : Bool)
  | settled (project : String) (r : BuildResult) (found : Session) (outcome : Except SessionError Unit)

/-- The client has the lock for itself. -/
def Phase.Alone : Phase → Prop
  | idle | waiting _ | looking .. | looked .. => False
  | checking .. | checked .. | settled .. => True

/-- The client does not have the lock. -/
def Phase.Outside : Phase → Prop
  | idle | waiting _ => True
  | looking .. | looked .. | checking .. | checked .. | settled .. => False

/-- A call that returned: who made it, what it answered, and the session when it got the lock and when it gave
the lock back. -/
structure Event (ι : Type) where
  client : ι
  call : Call
  answer : Answer
  found : Session
  left : Session

/-- A session with its clients, and the calls that returned so far. -/
structure Shared (ι : Type) where
  session : Session
  phase : ι → Phase
  log : List (Event ι)

namespace Shared

/-- A session in which nothing is built yet, before any call. -/
def start (ι : Type) : Shared ι := ⟨Session.empty, fun _ => .idle, []⟩

variable {ι : Type} [DecidableEq ι]

/-- A client comes to a phase. -/
def moveTo (s : Shared ι) (i : ι) (p : Phase) : Shared ι := { s with phase := Function.update s.phase i p }

/-- A client returns from its call. -/
def answer (s : Shared ι) (i : ι) (c : Call) (a : Answer) (found : Session) : Shared ι :=
  { s.moveTo i .idle with log := s.log ++ [⟨i, c, a, found, s.session⟩] }

/-- One step of one client. -/
inductive Step : Shared ι → Shared ι → Prop where
  | ask {s : Shared ι} {i : ι} (c : Call) (at_ : s.phase i = .idle) : Step s (s.moveTo i (.waiting c))
  | enterTogether {s : Shared ι} {i : ι} {p : String} (at_ : s.phase i = .waiting (.resolve p))
      (free : ∀ j, ¬ (s.phase j).Alone) : Step s (s.moveTo i (.looking p s.session))
  | look {s : Shared ι} {i : ι} {p : String} {found : Session} (at_ : s.phase i = .looking p found) :
      Step s (s.moveTo i (.looked p found (s.session.resolve? p)))
  | leaveTogether {s : Shared ι} {i : ι} {p : String} {found : Session} {r : Option BuildResult}
      (at_ : s.phase i = .looked p found r) : Step s (s.answer i (.resolve p) (.resolved r) found)
  | enterAlone {s : Shared ι} {i : ι} {p : String} {r : BuildResult}
      (at_ : s.phase i = .waiting (.register p r)) (free : ∀ j, (s.phase j).Outside) :
      Step s (s.moveTo i (.checking p r s.session))
  | check {s : Shared ι} {i : ι} {p : String} {r : BuildResult} {found : Session}
      (at_ : s.phase i = .checking p r found) :
      Step s (s.moveTo i (.checked p r found (s.session.resolve? p).isSome))
  | refuse {s : Shared ι} {i : ι} {p : String} {r : BuildResult} {found : Session}
      (at_ : s.phase i = .checked p r found true) :
      Step s (s.moveTo i (.settled p r found (.error (.alreadyBuilt p))))
  | insert {s : Shared ι} {i : ι} {p : String} {r : BuildResult} {found : Session}
      (at_ : s.phase i = .checked p r found false) :
      Step s { s.moveTo i (.settled p r found (.ok ())) with session := ⟨s.session.results.insert p r⟩ }
  | leaveAlone {s : Shared ι} {i : ι} {p : String} {r : BuildResult} {found : Session}
      {outcome : Except SessionError Unit} (at_ : s.phase i = .settled p r found outcome) :
      Step s (s.answer i (.register p r) (.registered outcome) found)

/-- What can come of a fresh session by steps of its clients in any order. -/
def Reachable (s : Shared ι) : Prop := Relation.ReflTransGen Step (start ι) s

end Shared

/-- Calls made one at a time, from a session in which nothing is built to the session they leave. -/
inductive Sequential {ι : Type} : List (Event ι) → Session → Prop where
  | nil : Sequential [] Session.empty
  | snoc {l : List (Event ι)} {e : Event ι} (before : Sequential l e.found)
      (runs : e.call.run e.found = (e.answer, e.left)) : Sequential (l ++ [e]) e.left

namespace Sequential

variable {ι : Type} {l before after : List (Event ι)} {e : Event ι} {s : Session}

/-- A call in a sequence found what the calls before it left. -/
theorem split (h : Sequential l s) (hl : l = before ++ e :: after) :
    Sequential before e.found ∧ e.call.run e.found = (e.answer, e.left) := by
  induction h generalizing after with
  | nil => simp at hl
  | @snoc l last hbefore hruns ih =>
    rcases after.eq_nil_or_concat with rfl | ⟨after', x, rfl⟩
    · obtain ⟨rfl, hlast⟩ := List.append_inj' hl rfl
      obtain rfl := List.singleton_inj.1 hlast
      exact ⟨hbefore, hruns⟩
    · rw [List.concat_eq_append, ← List.cons_append, ← List.append_assoc] at hl
      exact ih (List.append_inj' hl rfl).1

/-- The session has of each project the first result registered for it. -/
theorem resolve?_eq (h : Sequential l s) (project : String) :
    s.resolve? project = firstResult? project (l.map Event.call) := by
  induction h with
  | nil => rfl
  | @snoc l last hbefore hruns ih =>
    rw [List.map_append, firstResult?_append, ← ih, List.map_singleton, ← Call.resolve?_run, hruns]

/-- The session has one entry for each project registered. -/
theorem size_eq (h : Sequential l s) : s.size = (registered (l.map Event.call)).dedup.length := by
  have hperm : s.results.keys.Perm (registered (l.map Event.call)).dedup := by
    refine (List.perm_ext_iff_of_nodup s.results.nodup_keys (List.nodup_dedup _)).2 fun project => ?_
    rw [SortedMap.mem_keys_iff, List.mem_dedup, ← firstResult?_ne_none_iff, ← h.resolve?_eq]
    rfl
  rw [size, SortedMap.size, ← hperm.length_eq, SortedMap.keys, List.length_map]

end Sequential

/-! ### Steps in any order -/

/-- What a phase says, given the session that the returned calls left and the session as it is now. -/
def Phase.Fits (base now : Session) : Phase → Prop
  | idle | waiting _ => True
  | looking _ found | checking _ _ found => found = base ∧ now = base
  | looked p found r => found = base ∧ now = base ∧ r = base.resolve? p
  | checked p _ found known => found = base ∧ now = base ∧ known = (base.resolve? p).isSome
  | settled p r found outcome => found = base ∧ (Call.register p r).run base = (.registered outcome, now)

theorem Phase.Outside.fits {p : Phase} (h : p.Outside) (base now : Session) : p.Fits base now := by
  cases p <;> trivial

theorem Phase.Outside.not_alone {p : Phase} (h : p.Outside) : ¬ p.Alone := by
  cases p <;> first | exact id | exact h.elim

namespace Shared

variable {ι : Type} {s s' : Shared ι} {base : Session} {i : ι}

/-- The returned calls are a sequence, every client inside a call works on the session that they left, and
who has the lock alone is the only one inside. -/
structure Orderly (s : Shared ι) (base : Session) : Prop where
  sequential : Sequential s.log base
  fits : ∀ i, (s.phase i).Fits base s.session
  alone : ∀ i, (s.phase i).Alone → ∀ j, j ≠ i → (s.phase j).Outside
  kept : (∀ i, ¬ (s.phase i).Alone) → s.session = base

theorem orderly_start : Orderly (start ι) Session.empty where
  sequential := .nil
  fits _ := trivial
  alone _ h := h.elim
  kept _ := rfl

/-- Nobody is alone while a client is inside with others. -/
theorem Orderly.not_alone (h : Orderly s base) (hout : ¬ (s.phase i).Outside) (hi : ¬ (s.phase i).Alone) (j : ι) :
    ¬ (s.phase j).Alone := by
  intro hj
  by_cases hij : i = j
  · exact hi (hij ▸ hj)
  · exact hout (h.alone j hj i hij)

variable [DecidableEq ι]

/-- A client moves while all others are outside. -/
theorem orderly_of_outside {now : Session} {phase : ι → Phase} {log : List (Event ι)} {p : Phase}
    (hlog : Sequential log base) (hothers : ∀ j, j ≠ i → (phase j).Outside) (hp : p.Fits base now)
    (hkept : ¬ p.Alone → now = base) : Orderly ⟨now, Function.update phase i p, log⟩ base where
  sequential := hlog
  fits j := by
    by_cases hj : j = i
    · subst hj
      simpa using hp
    · simpa [hj] using (hothers j hj).fits base now
  alone j hj k hk := by
    by_cases hji : j = i
    · subst hji
      simpa [hk] using hothers k hk
    · exact absurd hj (by simpa [hji] using (hothers j hji).not_alone)
  kept hnobody := hkept (by simpa using hnobody i)

/-- A client moves that neither had the lock alone nor gets it. -/
theorem Orderly.together (h : Orderly s base) {log : List (Event ι)} {p : Phase} (hlog : Sequential log base)
    (hi : ¬ (s.phase i).Alone) (hp : p.Fits base s.session) (hp' : ¬ p.Alone)
    (hfree : p.Outside ∨ ∀ j, ¬ (s.phase j).Alone) :
    Orderly ⟨s.session, Function.update s.phase i p, log⟩ base where
  sequential := hlog
  fits j := by
    by_cases hj : j = i
    · subst hj
      simpa using hp
    · simpa [hj] using h.fits j
  alone j hj k hk := by
    have hji : j ≠ i := by
      rintro rfl
      exact hp' (by simpa using hj)
    have hj' : (s.phase j).Alone := by simpa [hji] using hj
    by_cases hki : k = i
    · subst hki
      simpa using hfree.resolve_right fun hnobody => hnobody j hj'
    · simpa [hki] using h.alone j hj' k hk
  kept hnobody := h.kept fun j => by
    by_cases hj : j = i
    · exact hj ▸ hi
    · simpa [hj] using hnobody j

/-- Each step keeps the order, and the session left by the returned calls moves on with the calls that return. -/
theorem Orderly.step (h : Orderly s base) (hs : Step s s') : ∃ base', Orderly s' base' := by
  cases hs with
  | @ask i c hat =>
    exact ⟨base, h.together h.sequential (by simp [hat, Phase.Alone]) trivial id (.inl trivial)⟩
  | @enterTogether i p hat hfree =>
    exact ⟨base, h.together h.sequential (hfree i) ⟨h.kept hfree, h.kept hfree⟩ id (.inr hfree)⟩
  | @look i p found hat =>
    have hfits := h.fits i
    rw [hat] at hfits
    obtain ⟨hfound, hnow⟩ := hfits
    have hfree := h.not_alone (i := i) (by simp [hat, Phase.Outside]) (by simp [hat, Phase.Alone])
    exact ⟨base, h.together h.sequential (hfree i) ⟨hfound, hnow, by rw [hnow]⟩ id (.inr hfree)⟩
  | @leaveTogether i p found r hat =>
    have hfits := h.fits i
    rw [hat] at hfits
    obtain ⟨rfl, hnow, rfl⟩ := hfits
    obtain rfl : s.session = found := hnow
    have hlog := Sequential.snoc h.sequential
      (e := ⟨i, .resolve p, .resolved (s.session.resolve? p), s.session, s.session⟩) rfl
    exact ⟨_, h.together hlog (by simp [hat, Phase.Alone]) trivial id (.inl trivial)⟩
  | @enterAlone i p r hat hout =>
    have hnow := h.kept fun j => (hout j).not_alone
    exact ⟨base, orderly_of_outside h.sequential (fun j _ => hout j) ⟨hnow, hnow⟩ fun hp => absurd trivial hp⟩
  | @check i p r found hat =>
    have hfits := h.fits i
    rw [hat] at hfits
    obtain ⟨hfound, hnow⟩ := hfits
    exact ⟨base, orderly_of_outside h.sequential (h.alone i (by simp [hat, Phase.Alone]))
      ⟨hfound, hnow, by rw [hnow]⟩ fun hp => absurd trivial hp⟩
  | @refuse i p r found hat =>
    have hfits := h.fits i
    rw [hat] at hfits
    obtain ⟨hfound, hnow, hknown⟩ := hfits
    have hsome : base.resolve? p ≠ none := Option.isSome_iff_ne_none.1 hknown.symm
    have hrun := Call.run_register_of_ne_none r hsome
    exact ⟨base, orderly_of_outside h.sequential (h.alone i (by simp [hat, Phase.Alone]))
      ⟨hfound, hnow ▸ hrun⟩ fun hp => absurd trivial hp⟩
  | @insert i p r found hat =>
    have hfits := h.fits i
    rw [hat] at hfits
    obtain ⟨hfound, hnow, hknown⟩ := hfits
    have hnone : base.resolve? p = none := by simpa using hknown.symm
    have hrun := Call.run_register_of_none r hnone
    exact ⟨base, orderly_of_outside h.sequential (h.alone i (by simp [hat, Phase.Alone]))
      ⟨hfound, hnow ▸ hrun⟩ fun hp => absurd trivial hp⟩
  | @leaveAlone i p r found outcome hat =>
    have hfits := h.fits i
    rw [hat] at hfits
    obtain ⟨rfl, hrun⟩ := hfits
    exact ⟨s.session, orderly_of_outside (.snoc (e := ⟨i, .register p r, .registered outcome, found, s.session⟩)
      h.sequential hrun) (h.alone i (by simp [hat, Phase.Alone])) trivial fun _ => rfl⟩

theorem Reachable.orderly (h : Reachable s) : ∃ base, Orderly s base := by
  induction h with
  | refl => exact ⟨_, orderly_start⟩
  | tail _ hs ih =>
    obtain ⟨base, hbase⟩ := ih
    exact hbase.step hs

/-- However clients interleave their calls on a fresh session, the first registration of a project succeeds and
every later one is refused and leaves the session as it was; a look-up finds nothing before the first
registration and its result ever after; and when nobody has the lock, the session has just one entry for each
project registered, with the first result. -/
theorem Reachable.write_once (h : Reachable s) :
    (∀ before e after, s.log = before ++ e :: after →
      (∀ project r, e.call = .register project r →
        (firstResult? project (before.map Event.call) = none →
          e.answer = .registered (.ok ()) ∧ e.left.resolve? project = some r) ∧
        (firstResult? project (before.map Event.call) ≠ none →
          e.answer = .registered (.error (.alreadyBuilt project)) ∧ e.left = e.found)) ∧
      ∀ project, e.call = .resolve project →
        e.answer = .resolved (firstResult? project (before.map Event.call)) ∧ e.left = e.found) ∧
    ((∀ i, (s.phase i).Outside) →
      (∀ project, s.session.resolve? project = firstResult? project (s.log.map Event.call)) ∧
      s.session.size = (registered (s.log.map Event.call)).dedup.length) := by
  obtain ⟨base, ho⟩ := h.orderly
  constructor
  · intro before e after hlog
    obtain ⟨hbefore, hruns⟩ := ho.sequential.split hlog
    refine ⟨fun project r hcall => ?_, fun project hcall => ?_⟩
    · rw [← hbefore.resolve?_eq project]
      rw [hcall] at hruns
      constructor
      · intro hnone
        rw [Call.run_register_of_none r hnone, Prod.mk.injEq] at hruns
        refine ⟨hruns.1.symm, ?_⟩
        rw [← hruns.2, resolve?, SortedMap.get?_insert, if_pos rfl]
      · intro hsome
        rw [Call.run_register_of_ne_none r hsome, Prod.mk.injEq] at hruns
        exact ⟨hruns.1.symm, hruns.2.symm⟩
    · rw [hcall, Call.run, Prod.mk.injEq, hbefore.resolve?_eq] at hruns
      exact ⟨hruns.1.symm, hruns.2.symm⟩
  · intro hout
    rw [ho.kept fun i => (hout i).not_alone]
    exact ⟨ho.sequential.resolve?_eq, ho.sequential.size_eq⟩

end Shared

end Session

namespace Sample

def registration (tag : String) : Session.Call :=
  .register "p" ⟨tag, "sha256:0", .direct, ⟨⟨2024, 1, 1⟩, 0, 0, 0, 0⟩⟩

open Session.Shared.Step in
/-- Two clients want to register a project. While the first is at work the second already asks, and the first
looks the project up afterwards. -/
theorem exists_race : ∃ s : Session.Shared Bool, s.Reachable ∧
    s.log.map (fun e => (e.client, e.call)) =
      [(true, registration "p:1"), (false, registration "p:2"), (true, .resolve "p")] ∧
    ∀ i, (s.phase i).Outside := by
  refine ⟨_, .tail (.tail (.tail (.tail (.tail (.tail (.tail (.tail (.tail (.tail (.tail (.tail (.tail (.tail
    .refl
    (ask (i := true) (registration "p:1") rfl))
    (enterAlone (i := true) rfl ?_))
    (ask (i := false) (registration "p:2") rfl))
    (check (i := true) rfl))
    (insert (i := true) rfl))
    (leaveAlone (i := true) rfl))
    (ask (i := true) (.resolve "p") rfl))
    (enterAlone (i := false) rfl ?_))
    (check (i := false) rfl))
    (refuse (i := false) rfl))
    (leaveAlone (i := false) rfl))
    (enterTogether (i := true) rfl ?_))
    (look (i := true) rfl))
    (leaveTogether (i := true) rfl), rfl, ?_⟩
  all_goals intro i; cases i <;> first | trivial | exact id

end Sample

/-- In a race of two clients the second is refused, and the first finds its own result. -/
theorem Session.Shared.Reachable.write_once_sample :
    ∃ (s : Session.Shared Bool) (first second third : Session.Event Bool), s.Reachable ∧
      s.log = [first, second, third] ∧ first.answer = .registered (.ok ()) ∧
      second.answer = .registered (.error (.alreadyBuilt "p")) ∧ second.left = second.found ∧
      third.answer = .resolved (firstResult? "p" [Sample.registration "p:1"]) ∧ s.session.size = 1 := by
  obtain ⟨s, hs, hlog, hout⟩ := Sample.exists_race
  obtain ⟨hreturned, hend⟩ := hs.write_once
  have hsize := (hend hout).2
  obtain ⟨first, l, hl, hfirst, hlog⟩ := List.map_eq_cons_iff.1 hlog
  obtain ⟨second, l, rfl, hsecond, hlog⟩ := List.map_eq_cons_iff.1 hlog
  obtain ⟨third, l, rfl, hthird, hlog⟩ := List.map_eq_cons_iff.1 hlog
  obtain rfl := List.map_eq_nil_iff.1 hlog
  have hfirst' : first.call = Sample.registration "p:1" := congrArg Prod.snd hfirst
  have hsecond' : second.call = Sample.registration "p:2" := congrArg Prod.snd hsecond
  have hthird' : third.call = .resolve "p" := congrArg Prod.snd hthird
  obtain ⟨hregistered, -⟩ := ((hreturned [] first [second, third] hl).1 _ _ hfirst').1 rfl
  obtain ⟨hrefused, hleft⟩ := ((hreturned [first] second [third] hl).1 _ _ hsecond').2
    (by simp [hfirst', Sample.registration, firstResult?])
  obtain ⟨hresolved, -⟩ := (hreturned [first, second] third [] hl).2 _ hthird'
  refine ⟨s, first, second, third, hs, hl, hregistered, hrefused, hleft, ?_, ?_⟩
  · rw [hresolved]
    simp [hfirst', Sample.registration, firstResult?]
  · rw [hsize, hl]
    simp [hfirst', hsecond', hthird', Sample.registration, registered]

end ImageRecipe
