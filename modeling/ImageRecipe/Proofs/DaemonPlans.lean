import ImageRecipe.Proofs.Instructions

/-! Plans of the daemon. They are compiled block by block: each instruction comes to directives of its own, and the
blocks follow one another in the order of the instructions. The first word of a directive's text tells of its kind. -/

namespace ImageRecipe

/-- What stands before the first space of a text. -/
def Text.firstWord (s : String) : String := String.ofList (s.toList.takeWhile fun c => c ≠ ' ')

theorem Text.head?_firstWord {s : String} {c : Char} (hs : s.toList.head? = some c) (hc : c ≠ ' ') :
    (firstWord s).toList.head? = some c := by
  unfold firstWord
  rw [String.toList_ofList]
  cases hl : s.toList with
  | nil => simp [hl] at hs
  | cons d r =>
    rw [hl] at hs
    cases hs
    simp [hc]

namespace Directive

/-- The word that the text of a directive begins with; in front of the image of another project stands a comment. -/
def keyword : Directive → String
  | base .. => "FROM"
  | builtBase .. => "#"
  | copy .. => "COPY"
  | run .. | createUser .. => "RUN"
  | user .. => "USER"
  | env .. => "ENV"
  | healthCheck .. => "HEALTHCHECK"

@[simp] theorem firstWord_render (d : Directive) : Text.firstWord d.render = d.keyword := by
  unfold Text.firstWord
  cases d with
  | copy layer owner =>
    cases owner with
    | none => dsimp only [render]; simp only [String.toList_append, List.append_assoc]; rfl
    | some o => dsimp only [render]; split <;> (simp only [String.toList_append, List.append_assoc]; rfl)
  | run commands mounts => dsimp only [render]; split <;> (simp only [String.toList_append, List.append_assoc]; rfl)
  | env key value => dsimp only [render]; split <;> (simp only [String.toList_append, List.append_assoc]; rfl)
  | user => dsimp only [render]; simp only [String.toList_append]; rfl
  | _ => dsimp only [render]; simp only [String.toList_append, List.append_assoc]; rfl

end Directive

namespace Instruction

def userAfter (user : String) : Instruction → String
  | setUser name => name
  | _ => user

end Instruction

namespace Target

variable {t : Target} {l : Lockfile} {mounts : List Mount} {user : String} {i : Instruction} {r : List Instruction}

/-- Each instruction beside its directives, the first of them under a user. -/
def blocksFrom (t : Target) (l : Lockfile) (mounts : List Mount) :
    String → List Instruction → Except CompileError (List (Instruction × List Directive))
  | _, [] => .ok []
  | user, i :: r => do
    let (here, user) ← t.directives l mounts user i
    let rest ← t.blocksFrom l mounts user r
    pure ((i, here) :: rest)

theorem blocksFrom_cons_eq_ok {bs : List (Instruction × List Directive)} :
    t.blocksFrom l mounts user (i :: r) = .ok bs ↔ ∃ here next rest,
      t.directives l mounts user i = .ok (here, next) ∧ t.blocksFrom l mounts next r = .ok rest ∧
        bs = (i, here) :: rest := by
  rw [blocksFrom, bind_eq_ok]
  constructor
  · rintro ⟨⟨here, next⟩, hhere, h⟩
    obtain ⟨rest, hrest, h⟩ := bind_eq_ok.1 h
    exact ⟨here, next, rest, hhere, hrest, (Except.ok.inj h).symm⟩
  · rintro ⟨here, next, rest, hhere, hrest, rfl⟩
    exact ⟨(here, next), hhere, bind_eq_ok.2 ⟨rest, hrest, rfl⟩⟩

/-- The directives of instructions are those of the blocks, one block after the other. -/
theorem directivesFrom_eq (t : Target) (l : Lockfile) (mounts : List Mount) :
    ∀ (is : List Instruction) (user : String),
      t.directivesFrom l mounts user is = (t.blocksFrom l mounts user is).map fun bs => bs.flatMap Prod.snd
  | [], _ => rfl
  | i :: r, user => by
    rw [directivesFrom, blocksFrom]
    rcases t.directives l mounts user i with e | ⟨here, next⟩
    · rfl
    · change (t.directivesFrom l mounts next r >>= fun rest => pure (here ++ rest)) = _
      rw [directivesFrom_eq t l mounts r next]
      rcases hrest : t.blocksFrom l mounts next r with e | rest
      · simp [hrest, bind, Except.bind, Except.map]
      · simp [hrest, bind, Except.bind, Except.map, pure, Except.pure]

theorem map_fst_of_blocksFrom : ∀ {is : List Instruction} {user : String} {bs : List (Instruction × List Directive)},
    t.blocksFrom l mounts user is = .ok bs → bs.map Prod.fst = is
  | [], _, _, h => by rw [← Except.ok.inj h]; rfl
  | i :: r, _, _, h => by
    obtain ⟨here, next, rest, -, hrest, rfl⟩ := blocksFrom_cons_eq_ok.1 h
    rw [List.map_cons, map_fst_of_blocksFrom hrest]

end Target

/-- A daemon's plan consists of the texts of the directives that valid instructions come to. -/
theorem Plan.compile_eq_daemon_iff {is : List Instruction} {l : Lockfile} {t : Target} {p : DaemonPlan} :
    compile is l t = .ok (.daemon p) ↔ t.builder = .daemon ∧ Instruction.validate is = .ok () ∧
      ∃ mounts ds, t.mounts = .ok mounts ∧ t.directivesFrom l mounts t.defaultUser is = .ok ds ∧
        p = ⟨ds.map Directive.render, SortedMap.ofList (mounts.map fun m => (m.name, m.source))⟩ := by
  constructor
  · intro h
    have hvalid := validate_of_compile h
    obtain ⟨_, -, h⟩ := bind_eq_ok.1 h
    cases ht : t.builder with
    | direct =>
      rw [ht] at h
      obtain ⟨d, -, h⟩ := map_eq_ok.1 h
      cases h
    | daemon =>
      rw [ht] at h
      obtain ⟨plan, hplan, h⟩ := map_eq_ok.1 h
      cases h
      obtain ⟨mounts, hmounts, hplan⟩ := bind_eq_ok.1 hplan
      obtain ⟨ds, hds, hplan⟩ := bind_eq_ok.1 hplan
      exact ⟨rfl, hvalid, mounts, ds, mapError_eq_ok.1 hmounts, hds, (Except.ok.inj hplan).symm⟩
  · rintro ⟨ht, hvalid, mounts, ds, hmounts, hds, rfl⟩
    unfold compile
    rw [hvalid, ht]
    refine map_eq_ok.2 ⟨_, ?_, rfl⟩
    exact bind_eq_ok.2 ⟨mounts, mapError_eq_ok.2 hmounts, bind_eq_ok.2 ⟨ds, hds, rfl⟩⟩

end ImageRecipe
