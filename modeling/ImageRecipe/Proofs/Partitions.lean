import Mathlib.Tactic.Common
import ImageRecipe.Proofs.Actions
import ImageRecipe.Proofs.Lockfiles

/-! Lockfiles that take in answers: a backend is asked for packages on one architecture after the other, and each
answer goes where the pins of its architecture were. What such a row of answers leaves of a lockfile, and when
it is refused, is told by the answers alone. -/

namespace ImageRecipe

theorem Architecture.packageName_injective {m : PackageManager} {a b : Architecture}
    (h : a.packageName m = b.packageName m) : a = b := by
  cases m <;> cases a <;> cases b <;> simp_all [Architecture.packageName]

/-- An architecture, and the pins that a backend answered for it. -/
abbrev Answer := Architecture × List Pin

namespace Pin

variable {p q : Pin} {d : Distribution} {a b : Architecture}

/-- A pin that can be installed on two architectures can be installed on all. -/
theorem isArchIndependent_of_installableOn (ha : p.installableOn d a = true) (hb : p.installableOn d b = true)
    (hne : a ≠ b) : isArchIndependent p.architecture = true := by
  unfold installableOn at ha hb
  rw [Bool.or_eq_true] at ha hb
  rcases ha with ha | ha
  · exact ha
  · rcases hb with hb | hb
    · exact hb
    · exact absurd (Architecture.packageName_injective ((eq_of_beq ha).symm.trans (eq_of_beq hb))) hne

/-- A pin that overlaps with one for an architecture, and cannot be installed there itself, can only do so with one
that can be installed on all. -/
theorem isArchIndependent_of_overlaps (h : q.overlaps p = true) (hp : p.installableOn d a = true)
    (hq : q.installableOn d a = false) : isArchIndependent p.architecture = true := by
  unfold installableOn at hp hq
  unfold overlaps at h
  rw [Bool.or_eq_false_iff] at hq
  rw [Bool.and_eq_true, Bool.or_eq_true, Bool.or_eq_true, hq.1] at h
  rw [Bool.or_eq_true] at hp
  rcases h.2 with (h | h) | h
  · rcases hp with hp | hp
    · exact hp
    · rw [eq_of_beq h, hp] at hq
      exact absurd hq.2 (by simp)
  · cases h
  · exact h

/-- A pin comes out of a row of answers: it is in one of them, and it cannot be installed on the architecture of any
later one. -/
def Lasts (d : Distribution) (p : Pin) : List Answer → Prop
  | [] => False
  | x :: r => p.Lasts d r ∨ p ∈ x.2 ∧ ∀ y ∈ r, p.installableOn d y.1 = false

theorem Lasts.exists_mem : ∀ {answers : List Answer}, p.Lasts d answers → ∃ x ∈ answers, p ∈ x.2
  | x :: r, h => by
    rcases h with h | h
    · obtain ⟨y, hy, hp⟩ := h.exists_mem
      exact ⟨y, List.mem_cons_of_mem x hy, hp⟩
    · exact ⟨x, List.mem_cons_self, h.1⟩

end Pin

namespace Lockfile

variable {l l' : Lockfile} {d e : Distribution} {a : Architecture} {p q : Pin} {ps : List Pin}

theorem insertAll_cons (l : Lockfile) (d : Distribution) (p : Pin) (r : List Pin) :
    l.insertAll d (p :: r) = match l.insert d p with
      | (l, .ok ()) => l.insertAll d r
      | (l, .error e) => (l, .error e) := rfl

theorem mem_pins_of_insertAll : ∀ {ps : List Pin} {l : Lockfile}, l.insertAll d ps = (l', .ok ()) →
    (q ∈ l'.pins e ↔ q ∈ l.pins e ∨ e = d ∧ q ∈ ps)
  | [], l, h => by
    have : l = l' := congrArg Prod.fst h
    simp [this]
  | p :: r, l, h => by
    rw [insertAll_cons] at h
    split at h
    · next l₁ heq =>
      rw [mem_pins_of_insertAll h, mem_pins_of_insert heq, List.mem_cons, and_or_left, or_assoc]
    · cases h

/-- What is refused is a pin of the list, because of another one of its package. -/
theorem insertAll_error : ∀ {ps : List Pin} {l : Lockfile} {e : LockError}, (l.insertAll d ps).2 = .error e →
    ∃ p ∈ ps, ∃ q, q.overlaps p = true ∧ e = .conflict d p q
  | p :: r, l, e, h => by
    rw [insertAll_cons] at h
    rcases l.insert_cases d p with ⟨-, heq⟩ | ⟨-, q, -, hqp, heq⟩ | ⟨-, -, heq⟩
    · rw [heq] at h
      obtain ⟨p', hp', hq⟩ := insertAll_error h
      exact ⟨p', List.mem_cons_of_mem p hp', hq⟩
    · rw [heq] at h
      exact ⟨p, List.mem_cons_self, q, hqp, (Except.error.inj h).symm⟩
    · rw [heq] at h
      obtain ⟨p', hp', hq⟩ := insertAll_error h
      exact ⟨p', List.mem_cons_of_mem p hp', hq⟩

/-- A replacement that succeeds takes the pins that can be installed on the architecture out and puts the new ones
in. -/
theorem mem_pins_of_replacePartition (h : l.replacePartition d a ps = (l', .ok ())) :
    q ∈ l'.pins e ↔ (q ∈ l.pins e ∧ (e = d → q.installableOn d a = false)) ∨ e = d ∧ q ∈ ps := by
  rw [mem_pins_of_insertAll h, mem_pins_withoutPartition]

/-- Pins can be inserted one after the other just when none overlaps with another one, there before or among them. -/
theorem Unambiguous.insertAll_isOk_iff : ∀ {ps : List Pin} {l : Lockfile}, l.Unambiguous →
    ((l.insertAll d ps).2 = .ok () ↔ (∀ q ∈ l.pins d, ∀ p ∈ ps, q.overlaps p = true → q = p) ∧
      ∀ q ∈ ps, ∀ p ∈ ps, q.overlaps p = true → q = p)
  | [], l, _ => by simp [Lockfile.insertAll]
  | p :: r, l, hl => by
    have hp := hl.insert_isOk_iff (d := d) (p := p)
    have hl₁ := hl.insert d p
    rw [insertAll_cons]
    split
    · next l₁ heq =>
      rw [heq] at hp hl₁
      have hmem {q : Pin} : q ∈ l₁.pins d ↔ q ∈ l.pins d ∨ q = p := by simp [mem_pins_of_insert heq]
      rw [Unambiguous.insertAll_isOk_iff hl₁]
      constructor
      · rintro ⟨hold, hnew⟩
        refine ⟨fun q hq x hx => ?_, fun q hq x hx => ?_⟩
        · rcases List.mem_cons.1 hx with rfl | hx
          · exact hp.1 rfl q hq
          · exact hold q (hmem.2 (.inl hq)) x hx
        · rcases List.mem_cons.1 hq with hqp | hqr <;> rcases List.mem_cons.1 hx with hxp | hxr
          · exact fun _ => hqp.trans hxp.symm
          · exact hold q (hmem.2 (.inr hqp)) x hxr
          · intro hover
            rw [Pin.overlaps_comm] at hover
            exact (hold x (hmem.2 (.inr hxp)) q hqr hover).symm
          · exact hnew q hqr x hxr
      · rintro ⟨hold, hnew⟩
        refine ⟨fun q hq x hx => ?_, fun q hq x hx => hnew q (.tail p hq) x (.tail p hx)⟩
        rcases hmem.1 hq with hq | rfl
        · exact hold q hq x (.tail p hx)
        · exact hnew q List.mem_cons_self x (.tail q hx)
    · next heq =>
      rw [heq] at hp
      simp only [reduceCtorEq, false_iff] at hp ⊢
      exact fun h => hp fun q hq => h.1 q hq p List.mem_cons_self

/-- A partition can be replaced just when no new pin overlaps with another one that stays or is new. -/
theorem Unambiguous.replacePartition_isOk_iff (hl : l.Unambiguous) :
    (l.replacePartition d a ps).2 = .ok () ↔
      (∀ q ∈ l.pins d, q.installableOn d a = false → ∀ p ∈ ps, q.overlaps p = true → q = p) ∧
        ∀ q ∈ ps, ∀ p ∈ ps, q.overlaps p = true → q = p := by
  unfold Lockfile.replacePartition
  rw [(hl.withoutPartition d a).insertAll_isOk_iff]
  simp only [mem_pins_withoutPartition, true_implies, and_imp]

/-- Take in an answer for packages. Each of them must be named in it. -/
def adopt (d : Distribution) (packages : List String) (l : Lockfile) (x : Answer) : Except LockError Lockfile :=
  let missing := packages.filter fun n => !x.2.any fun p => p.name == n
  if missing.isEmpty then
    match l.replacePartition d x.1 x.2 with
    | (l, .ok ()) => .ok l
    | (_, .error e) => .error e
  else .error (.unresolved d x.1 missing)

/-- Take in answers one after the other. -/
def adoptAll (d : Distribution) (packages : List String) (l : Lockfile) (answers : List Answer) :
    Except LockError Lockfile := answers.foldlM (adopt d packages) l

variable {packages : List String} {x : Answer} {answers : List Answer}

theorem adopt_eq_ok : l.adopt d packages x = .ok l' ↔
    (∀ n ∈ packages, ∃ p ∈ x.2, p.name = n) ∧ l.replacePartition d x.1 x.2 = (l', .ok ()) := by
  unfold adopt
  dsimp only
  split
  · next h =>
    have hnames : ∀ n ∈ packages, ∃ p ∈ x.2, p.name = n := by simpa using h
    rw [and_iff_right hnames]
    rcases l.replacePartition d x.1 x.2 with ⟨l₁, _ | _⟩ <;> simp
  · next h =>
    simp only [reduceCtorEq, false_iff, not_and]
    exact fun hnames => absurd (by simpa using hnames) h

/-- An answer that names every package is refused only because of a pin that overlaps with another. -/
theorem adopt_eq_error {e : LockError} (hnames : ∀ n ∈ packages, ∃ p ∈ x.2, p.name = n)
    (h : l.adopt d packages x = .error e) :
    (l.replacePartition d x.1 x.2).2 ≠ .ok () ∧ ∃ p ∈ x.2, ∃ q, q.overlaps p = true ∧ e = .conflict d p q := by
  unfold adopt at h
  rw [if_pos (by simpa using hnames)] at h
  rcases heq : l.replacePartition d x.1 x.2 with ⟨l₁, f | _⟩
  · rw [heq] at h
    have hf : (l.replacePartition d x.1 x.2).2 = .error f := by rw [heq]
    refine ⟨by simp, ?_⟩
    rw [← Except.error.inj h]
    exact insertAll_error hf
  · rw [heq] at h
    cases h

theorem adoptAll_cons_eq_ok : l.adoptAll d packages (x :: answers) = .ok l' ↔
    ∃ l₁, l.adopt d packages x = .ok l₁ ∧ l₁.adoptAll d packages answers = .ok l' := bind_eq_ok

theorem Unambiguous.adopt (hl : l.Unambiguous) (h : l.adopt d packages x = .ok l') : l'.Unambiguous := by
  have := hl.replacePartition d x.1 x.2
  rwa [(adopt_eq_ok.1 h).2] at this

theorem Unambiguous.adoptAll : ∀ {answers : List Answer} {l : Lockfile}, l.Unambiguous →
    l.adoptAll d packages answers = .ok l' → l'.Unambiguous
  | [], _, hl, h => Except.ok.inj h ▸ hl
  | _ :: _, _, hl, h => by
    obtain ⟨l₁, hx, hr⟩ := adoptAll_cons_eq_ok.1 h
    exact (hl.adopt hx).adoptAll hr

/-- Answers that are taken in name every package. -/
theorem names_of_adoptAll : ∀ {answers : List Answer} {l : Lockfile}, l.adoptAll d packages answers = .ok l' →
    ∀ x ∈ answers, ∀ n ∈ packages, ∃ p ∈ x.2, p.name = n
  | [], _, _ => by simp
  | x :: r, l, h => by
    obtain ⟨l₁, hx, hr⟩ := adoptAll_cons_eq_ok.1 h
    rintro y (- | ⟨-, hy⟩)
    · exact (adopt_eq_ok.1 hx).1
    · exact names_of_adoptAll hr y hy

/-- What is pinned after a row of answers: what was pinned before for other architectures, and what comes out of the
answers. -/
theorem mem_pins_of_adoptAll : ∀ {answers : List Answer} {l : Lockfile}, l.adoptAll d packages answers = .ok l' →
    (q ∈ l'.pins e ↔
      (q ∈ l.pins e ∧ (e = d → ∀ x ∈ answers, q.installableOn d x.1 = false)) ∨ e = d ∧ q.Lasts d answers)
  | [], l, h => by
    have : l = l' := Except.ok.inj h
    simp [this, Pin.Lasts]
  | x :: r, l, h => by
    obtain ⟨l₁, hx, hr⟩ := adoptAll_cons_eq_ok.1 h
    rw [mem_pins_of_adoptAll hr, mem_pins_of_replacePartition (adopt_eq_ok.1 hx).2]
    by_cases he : e = d
    · simp only [he, true_implies, true_and, List.forall_mem_cons, Pin.Lasts]
      tauto
    · simp [he]

/-- Answers can be taken in if each names every package, and no pin of theirs overlaps with another of theirs or with
one that is there for other architectures. -/
theorem Unambiguous.exists_adoptAll : ∀ {answers : List Answer} {l : Lockfile}, l.Unambiguous →
    (∀ x ∈ answers, ∀ n ∈ packages, ∃ p ∈ x.2, p.name = n) →
    (∀ y ∈ answers, ∀ q ∈ y.2, ∀ x ∈ answers, ∀ p ∈ x.2, q.overlaps p = true → q = p) →
    (∀ q ∈ l.pins d, ∀ x ∈ answers, q.installableOn d x.1 = false → ∀ p ∈ x.2, q.overlaps p = true → q = p) →
    ∃ l', l.adoptAll d packages answers = .ok l'
  | [], l, _, _, _, _ => ⟨l, rfl⟩
  | x :: r, l, hl, hnames, hapart, hold => by
    have hx := List.mem_cons_self (a := x) (l := r)
    have hok : (l.replacePartition d x.1 x.2).2 = .ok () :=
      hl.replacePartition_isOk_iff.2 ⟨fun q hq => hold q hq x hx, fun q hq => hapart x hx q hq x hx⟩
    obtain ⟨l₁, heq⟩ : ∃ l₁, l.replacePartition d x.1 x.2 = (l₁, .ok ()) := ⟨_, Prod.ext rfl hok⟩
    have hadopt : l.adopt d packages x = .ok l₁ := adopt_eq_ok.2 ⟨hnames x hx, heq⟩
    obtain ⟨l', hr⟩ := (hl.adopt hadopt).exists_adoptAll (fun y hy => hnames y (.tail x hy))
      (fun y hy q hq z hz => hapart y (.tail x hy) q hq z (.tail x hz)) (by
        intro q hq y hy hqy p hp
        rcases (mem_pins_of_replacePartition heq).1 hq with hq | hq
        · exact hold q hq.1 y (.tail x hy) hqy p hp
        · exact hapart x hx q hq.2 y (.tail x hy) p hp)
    exact ⟨l', adoptAll_cons_eq_ok.2 ⟨l₁, hadopt, hr⟩⟩

end Lockfile

end ImageRecipe
