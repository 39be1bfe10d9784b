import ImageRecipe.Proofs.LockGeneration

/-! Generating a lockfile again. The new answers come in one at a time, so that for a while they stand beside old pins
for other architectures; a package that has come to be one for all architectures is then refused. If none has, the
lockfile is the one that would be generated afresh. -/

namespace ImageRecipe

open Workshop

namespace Lockfile

variable {l l' l₁ l₂ l₃ : Lockfile} {d e : Distribution} {packages : List String} {p q : Pin}
  {answers A₁ A₂ : List Answer}

/-- A table of answers: each has pins of all packages and of no others, which can be installed on its architecture, and
no two that differ overlap, be it in one answer or in two. -/
structure Table (d : Distribution) (packages : List String) (answers : List Answer) : Prop where
  names : ∀ x ∈ answers, ∀ n ∈ packages, ∃ p ∈ x.2, p.name = n
  named : ∀ x ∈ answers, ∀ p ∈ x.2, p.name ∈ packages
  installable : ∀ x ∈ answers, ∀ p ∈ x.2, p.installableOn d x.1 = true
  apart : ∀ y ∈ answers, ∀ q ∈ y.2, ∀ x ∈ answers, ∀ p ∈ x.2, q.overlaps p = true → q = p

/-- Whether a table can take the place of another: a package that it has for all architectures was one for all
architectures before. Of one architecture alone there is nothing else for it to be refused for. -/
def Follows (A₁ A₂ : List Answer) : Prop :=
  (∀ x ∈ A₁, ∀ y ∈ A₁, x.1 = y.1) ∨
    ∀ x ∈ A₁, ∀ q ∈ x.2, ∀ y ∈ A₂, ∀ p ∈ y.2, p.name = q.name →
      isArchIndependent p.architecture = true → isArchIndependent q.architecture = true

namespace Table

theorem of_cons {x : Answer} (h : Table d packages (x :: answers)) : Table d packages answers where
  names y hy := h.names y (.tail x hy)
  named y hy := h.named y (.tail x hy)
  installable y hy := h.installable y (.tail x hy)
  apart y hy q hq z hz := h.apart y (.tail x hy) q hq z (.tail x hz)

/-- Of a table every pin comes out: where a later answer could replace it, the pin is in that answer as well. -/
theorem lasts_iff : ∀ {answers : List Answer}, Table d packages answers →
    (p.Lasts d answers ↔ ∃ x ∈ answers, p ∈ x.2)
  | [], _ => by simp [Pin.Lasts]
  | x :: r, h => by
    refine ⟨Pin.Lasts.exists_mem, ?_⟩
    rintro ⟨y, hy, hp⟩
    by_cases hlater : ∃ z ∈ r, p ∈ z.2
    · exact .inl (h.of_cons.lasts_iff.2 hlater)
    · rcases List.mem_cons.1 hy with rfl | hyr
      · refine .inr ⟨hp, fun z hz => ?_⟩
        rw [Bool.eq_false_iff]
        intro hpz
        obtain ⟨q, hq, hname⟩ := h.names z (.tail y hz) p.name (h.named y hy p hp)
        have hover := Pin.overlaps_of_installableOn hname.symm hpz (h.installable z (.tail y hz) q hq)
        have := h.apart y hy p hp z (.tail y hz) q hq hover
        exact hlater ⟨z, hz, this ▸ hq⟩
      · exact absurd ⟨y, hyr, hp⟩ hlater

theorem exists_adoptAll_empty (h : Table d packages answers) :
    ∃ l, empty.adoptAll d packages answers = .ok l :=
  unambiguous_empty.exists_adoptAll h.names h.apart fun _ hq => absurd hq SortedSet.not_mem_empty

/-- The lockfile that a table comes to has the pins of the table. -/
theorem mem_pins (h : Table d packages answers) (hl : empty.adoptAll d packages answers = .ok l) :
    q ∈ l.pins e ↔ e = d ∧ ∃ x ∈ answers, q ∈ x.2 := by
  rw [mem_pins_of_adoptAll hl, h.lasts_iff]
  simp

variable (h₁ : Table d packages A₁) (h₂ : Table d packages A₂) (hsame : A₂.map Prod.fst = A₁.map Prod.fst)
  (hl₁ : empty.adoptAll d packages A₁ = .ok l₁)

include h₁ h₂ hsame hl₁

/-- What is left of the old table while a new answer comes in is for other architectures alone, and so is not in the
way of a package for this one; one for all architectures was there before. -/
theorem exists_adoptAll (hfollows : Follows A₁ A₂) : ∃ l₂, l₁.adoptAll d packages A₂ = .ok l₂ := by
  refine (unambiguous_empty.adoptAll hl₁).exists_adoptAll h₂.names h₂.apart fun q hq x hx hout p hp hover => ?_
  obtain ⟨-, y, hy, hqy⟩ := (h₁.mem_pins hl₁).1 hq
  have hp' := h₂.installable x hx p hp
  exfalso
  rcases hfollows with hone | hall
  · obtain ⟨z, hz, hzx⟩ : ∃ z ∈ A₁, z.1 = x.1 := by
      rw [← List.mem_map, ← hsame]
      exact List.mem_map_of_mem hx
    rw [← hzx, hone z hz y hy, h₁.installable y hy q hqy] at hout
    cases hout
  · have := hall y hy q hqy x hx p hp (Pin.name_eq_of_overlaps hover).symm
      (Pin.isArchIndependent_of_overlaps hover hp' hout)
    rw [Pin.installableOn_of_isArchIndependent this] at hout
    cases hout

/-- A package that has come to be one for all architectures is in the first new answer, and overlaps with the old pin
for another architecture. -/
theorem follows_of_adoptAll (hl₂ : l₁.adoptAll d packages A₂ = .ok l₂) : Follows A₁ A₂ := by
  cases A₂ with
  | nil => exact .inr (by simp)
  | cons x r =>
    have hx := List.mem_cons_self (a := x) (l := r)
    by_cases hone : ∀ y ∈ A₁, y.1 = x.1
    · exact .inl fun y hy z hz => (hone y hy).trans (hone z hz).symm
    · obtain ⟨y, hy, hne⟩ : ∃ y ∈ A₁, y.1 ≠ x.1 := by simpa using hone
      refine .inr fun t ht q hq z hz p hp hname hall => ?_
      by_contra hspecific
      obtain ⟨l₀, hfirst, -⟩ := adoptAll_cons_eq_ok.1 hl₂
      have hok : (l₁.replacePartition d x.1 x.2).2 = .ok () := by rw [(adopt_eq_ok.1 hfirst).2]
      have hfree := ((unambiguous_empty.adoptAll hl₁).replacePartition_isOk_iff.1 hok).1
      have hpackage := h₂.named z hz p hp
      -- the new pin is in the first answer already
      obtain ⟨p', hp', hname'⟩ := h₂.names x hx p.name hpackage
      obtain rfl := h₂.apart z hz p hp x hx p' hp' (Pin.overlaps_of_isArchIndependent hname'.symm hall)
      -- and the old table has a pin of the package for the other architecture
      obtain ⟨q', hq', hqname⟩ := h₁.names y hy p.name hpackage
      have hspecific' : ¬ isArchIndependent q'.architecture = true := fun hq'all =>
        hspecific (h₁.apart y hy q' hq' t ht q hq
          (Pin.overlaps_of_isArchIndependent (hqname.trans hname) hq'all) ▸ hq'all)
      have hout : q'.installableOn d x.1 = false := by
        rw [Bool.eq_false_iff]
        exact fun hin => hspecific'
          (Pin.isArchIndependent_of_installableOn (h₁.installable y hy q' hq') hin hne)
      have hover : q'.overlaps p = true := by
        rw [Pin.overlaps_comm]
        exact Pin.overlaps_of_isArchIndependent hqname.symm hall
      exact hspecific' (hfree q' ((h₁.mem_pins hl₁).2 ⟨rfl, y, hy, hq'⟩) hout p hp' hover ▸ hall)

/-- Nothing of the old table stays in the lockfile. -/
theorem mem_pins_again (hl₂ : l₁.adoptAll d packages A₂ = .ok l₂) :
    q ∈ l₂.pins e ↔ e = d ∧ ∃ x ∈ A₂, q ∈ x.2 := by
  rw [mem_pins_of_adoptAll hl₂, h₂.lasts_iff, h₁.mem_pins hl₁]
  refine or_iff_right ?_
  rintro ⟨⟨rfl, y, hy, hq⟩, hout⟩
  obtain ⟨x, hx, hxy⟩ : ∃ x ∈ A₂, x.1 = y.1 := by
    rw [← List.mem_map, hsame]
    exact List.mem_map_of_mem hy
  have := hout rfl x hx
  rw [hxy, h₁.installable y hy q hq] at this
  cases this

end Table

/-- Answers that name every package are refused only because of a pin that overlaps with another. -/
theorem adoptAll_eq_error {e : LockError} : ∀ {answers : List Answer} {l : Lockfile},
    (∀ x ∈ answers, ∀ n ∈ packages, ∃ p ∈ x.2, p.name = n) → l.adoptAll d packages answers = .error e →
      ∃ x ∈ answers, ∃ p ∈ x.2, ∃ q, q.overlaps p = true ∧ e = .conflict d p q
  | x :: r, l, hnames, h => by
    rcases bind_eq_error.1 h with h | ⟨l₁, -, h⟩
    · obtain ⟨-, p, hp, hq⟩ := adopt_eq_error (hnames x List.mem_cons_self) h
      exact ⟨x, List.mem_cons_self, p, hp, hq⟩
    · obtain ⟨y, hy, hp⟩ := adoptAll_eq_error (fun y hy => hnames y (.tail x hy)) h
      exact ⟨y, .tail x hy, hp⟩

end Lockfile

namespace Recipe

variable {r : Recipe} {w w' v v' : Workshop} {l l' lock : Lockfile} {base : String} {packages : List String}
  {architectures : List Architecture} {answers answers' A₁ A₂ : List Answer}

/-- What a backend answers is decided by what it is asked for. -/
theorem Asked.unique (h : r.Asked base packages w answers v) : ∀ {answers' : List Answer},
    r.Asked base packages w answers' v' → answers'.map Prod.fst = answers.map Prod.fst → answers' = answers ∧ v' = v := by
  induction h with
  | nil =>
    intro answers' h' hmap
    cases List.map_eq_nil_iff.1 hmap
    cases h'
    exact ⟨rfl, rfl⟩
  | cons first _ ih =>
    intro answers' h' hmap
    cases h' with
    | nil => cases hmap
    | cons first' rest' =>
      obtain ⟨rfl, hrest⟩ := List.cons.inj hmap
      obtain ⟨rfl, rfl⟩ := first.unique first'
      obtain ⟨rfl, rfl⟩ := ih rest' hrest
      exact ⟨rfl, rfl⟩

/-- If answers cannot be taken in, the lockfile's error is that of locking. -/
theorem Asked.ran_foldlM_of_error {e : LockError} (h : r.Asked base packages w answers v) : ∀ {l : Lockfile},
    l.adoptAll r.distribution packages answers = .error e →
      (ran ((answers.map Prod.fst).foldlM (r.lockFor base packages) l) w).1 = .error (.ofLock e) := by
  induction h with
  | nil =>
    intro l h
    cases h
  | @cons w v _ a pins _ first _ ih =>
    intro l h
    have hfirst : ran (r.lockFor base packages l a) w =
        ((l.adopt r.distribution packages (a, pins)).mapError .ofLock, v) := by
      rw [lockFor_eq, first.ran_bind, ran_workshopOfExcept]
    rw [List.map_cons, List.foldlM_cons, ran_bind, hfirst]
    rcases bind_eq_error.1 h with h | ⟨l₁, hl₁, h⟩
    · rw [h]
      rfl
    · rw [hl₁]
      exact ih h

/-- Generation comes to a lockfile: that is what it writes, and it succeeds if it can be written. -/
def ComesTo (r : Recipe) (architectures : List Architecture) (w : Workshop) (lock : Lockfile) (v : Workshop) : Prop :=
  ∀ lock' w', Yields (r.generateLock architectures) w lock' w' ↔
    lock' = lock ∧ Yields (onHost .ofLock (lock.save r.lockfile)) v () w'

theorem Gathers.comesTo (h : r.Gathers w l answers v) (hlock : r.gathered l answers = .ok lock) :
    r.ComesTo (answers.map Prod.fst) w lock v := by
  intro lock' w'
  rw [yields_generateLock]
  constructor
  · rintro ⟨l', answers', v', hmap, h', hlock', hsave⟩
    obtain ⟨i, b, u, hi, hb, hload, hrest⟩ := h
    obtain ⟨i', b', u', hi', hb', hload', hrest'⟩ := h'
    obtain rfl := Except.ok.inj (hi.symm.trans hi')
    obtain rfl := Option.some.inj (hb.symm.trans hb')
    obtain ⟨rfl, rfl⟩ := hload.unique hload'
    unfold gathered at hlock hlock'
    split at hrest
    · next hempty =>
      rw [if_pos hempty] at hlock hlock' hrest'
      obtain rfl := Except.ok.inj (hlock'.symm.trans hlock)
      exact ⟨rfl, hrest ▸ hrest' ▸ hsave⟩
    · next hempty =>
      rw [if_neg hempty] at hlock hlock' hrest'
      obtain ⟨_, _, hopen, hasked⟩ := hrest
      obtain ⟨_, _, hopen', hasked'⟩ := hrest'
      obtain ⟨rfl, rfl⟩ := hopen.unique hopen'
      obtain ⟨rfl, rfl⟩ := hasked.unique hasked' hmap
      obtain rfl := Except.ok.inj (hlock'.symm.trans hlock)
      exact ⟨rfl, hsave⟩
  · rintro ⟨rfl, hsave⟩
    exact ⟨l, answers, v, rfl, h, hlock, hsave⟩

/-- If what was gathered is refused, so is the generation. -/
theorem Gathers.ran_generateLock_of_error {e : LockError} (h : r.Gathers w l answers v)
    (herror : r.gathered l answers = .error e) :
    (ran (r.generateLock (answers.map Prod.fst)) w).1 = .error (.ofLock e) := by
  obtain ⟨i, b, u, hi, hb, hload, hrest⟩ := h
  unfold gathered at herror
  split at herror
  · cases herror
  · next hempty =>
    rw [if_neg hempty] at hrest
    obtain ⟨_, _, hopen, hasked⟩ := hrest
    unfold generateLock
    rw [(yields_resolvedInstructions.2 ⟨hi, rfl⟩).ran_bind, (yields_baseOf.2 ⟨hb, rfl⟩).ran_bind]
    dsimp only
    rw [hload.ran_bind, if_neg hempty, hopen.ran_bind, ran_bind]
    have := hasked.ran_foldlM_of_error herror
    split
    · next heq =>
      rw [heq] at this
      cases this
    · next heq =>
      rw [heq] at this
      exact this

/-- A lockfile is generated from a table of answers and then again, for the same architectures, from another one. The
first generation succeeds, and so would one from the second table alone. The second one comes to the pins of the second
table, as if there had been no lockfile, if that table follows the first; otherwise it is refused for a package that has
come to be one for all architectures. -/
theorem generateLock_again {w₁ v₁ w₃ v₃ : Workshop} (h₁ : Lockfile.Table r.distribution r.requestedPackages A₁)
    (h₂ : Lockfile.Table r.distribution r.requestedPackages A₂) (hA₁ : A₁.map Prod.fst = architectures)
    (hA₂ : A₂.map Prod.fst = architectures) (first : r.Gathers w₁ .empty A₁ v₁)
    (fresh : r.Gathers w₃ .empty A₂ v₃) :
    ∃ l₁ l₃, r.ComesTo architectures w₁ l₁ v₁ ∧ r.ComesTo architectures w₃ l₃ v₃ ∧
      ∀ w₂ v₂, r.Gathers w₂ l₁ A₂ v₂ →
        (Lockfile.Follows A₁ A₂ → ∃ l₂, r.ComesTo architectures w₂ l₂ v₂ ∧ ∀ d p, p ∈ l₂.pins d ↔ p ∈ l₃.pins d) ∧
        (¬ Lockfile.Follows A₁ A₂ → ∃ p q, q.overlaps p = true ∧
          (ran (r.generateLock architectures) w₂).1 = .error (.ofLock (.conflict r.distribution p q))) := by
  subst hA₁
  by_cases hempty : r.requestedPackages.isEmpty = true
  · have hgathered : ∀ l A, r.gathered l A = .ok l := fun l A => if_pos hempty
    refine ⟨_, _, first.comesTo (hgathered _ _), hA₂ ▸ fresh.comesTo (hgathered _ _), fun w₂ v₂ again => ?_⟩
    refine ⟨fun _ => ⟨_, hA₂ ▸ again.comesTo (hgathered _ _), fun d p => Iff.rfl⟩, fun hnot => absurd (.inr ?_) hnot⟩
    intro x hx q hq
    have := h₁.named x hx q hq
    rw [List.isEmpty_iff.1 hempty] at this
    cases this
  · have hgathered : ∀ l A, r.gathered l A = l.adoptAll r.distribution r.requestedPackages A :=
      fun l A => if_neg hempty
    obtain ⟨l₁, hl₁⟩ := h₁.exists_adoptAll_empty
    obtain ⟨l₃, hl₃⟩ := h₂.exists_adoptAll_empty
    refine ⟨l₁, l₃, first.comesTo ((hgathered _ _).trans hl₁), hA₂ ▸ fresh.comesTo ((hgathered _ _).trans hl₃),
      fun w₂ v₂ again => ⟨fun hfollows => ?_, fun hnot => ?_⟩⟩
    · obtain ⟨l₂, hl₂⟩ := h₁.exists_adoptAll h₂ hA₂ hl₁ hfollows
      refine ⟨l₂, hA₂ ▸ again.comesTo ((hgathered _ _).trans hl₂), fun d p => ?_⟩
      rw [h₁.mem_pins_again h₂ hA₂ hl₁ hl₂, h₂.mem_pins hl₃]
    · cases hl₂ : l₁.adoptAll r.distribution r.requestedPackages A₂ with
      | ok l₂ => exact absurd (h₁.follows_of_adoptAll h₂ hA₂ hl₁ hl₂) hnot
      | error e =>
        obtain ⟨_, _, p, _, q, hover, rfl⟩ := Lockfile.adoptAll_eq_error h₂.names hl₂
        exact ⟨p, q, hover, hA₂ ▸ again.ran_generateLock_of_error ((hgathered _ _).trans hl₂)⟩

end Recipe

namespace Sample

/-- The answers of the mock backend for a recipe. -/
def answers : List Answer :=
  [.x86].map fun a => (a, Mock.resolvePackages installing.distribution a installing.requestedPackages)

theorem table_answers : Lockfile.Table installing.distribution installing.requestedPackages answers where
  names := by decide
  named := by decide
  installable := by decide
  apart := by decide

/-- The workshop with a lockfile. -/
def locked : Workshop :=
  { workshop with host.files := workshop.host.files.put [FileName.ofText "l"] (.file 0o644 (Text.bytes
    "lock_version = 1\n
[[package]]
distribution = \"ubuntu\"
architecture = \"amd64\"
name = \"curl\"
version = \"1.0.0\"
release = \"mock\"
")) }

theorem loadLock_workshop : (ran installing.loadLock workshop).1 = .ok Lockfile.empty := by decide +kernel

/-- A lockfile is generated, it is the one that is there in the other workshop, and there it is generated again. -/
theorem isOk_generateLock_again : (ran (installing.generateLock [.x86]) workshop).1.isOk = true ∧
    (ran installing.loadLock locked).1 = (ran (installing.generateLock [.x86]) workshop).1 ∧
      (ran (installing.generateLock [.x86]) locked).1.isOk = true := by
  decide +kernel

/-- A generation gathers the lockfile that is there and the answers of the mock backend. -/
theorem gathers_installing {w w' : Workshop} {lock l : Lockfile}
    (h : Yields (installing.generateLock [.x86]) w lock w') (hload : (ran installing.loadLock w).1 = .ok l) :
    ∃ v, installing.Gathers w l answers v := by
  obtain ⟨l', A, v, hmap, hgathers, -, -⟩ := Recipe.yields_generateLock.1 h
  have hA := hgathers.eq_mock rfl requestedPackages_installing
  rw [hmap] at hA
  obtain ⟨i, b, u, hi, hb, hload', hrest⟩ := id hgathers
  have hl : .ok l' = (.ok l : Except BuildError Lockfile) := by
    rw [← hload, show ran installing.loadLock w = (.ok l', u) from hload']
  rw [Except.ok.inj hl, hA] at hgathers
  exact ⟨v, hgathers⟩

end Sample

/-- With the mock backend, which always gives the same answers, a lockfile that is generated again has the pins that it
had. -/
theorem Recipe.generateLock_again_sample :
    ∃ lock w again w', Yields (Sample.installing.generateLock [.x86]) Sample.workshop lock w ∧
      (ran Sample.installing.loadLock Sample.locked).1 = .ok lock ∧
        Yields (Sample.installing.generateLock [.x86]) Sample.locked again w' ∧
          ∀ d p, p ∈ again.pins d ↔ p ∈ lock.pins d := by
  obtain ⟨lock, hlock⟩ := exists_of_isOk Sample.isOk_generateLock_again.1
  obtain ⟨again, hagain⟩ := exists_of_isOk Sample.isOk_generateLock_again.2.2
  have h : Yields (Sample.installing.generateLock [.x86]) Sample.workshop lock _ := Prod.ext hlock rfl
  have h' : Yields (Sample.installing.generateLock [.x86]) Sample.locked again _ := Prod.ext hagain rfl
  obtain ⟨v, first⟩ := Sample.gathers_installing h Sample.loadLock_workshop
  have hload := Sample.isOk_generateLock_again.2.1.trans hlock
  obtain ⟨v', second⟩ := Sample.gathers_installing h' hload
  obtain ⟨l₁, l₃, hfirst, hfresh, hsecond⟩ :=
    generateLock_again Sample.table_answers Sample.table_answers rfl rfl first first
  obtain rfl := ((hfirst _ _).1 h).1
  obtain rfl := ((hfresh _ _).1 h).1
  obtain ⟨l₂, hcomes, hpins⟩ := (hsecond _ _ second).1 (.inr (by decide))
  obtain rfl := ((hcomes _ _).1 h').1
  exact ⟨_, _, _, _, h, hload, h', hpins⟩

end ImageRecipe
