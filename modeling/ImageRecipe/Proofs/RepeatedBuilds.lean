import ImageRecipe.Proofs.BuildStages
import ImageRecipe.Proofs.FailedBuilds

/-! Builds that are repeated. If nothing has changed since a build that came to an outcome, the next one finds the same
outcome in the cache. Not so if the build itself changed what it reads: then the next one may fail. -/

namespace ImageRecipe

open FileTree (Carries)
open Store (Contents Near Frame.within Frame.anywhere)
open WorkDirectory (Writes again remade)
open Workshop

namespace FileTree

variable {t t' : FileTree} {f : Option (Location × ByteArray)} {l : Location}

/-- A tree with one more file, or as it is. -/
def withFile (f : Option (Location × ByteArray)) (t : FileTree) : FileTree :=
  match f with
  | some (l, data) => t.put l (.file writtenMode data)
  | none => t

/-- There is neither a directory nor a link where a file is to be put. -/
def Takes (t : FileTree) (f : Option (Location × ByteArray)) : Prop :=
  ∀ x ∈ f, Entry.NoDirectory (t.entry? x.1) ∧ ∀ target, t.entry? x.1 ≠ some (.link target)

theorem entry?_withFile (hl : ∀ x ∈ f, l ≠ x.1) : FileTree.entry? (t.withFile f) l = t.entry? l := by
  cases f with
  | none => rfl
  | some x => exact t.entry?_put_of_ne (hl x rfl) _

theorem Takes.carries (h : t.Takes f) : Carries t (t.withFile f) := by
  cases f with
  | none => exact .refl t
  | some x => exact Carries.of_put_file (h x rfl).1 (h x rfl).2 _ _

theorem Takes.evolves (h : t.Takes f) {S : Location} : t.Evolves (Frame.anywhere S) (t.withFile f) := by
  cases f with
  | none => exact .refl t
  | some x => exact Store.put_anywhere (h x rfl).1 _ _

theorem Takes.carries_of (h : t.Takes f) : Carries (t.withFile f) t := by
  cases f with
  | none => exact .refl t
  | some x =>
    obtain ⟨hno, hlink⟩ := h x rfl
    have hroot : x.1 ≠ [] := by
      intro heq
      exact hno _ (heq ▸ t.entry?_root)
    constructor
    · intro l mode hl
      by_cases heq : l = x.1
      · rw [heq, withFile, t.entry?_put_self hroot] at hl
        cases hl
      · rwa [withFile, t.entry?_put_of_ne heq] at hl
    · intro l target
      by_cases heq : l = x.1
      · rw [heq, withFile, t.entry?_put_self hroot]
        exact ⟨fun h => (by cases h), fun h => absurd h (hlink target)⟩
      · rw [withFile, t.entry?_put_of_ne heq]

theorem Carries.withFile (h : Carries t t') (f : Option (Location × ByteArray)) :
    Carries (t.withFile f) (t'.withFile f) := by
  cases f with
  | none => exact h
  | some x => exact h.put_file _ _ _ _

/-- Trees with the same file differ where they did without it, but for its place. -/
theorem SameBut.withFile {K K' : Location → Prop} (h : SameBut K' t t') (hK : ∀ l, K' l → K l ∨ ∃ x ∈ f, l = x.1) :
    SameBut K (t.withFile f) (t'.withFile f) := by
  intro l hl
  cases f with
  | none => exact h l fun hK' => hl ((hK l hK').resolve_right (by simp))
  | some x =>
    by_cases heq : l = x.1
    · by_cases hroot : x.1 = []
      · rw [heq, hroot, entry?_root, entry?_root]
      · rw [heq, FileTree.withFile, FileTree.withFile, t.entry?_put_self hroot, t'.entry?_put_self hroot]
    · rw [FileTree.withFile, FileTree.withFile, t.entry?_put_of_ne heq, t'.entry?_put_of_ne heq]
      exact h l fun hK' => hl ((hK l hK').resolve_right (by simpa using heq))

theorem ne_none_withFile (h : t.entry? l ≠ none) : FileTree.entry? (t.withFile f) l ≠ none := by
  cases f with
  | none => exact h
  | some x =>
    by_cases heq : l = x.1
    · by_cases hroot : x.1 = []
      · rw [heq, hroot, entry?_root]
        simp
      · rw [heq, withFile, t.entry?_put_self hroot]
        simp
    · rwa [withFile, t.entry?_put_of_ne heq]

theorem noDirectory_withFile (h : Entry.NoDirectory (t.entry? l)) : Entry.NoDirectory (FileTree.entry? (t.withFile f) l) := by
  cases f with
  | none => exact h
  | some x =>
    by_cases heq : l = x.1
    · have hroot : x.1 ≠ [] := by
        rintro hroot
        rw [heq, hroot] at h
        exact h _ t.entry?_root
      rw [heq, withFile, t.entry?_put_self hroot]
      intro mode hmode
      cases hmode
    · rwa [withFile, t.entry?_put_of_ne heq]

end FileTree

/-- A place that a build wrote: one in the store, or one where some paths lead once it is done. -/
def Touched (s : Store) (h : Host) (paths : List String) (l : Location) : Prop :=
  s.place h.directory <+: l ∨ ∃ path ∈ paths, h.files.resolve false h.directory path = .ok l

/-- What a build leaves that cleared repository definitions away at a place and then found the store ready. -/
structure Aftermath (d : WorkDirectory) (s : Store) (paths : List String) (u : FileTree) (P : Location) (h h' : Host) :
    Prop where
  follows : d.Follows h.directory (s.place h.directory) u P h'.files
  before : (remade u P).Evolves (Frame.within (fun S l => S <+: l) (s.place h.directory)) h.files
  writes : Writes h.directory (s.place h.directory) paths h.files h'.files
  avoided : ∀ path ∈ paths, Store.AvoidedBy path
  directory : h'.directory = h.directory
  rooted : h.files.Rooted
  ready : s.Ready h
  plain : s.Plain h

namespace Aftermath

variable {d : WorkDirectory} {s : Store} {paths : List String} {u t : FileTree} {P l : Location} {h h' : Host}

theorem evolves_before (ha : Aftermath d s paths u P h h') :
    (remade u P).Evolves (Frame.anywhere (s.place h.directory)) h.files := Store.anywhere_of_within ha.before

theorem follows_ready (ha : Aftermath d s paths u P h h') : d.Follows h.directory (s.place h.directory) u P h.files :=
  (ha.follows.carries_of ha.evolves_before ha.writes.anywhere).1

theorem carries_ready (ha : Aftermath d s paths u P h h') : Carries h.files h'.files :=
  (ha.follows.carries_of ha.evolves_before ha.writes.anywhere).2

theorem carries_again (ha : Aftermath d s paths u P h h') : Carries h.files (again u h'.files P) :=
  ha.follows.carries_again ha.follows_ready ha.carries_ready

theorem sameBut_again (ha : Aftermath d s paths u P h h') :
    FileTree.SameBut (Touched s h' paths) h.files (again u h'.files P) := by
  intro l hl
  have hplace : ¬ s.place h.directory <+: l := fun hpre => hl (.inl (ha.directory ▸ hpre))
  let W : Location → Location → Prop := fun S l => S <+: l ∨ ∃ path ∈ paths, h'.files.resolve false h.directory path = .ok l
  have hW : ¬ W (s.place h.directory) l := by
    rintro (hpre | ⟨path, hpath, hpl⟩)
    · exact hplace hpre
    · exact hl (.inr ⟨path, hpath, ha.directory ▸ hpl⟩)
  have hbefore : (remade u P).Evolves (Frame.within W (s.place h.directory)) h.files :=
    Store.within_mono (fun _ => .inl) ha.before
  have hwrites : h.files.Evolves (Frame.within W (s.place h.directory)) h'.files :=
    Store.within_mono (fun _ => Or.imp_left And.left) (ha.writes.evolves ha.follows ha.evolves_before)
  exact ha.follows.sameBut_again ha.follows_ready (ha.ready.exists_place ha.plain ha.rooted) ha.rooted hbefore hwrites
    hW hplace

/-- What is near the store is as the build left it. -/
theorem entry?_again (ha : Aftermath d s paths u P h h') (hl : Near (s.place h.directory) l) :
   FileTree.entry? (again u h'.files P) l = h'.files.entry? l := ha.follows.entry?_again (ha.follows.not_prefix hl)

/-- The work directory and the store are got ready once more. -/
theorem yields_getReady (ha : Aftermath d s paths u P h h') {g : Host} (hf : g.files = h'.files)
    (hd : g.directory = h.directory) : Yields d.prepare g () { g with files := again u h'.files P } ∧
      Yields s.prepare { g with files := again u h'.files P } () { g with files := again u h'.files P } := by
  have hprepare := (hf ▸ ha.follows : d.Follows _ _ u P g.files).yields_prepare hd
  rw [hf] at hprepare
  refine ⟨hprepare, Store.Ready.yields_prepare ?_⟩
  have hcarries := ha.carries_again
  refine ha.ready.kept ha.plain (ha.plain.carries hcarries hd) hd (fun l mode _ => hcarries.directory l mode) ?_
  -- the version of the store is in a file that the build left alone
  obtain ⟨mode, data, hversion⟩ := ha.ready.exists_version ha.plain
  change FileTree.entry? (again u h'.files P) _ = _
  unfold Store.versionPlace at hversion ⊢
  rw [ha.entry?_again (Store.near_version List.prefix_rfl), hversion]
  refine Store.entry?_of_within (ha.writes.evolves ha.follows ha.evolves_before) ?_ hversion
  rintro (⟨-, hne⟩ | ⟨path, hpath, hl⟩)
  · exact hne rfl
  · exact (ha.avoided path hpath _ _ _ hl _).1 rfl

/-- A tree on the way is carried by the one in which the work directory is ready again. -/
theorem carries_of (ha : Aftermath d s paths u P h h') (hx : h.files.Evolves (Frame.anywhere (s.place h.directory)) t)
    (ht : t.Evolves (Frame.anywhere (s.place h.directory)) h'.files) :
    d.Follows h.directory (s.place h.directory) u P t ∧ Carries t (again u h'.files P) := by
  obtain ⟨hfollows, hcarries⟩ := ha.follows.carries_of (ha.evolves_before.trans hx) ht
  exact ⟨hfollows, ha.follows.carries_again hfollows hcarries⟩

/-- A file that the build wrote is written there once more. -/
theorem exists_file (ha : Aftermath d s paths u P h h') {x y : Host} {path : String} {data : ByteArray}
    (hx : h.files.Evolves (Frame.anywhere (s.place h.directory)) x.files) (hd : x.directory = h.directory)
    (hr : x.files.Rooted) (hpath : Store.AvoidedBy path) (hy : Yields (Host.writeBytes path data) x () y)
    (hrest : y.files.Evolves (Frame.anywhere (s.place h.directory)) h'.files) :
    ∃ l, y = { x with files := x.files.withFile (some (l, data)) } ∧ x.files.resolve false h.directory path = .ok l ∧
      x.files.Takes (some (l, data)) ∧ (again u h'.files P).Takes (some (l, data)) ∧
        ∀ g : Host, Carries x.files g.files → g.directory = h.directory → Entry.NoDirectory (g.files.entry? l) →
          Yields (Host.writeBytes path data) g () { g with files := g.files.withFile (some (l, data)) } := by
  obtain ⟨l, hl, hno, rfl⟩ := yields_writeBytes hy
  obtain ⟨hfollows, hcarries⟩ := ha.carries_of hx ((Store.put_anywhere hno _ _).trans hrest)
  have hlink := ha.follows.not_link hfollows hno hrest
  have hcache := (hpath _ _ _ hl (s.place h.directory)).2
  refine ⟨l, rfl, hd ▸ hl, ?_, ?_, fun g hg hdg hnog => ?_⟩
  · rintro _ ⟨⟩
    exact ⟨hno, hlink⟩
  · rintro _ ⟨⟩
    exact ⟨ha.follows.noDirectory_again hfollows hno hcache hrest, fun target h => hlink target ((hcarries.link ..).2 h)⟩
  · exact hg.yields_writeBytes (hdg.trans hd.symm) hr hl hlink hy hnog data

variable {f : Option (Location × ByteArray)} {g : Host}

/-- A file of the store that the build left is read once more, unless another file has come in its place. -/
theorem read_again (ha : Aftermath d s paths u P h h') {path : String} {ns : List FileName} (hl : s.Leads path ns)
    (hns : Store.repositoriesName ∉ ns) (hf : (again u h'.files P).Takes f)
    (hne : ∀ x ∈ f, s.place h.directory ++ ns ≠ x.1) (hg : g.files = (again u h'.files P).withFile f)
    (hd : g.directory = h.directory) {data : ByteArray} (hread : h'.files.read h'.directory path = .ok data) :
    g.files.read g.directory path = .ok data := by
  have hp' : s.Plain h' := ha.plain.anywhere ha.directory ha.writes.anywhere
  have hcarries : Carries h'.files g.files := hg ▸ (ha.follows.carries_again ha.follows (.refl _)).trans hf.carries
  obtain ⟨l, mode, hr, -⟩ := FileTree.read_ok hread
  have hr' : g.files.resolve true g.directory path = .ok l := by
    rw [hd, ← ha.directory]
    exact hcarries.resolve hr
  rw [← hread]
  rw [hd, ← ha.directory] at hr' ⊢
  refine FileTree.read_congr (hr'.trans hr.symm) fun l' hl' => ?_
  obtain rfl : l' = l := Except.ok.inj (hl'.symm.trans hr')
  obtain rfl := hl.resolve_eq hp' hr
  rw [ha.directory, hg, FileTree.entry?_withFile hne, ha.entry?_again (.inr ⟨ns, hns, rfl⟩)]

/-- What a path of the store led to is there once more. -/
theorem pathExists_again (ha : Aftermath d s paths u P h h') {path : String} {ns : List FileName} (hl : s.Leads path ns)
    (hns : Store.repositoriesName ∉ ns) (hf : (again u h'.files P).Takes f)
    (hg : g.files = (again u h'.files P).withFile f) (hd : g.directory = h.directory)
    (hexists : h'.files.pathExists h'.directory path = true) : g.files.pathExists g.directory path = true := by
  have hp' : s.Plain h' := ha.plain.anywhere ha.directory ha.writes.anywhere
  have hcarries : Carries h'.files g.files := hg ▸ (ha.follows.carries_again ha.follows (.refl _)).trans hf.carries
  obtain ⟨l, e, hr, he⟩ := FileTree.pathExists_iff.1 hexists
  have hsome : g.files.entry? l ≠ none := by
    obtain rfl := hl.resolve_eq hp' hr
    rw [hg]
    apply FileTree.ne_none_withFile
    rw [ha.directory, ha.entry?_again (.inr ⟨ns, hns, rfl⟩), ← ha.directory, he]
    simp
  obtain ⟨e', he'⟩ := Option.ne_none_iff_exists'.1 hsome
  refine FileTree.pathExists_iff.2 ⟨l, e', ?_, he'⟩
  rw [hd, ← ha.directory]
  exact hcarries.resolve hr

end Aftermath

namespace Recipe

variable {r : Recipe} {s : Store} {settings : Settings} {w w' v : Workshop} {o : Outcome} {j : Job}
  {h₁ h₂ h₃ h₄ h₅ : Host} {u : FileTree} {P : Location}

/-- The path of the definition of the local mirror, if there is one. -/
def mirrorPaths (r : Recipe) (settings : Settings) : List String :=
  match r.mirrors, r.distribution.localRepository settings.repositoryName with
  | true, .ok x => [r.mirrorPath x]
  | _, _ => []

/-- The paths of the files that a build writes, but for the store. -/
def writtenPaths (r : Recipe) (settings : Settings) : List String := r.mirrorPaths settings ++ r.generatedPaths

theorem mirrorPaths_of_mirrors {x : RepositoryDefinition} (hyes : r.mirrors = true)
    (hx : r.distribution.localRepository settings.repositoryName = .ok x) :
    r.mirrorPaths settings = [r.mirrorPath x] := by
  unfold mirrorPaths
  rw [hyes, hx]

theorem mirrorPaths_of_not (hno : r.mirrors = false) : r.mirrorPaths settings = [] := by
  unfold mirrorPaths
  rw [hno]

theorem avoidedBy_writtenPaths {path : String} (h : path ∈ r.writtenPaths settings) : Store.AvoidedBy path := by
  rcases List.mem_append.1 h with hmirror | hgenerated
  · unfold mirrorPaths at hmirror
    split at hmirror
    · next x _ hx =>
      obtain rfl := List.mem_singleton.1 hmirror
      exact avoidedBy_mirrorPath hx
    · cases hmirror
  · exact avoidedBy_generatedPaths hgenerated

/-- The local mirror is defined once more, with the same file. -/
theorem Mirrors.exists_again (hm : r.Mirrors settings h₂ h₃) {d : WorkDirectory} {paths : List String} {h' : Host}
    (ha : Aftermath d s paths u P h₂ h')
    (hrest : h₃.files.Evolves (Frame.anywhere (s.place h₂.directory)) h'.files) :
    ∃ f, h₃ = { h₂ with files := h₂.files.withFile f } ∧ h₂.files.Takes f ∧ (again u h'.files P).Takes f ∧
      (∀ path ∈ r.mirrorPaths settings, ∃ x ∈ f, h'.files.resolve false h₂.directory path = .ok x.1) ∧
      (∀ x ∈ f, ∀ key, IsDigest key → x.1 ≠ s.place h₂.directory ++ Store.cacheNames key) ∧
      ∀ g : Host, g.files = again u h'.files P → g.directory = h₂.directory →
        r.Mirrors settings g { g with files := g.files.withFile f } := by
  cases hm with
  | unneeded hno =>
    have hnone : ∀ t : FileTree, t.Takes none := fun _ _ hx => by cases hx
    refine ⟨none, rfl, hnone _, hnone _, ?_, fun _ hx => (by cases hx), fun g _ _ => .unneeded hno⟩
    simp [mirrorPaths_of_not hno]
  | @written _ x hyes hx hy =>
    obtain ⟨l, rfl, hl, htakes, htakes', hagain⟩ :=
      ha.exists_file (.refl _) rfl ha.rooted (avoidedBy_mirrorPath hx) hy hrest
    have hcarries := (ha.carries_of (.refl _) (htakes.evolves.trans hrest)).2
    refine ⟨_, rfl, htakes, htakes', fun path hpath => ?_, ?_, fun g hg hd => .written hyes hx (hagain g ?_ hd ?_)⟩
    · rw [mirrorPaths_of_mirrors hyes hx, List.mem_singleton] at hpath
      subst hpath
      exact ⟨_, rfl, ha.carries_ready.resolve hl⟩
    · rintro _ ⟨⟩
      exact (avoidedBy_mirrorPath hx _ _ _ hl _).2
    · exact hg ▸ hcarries
    · exact hg ▸ (htakes' _ rfl).1

/-- What the mirror and the image of a job write, and the result. -/
theorem Mirrors.writes {h h' : Host} (hm : r.Mirrors settings h h') {S : Location} :
    Writes h.directory S (r.writtenPaths settings) h.files h'.files ∧ h'.directory = h.directory := by
  cases hm with
  | unneeded => exact ⟨.done _, rfl⟩
  | written hyes hx hy =>
    exact Writes.of_yields (List.mem_append_left _ (by simp [mirrorPaths_of_mirrors hyes hx])) hy

namespace Stages

theorem directory_settled (hst : r.Stages s w w' o j h₁ h₂ h₃ h₄ h₅) (hp : s.Plain w.host) :
    h₂.directory = w.host.directory ∧ s.Plain h₂ ∧ s.Ready h₂ := by
  have he₁ : s.Evolves Store.Frame.all w.host h₁ :=
    (WorkDirectory.keeps_prepare Store.allowsClearing_all Store.allowsPlain_all).yields hst.cleared
  obtain ⟨hready, hcarries, hd⟩ := Store.ready_of_prepare (hp.evolves he₁) hst.ready
  exact ⟨hd.trans (he₁ hp).1.directory, (hp.evolves he₁).carries hcarries hd, hready⟩

/-- From the time that the store is ready a build only writes. -/
theorem writes (hst : r.Stages s w w' o j h₁ h₂ h₃ h₄ h₅) (hp : s.Plain w.host) :
    (Writes h₂.directory (s.place h₂.directory) (r.writtenPaths w.settings) h₂.files h₃.files ∧
      Writes h₂.directory (s.place h₂.directory) (r.writtenPaths w.settings) h₃.files h₄.files ∧
      Writes h₂.directory (s.place h₂.directory) (r.writtenPaths w.settings) h₄.files h₅.files ∧
      Writes h₂.directory (s.place h₂.directory) (r.writtenPaths w.settings) h₅.files w'.host.files) ∧
      w'.host.directory = h₂.directory := by
  obtain ⟨hd₂, hp₂, -⟩ := hst.directory_settled hp
  obtain ⟨hmirror, hd₃⟩ := hst.settled.mirror.writes (S := s.place h₂.directory)
  have hresult : WorkDirectory.resultFile ⟨r.workDirectory⟩ ∈ r.writtenPaths w.settings :=
    List.mem_append_right _ r.resultFile_mem_generatedPaths
  obtain ⟨hnoted, hd₅⟩ := Writes.of_yields (S := s.place h₂.directory) hresult ((yields_onFiles ..).1 hst.noted)
  have hmade := hst.made.mono (List.subset_append_right (r.mirrorPaths w.settings) _)
  rw [← hd₂] at hmade
  have hp₅ : s.Plain h₅ := by
    refine hp₂.anywhere (hd₅.trans (hst.directory.trans hd₂.symm)) (hmirror.anywhere.trans (hmade.anywhere.trans ?_))
    exact hnoted.anywhere
  obtain ⟨hsame, hchanges⟩ := hst.kept hp₅
  have hd : h₅.directory = h₂.directory := hd₅.trans (hst.directory.trans hd₂.symm)
  rw [hst.directory, ← hd₂] at hnoted
  exact ⟨⟨hmirror, hmade, hnoted, .store (hd ▸ hchanges.files) (.done _)⟩, hsame.directory.trans hd⟩

/-- A build that cleared repository definitions away, and not the store, leaves an aftermath. -/
theorem aftermath (hst : r.Stages s w w' o j h₁ h₂ h₃ h₄ h₅) (hp : s.Plain w.host) (hr : w.host.files.Rooted)
    (hcleared : (⟨r.workDirectory⟩ : WorkDirectory).Cleared w.host.directory u P) (hfiles : h₁.files = remade u P)
    (hstore : ¬ P <+: s.place w.host.directory)
    (hlink : ∀ l target, u.entry? l = some (.link target) → w'.host.files.entry? l = some (.link target)) :
    Aftermath ⟨r.workDirectory⟩ s (r.writtenPaths w.settings) u P h₂ w'.host := by
  obtain ⟨hd₂, hp₂, hready⟩ := hst.directory_settled hp
  obtain ⟨⟨hmirror, hmade, hnoted, hkept⟩, hd⟩ := hst.writes hp
  have he₁ : s.Evolves Store.Frame.all w.host h₁ :=
    (WorkDirectory.keeps_prepare Store.allowsClearing_all Store.allowsPlain_all).yields hst.cleared
  have hbefore : (remade u P).Evolves (Frame.within (fun S l => S <+: l) (s.place h₂.directory)) h₂.files := by
    have hframe : (Frame.within fun S l => S <+: l).AllowsStore :=
      ⟨fun _ _ _ hn hl => Store.near_room hn hl, fun _ => List.prefix_append .., fun _ => List.prefix_append ..⟩
    obtain ⟨hsame, hchanges⟩ := (Store.keeps_prepare hframe).yields hst.ready (hp.evolves he₁)
    rw [← hfiles, hsame.directory]
    exact hchanges.files
  have hwrites := hmirror.trans (hmade.trans (hnoted.trans hkept))
  rw [← hd₂] at hcleared hstore
  exact {
    follows := ⟨hcleared, hstore, (Store.anywhere_of_within hbefore).trans hwrites.anywhere, hlink⟩
    before := hbefore
    writes := hwrites
    avoided := fun _ => avoidedBy_writtenPaths
    directory := hd
    rooted := (hst.rooted hr).1
    ready := hready
    plain := hp₂ }

variable {f : Option (Location × ByteArray)} {g : Host}

/-- The recipe settles on the same job once more if the lockfile and the sources of the context are aside from what was
written. -/
theorem exists_settlesOn (hst : r.Stages s w w' o j h₁ h₂ h₃ h₄ h₅) (hp : s.Plain w.host)
    (ha : Aftermath ⟨r.workDirectory⟩ s (r.writtenPaths w.settings) u P h₂ w'.host)
    (hlock : FileTree.Aside (Touched s w'.host (r.writtenPaths w.settings)) h₃.files w'.host.files h₂.directory r.lockfile)
    (hsources : ∀ e ∈ BuildContext.placesOf j.directory j.instructions j.plan,
      FileTree.Aside (Touched s w'.host r.generatedPaths) h₃.files w'.host.files h₂.directory e.2)
    (hg : g.files = again u w'.host.files P) (hd : g.directory = h₂.directory) (hsettings : v.settings = w.settings)
    (hbases : v.session.resolveBases r.instructions = w.session.resolveBases r.instructions)
    (huser : v.userOf r.backend = w.userOf r.backend) :
    ∃ f, g.files.Takes f ∧
      (∀ x ∈ f, ∀ key, IsDigest key → x.1 ≠ s.place h₂.directory ++ Store.cacheNames key) ∧
      r.SettlesOn { v with host := g } j { g with files := g.files.withFile f } := by
  obtain ⟨⟨-, hmade, hnoted, hkept⟩, -⟩ := hst.writes hp
  have hm : r.Mirrors w.settings h₂ h₃ := hst.settled.mirror
  obtain ⟨f, rfl, htakes, htakes', hmirror, havoids, hagain⟩ := hm.exists_again ha (hmade.trans (hnoted.trans hkept)).anywhere
  rw [← hg] at htakes'
  have hback : Carries g.files w'.host.files := hg ▸ ha.follows.carries_of_again
  have hcarries : Carries h₂.files g.files := hg ▸ ha.carries_again
  have hsame := ha.sameBut_again
  rw [← hg] at hsame
  have hsame' : FileTree.SameBut (Touched s w'.host r.generatedPaths) (h₂.files.withFile f) (g.files.withFile f) := by
    refine hsame.withFile fun l hl => ?_
    rcases hl with hstore | ⟨path, hpath, hl⟩
    · exact .inl (.inl hstore)
    · rcases List.mem_append.1 hpath with hdefinition | hgenerated
      · obtain ⟨x, hx, hxl⟩ := hmirror path hdefinition
        rw [← ha.directory, hl] at hxl
        exact .inr ⟨x, hx, Except.ok.inj hxl⟩
      · exact .inl (.inr ⟨path, hgenerated, hl⟩)
  have hlock' : FileTree.Aside (Touched s w'.host (r.writtenPaths w.settings)) h₂.files g.files h₂.directory r.lockfile := by
    intro l hl
    obtain ⟨hl', hapart⟩ := hlock l (hback.resolve hl)
    exact ⟨htakes.carries_of.resolve hl', hapart⟩
  have hsources' : ∀ e ∈ BuildContext.placesOf j.directory j.instructions j.plan,
      FileTree.Aside (Touched s w'.host r.generatedPaths) (h₂.files.withFile f) (g.files.withFile f) h₂.directory e.2 :=
    fun e he l hl => hsources e he l (hback.resolve (htakes'.carries_of.resolve hl))
  refine ⟨f, htakes', havoids, hst.settled.congr hsettings hbases huser hd (hlock'.sameAt hcarries hsame) ?_ fun e he => ?_⟩
  · rw [hsettings]
    exact hagain g hg hd
  · exact BuildContext.sourceAt_congr hd ((hsources' e he).sameAt (hcarries.withFile f) hsame')

end Stages

end Recipe

end ImageRecipe
