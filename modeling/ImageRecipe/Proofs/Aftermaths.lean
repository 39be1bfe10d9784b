import ImageRecipe.Proofs.RepeatedPreparations

/-! What a build leaves in the files after repository definitions were cleared away. It makes directories around the
store alone and writes at some places; a work directory that is got ready after it is what it was before it, but for
these places. -/

namespace ImageRecipe

open FileTree (Carries)

namespace Store

/-- A place in a store that is not the one of its version. -/
def Contents (S l : Location) : Prop := S <+: l ∧ l ≠ S ++ versionNames

/-- The frame in which directories are made near the store and files are written at some places; of these the results in
the cache may be removed. -/
def Frame.within (W : Location → Location → Prop) : Frame := fun S l =>
  { makes := Near S l
    empties := False
    drops := W S l ∧ ∃ key, IsDigest key ∧ l = S ++ cacheNames key
    writes := fun _ => W S l }

/-- The frame in which files may be written anywhere. -/
def Frame.anywhere : Frame := Frame.within fun _ _ => True

section Within

variable {W W' : Location → Location → Prop} {S l : Location} {t t' : FileTree}

theorem within_mono (h : ∀ l, W S l → W' S l) (he : t.Evolves (Frame.within W S) t') : t.Evolves (Frame.within W' S) t' :=
  fun l => (he l).mono id id (And.imp_left (h l)) fun _ => h l

theorem anywhere_of_within (he : t.Evolves (Frame.within W S) t') : t.Evolves (Frame.anywhere S) t' :=
  within_mono (fun _ _ => trivial) he

theorem put_within (hl : W S l) (hno : Entry.NoDirectory (t.entry? l)) (mode : Nat) (data : ByteArray) :
    t.Evolves (Frame.within W S) (t.put l (.file mode data)) :=
  FileTree.Evolves.put_file (a := Frame.within W S) hl mode hno

theorem put_anywhere (hno : Entry.NoDirectory (t.entry? l)) (mode : Nat) (data : ByteArray) :
    t.Evolves (Frame.anywhere S) (t.put l (.file mode data)) := put_within trivial hno mode data

/-- Whatever there is at a place where nothing is written stays. -/
theorem entry?_of_within (he : t.Evolves (Frame.within W S) t') (hl : ¬ W S l) {e : Entry} (h : t.entry? l = some e) :
    t'.entry? l = some e := by
  have hloses : ∀ e, ¬ (Frame.within W S l).Loses e := by
    rintro e (h | ⟨⟨h, -⟩, -⟩)
    · exact h
    · exact hl h
  have hchange := he l
  rw [h] at hchange
  generalize t'.entry? l = e' at hchange
  cases hchange with
  | same => rfl
  | lost h => exact absurd h (hloses _)
  | made _ _ h => exact absurd (h.resolve_left (by simp)) (hloses _)
  | written _ _ h => exact absurd h hl

theorem directory_of_within (he : t.Evolves (Frame.within W S) t') {mode : Nat}
    (h : t.entry? l = some (.directory mode)) : t'.entry? l = some (.directory mode) := by
  have hchange := he l
  rw [h] at hchange
  exact hchange.directory id

theorem link_of_within (he : t.Evolves (Frame.within W S) t') {target : RawPath} (h : t'.entry? l = some (.link target)) :
    t.entry? l = some (.link target) := by
  have hchange := he l
  rw [h] at hchange
  exact hchange.link

/-- Where there is nothing, and nothing can be written, something comes up near the store alone. -/
theorem near_of_within (he : t.Evolves (Frame.within W S) t') (hl : ¬ W S l) (h : t.entry? l = none)
    (h' : t'.entry? l ≠ none) : Near S l := by
  have hchange := he l
  rw [h] at hchange
  generalize t'.entry? l = e' at hchange h'
  cases hchange with
  | same => exact absurd rfl h'
  | lost => exact absurd rfl h'
  | made _ hm => exact hm
  | written _ _ h => exact absurd h hl

/-- Where a file is written no directory comes up, but in the cache. -/
theorem noDirectory_of_within (he : t.Evolves (Frame.within W S) t') (hl : ∀ key, IsDigest key → l ≠ S ++ cacheNames key)
    {mode : Nat} {data : ByteArray} (h : t.entry? l = some (.file mode data)) : Entry.NoDirectory (t'.entry? l) := by
  intro m hm
  have hchange := he l
  rw [h, hm] at hchange
  cases hchange with
  | made _ _ h =>
    rcases h.resolve_left (by simp) with hempty | ⟨⟨-, key, hkey, heq⟩, -⟩
    · exact hempty
    · exact hl key hkey heq

end Within

end Store

open Store (Near Frame.within Frame.anywhere)

namespace WorkDirectory

variable {d : WorkDirectory} {dir S P l : Location} {u t x y : FileTree}

/-- A tree with the directory of repository definitions made anew. -/
def remade (u : FileTree) (P : Location) : FileTree := u.put P (u.newDirectory P)

/-- The tree once the work directory is got ready again. -/
def again (u t : FileTree) (P : Location) : FileTree := (t.eraseBelow P).put P (u.newDirectory P)

/-- What a build comes to that cleared repository definitions away, and not the store with them: no link has given way
to a file since then. -/
structure Follows (d : WorkDirectory) (dir S : Location) (u : FileTree) (P : Location) (t : FileTree) : Prop where
  cleared : d.Cleared dir u P
  store : ¬ P <+: S
  evolves : (remade u P).Evolves (Frame.anywhere S) t
  link : ∀ l target, u.entry? l = some (.link target) → t.entry? l = some (.link target)

theorem Cleared.ne_nil (hu : d.Cleared dir u P) : P ≠ [] := by
  rintro rfl
  simpa using hu.empty [] List.prefix_rfl

theorem Cleared.exists_outer (hu : d.Cleared dir u P) : ∃ outer, P = outer ++ [Store.repositoriesName] :=
  named_repositories hu.resolve_eq

theorem entry?_remade_of_ne (hne : l ≠ P) : FileTree.entry? (remade u P) l = u.entry? l := u.entry?_put_of_ne hne _

theorem Cleared.entry?_remade (hu : d.Cleared dir u P) : FileTree.entry? (remade u P) P = some (u.newDirectory P) :=
  u.entry?_put_self hu.ne_nil _

namespace Follows

/-- Nothing near the store lies among the repository definitions. -/
theorem not_prefix (h : d.Follows dir S u P t) (hl : Near S l) : ¬ P <+: l := by
  obtain ⟨outer, rfl⟩ := h.cleared.exists_outer
  exact hl.not_prefix h.store

theorem entry?_self (h : d.Follows dir S u P t) : t.entry? P = some (u.newDirectory P) :=
  Store.directory_of_within h.evolves h.cleared.entry?_remade

/-- No directory is made among the repository definitions. -/
theorem noDirectory (h : d.Follows dir S u P t) (hl : P <+: l) (hne : l ≠ P) : Entry.NoDirectory (t.entry? l) := by
  intro mode hmode
  have hchange := h.evolves l
  rw [hmode, entry?_remade_of_ne hne, h.cleared.empty l hl] at hchange
  cases hchange with
  | made _ hm => exact h.not_prefix hm hl

theorem carries (h : d.Follows dir S u P t) : Carries u t where
  directory l mode hl := by
    refine Store.directory_of_within h.evolves (.trans ( entry?_remade_of_ne ?_) hl)
    rintro rfl
    rw [h.cleared.empty l List.prefix_rfl] at hl
    cases hl
  link l target := by
    refine ⟨h.link l target, fun hl => ?_⟩
    have hremade := Store.link_of_within h.evolves hl
    have hne : l ≠ P := by
      rintro rfl
      rw [h.cleared.entry?_remade] at hremade
      cases hremade
    rwa [entry?_remade_of_ne hne] at hremade

/-- A tree on the way is carried on to the end. -/
theorem carries_of (h : d.Follows dir S u P t) (hx : (remade u P).Evolves (Frame.anywhere S) x)
    (ht : x.Evolves (Frame.anywhere S) t) : d.Follows dir S u P x ∧ Carries x t := by
  have hlink : ∀ l target, u.entry? l = some (.link target) → x.entry? l = some (.link target) := fun l target hl =>
    Store.link_of_within ht (h.link l target hl)
  have hx : d.Follows dir S u P x := ⟨h.cleared, h.store, hx, hlink⟩
  refine ⟨hx, fun l mode => Store.directory_of_within ht, fun l target => ⟨fun hl => ?_, Store.link_of_within ht⟩⟩
  exact h.link l target ((hx.carries.link l target).2 hl)

theorem entry?_again (h : d.Follows dir S u P t) (hl : ¬ P <+: l) : FileTree.entry? (again u t P) l = t.entry? l := by
  have hne : l ≠ P := by
    rintro rfl
    exact hl List.prefix_rfl
  rw [again, (t.eraseBelow P).entry?_put_of_ne hne, t.entry?_eraseBelow_of_not_prefix hl]

theorem entry?_again_self (h : d.Follows dir S u P t) : FileTree.entry? (again u t P) P = some (u.newDirectory P) :=
  (t.eraseBelow P).entry?_put_self h.cleared.ne_nil _

theorem entry?_again_below (h : d.Follows dir S u P t) (hl : P <+: l) (hne : l ≠ P) :
    FileTree.entry? (again u t P) l = none := by
  rw [again, (t.eraseBelow P).entry?_put_of_ne hne,
    t.entry?_eraseBelow_of_prefix hl (hl.ne_nil h.cleared.ne_nil)]

/-- A tree on the way is carried by the one in which the work directory is ready again. -/
theorem carries_again (h : d.Follows dir S u P t) (hx : d.Follows dir S u P x) (ht : Carries x t) :
    Carries x (again u t P) := by
  constructor
  · intro l mode hl
    by_cases hpre : P <+: l
    · by_cases heq : l = P
      · rw [heq, hx.entry?_self] at hl
        rw [heq, h.entry?_again_self, hl]
      · exact absurd hl (hx.noDirectory hpre heq mode)
    · rw [h.entry?_again hpre]
      exact ht.directory l mode hl
  · intro l target
    constructor
    · intro hl
      have hpre : ¬ P <+: l := by
        intro hpre
        have hu := (hx.carries.link l target).2 hl
        rw [h.cleared.empty l hpre] at hu
        cases hu
      rw [h.entry?_again hpre]
      exact (ht.link l target).1 hl
    · intro hl
      have hpre : ¬ P <+: l := by
        intro hpre
        by_cases heq : l = P
        · rw [heq, h.entry?_again_self] at hl
          cases hl
        · rw [h.entry?_again_below hpre heq] at hl
          cases hl
      rw [h.entry?_again hpre] at hl
      exact (ht.link l target).2 hl

/-- The tree in which the work directory is ready again has no directories and no links of its own. -/
theorem carries_of_again (h : d.Follows dir S u P t) : Carries (again u t P) t := by
  constructor
  · intro l mode hl
    by_cases hpre : P <+: l
    · by_cases heq : l = P
      · rw [heq, h.entry?_again_self] at hl
        rw [heq, h.entry?_self, hl]
      · rw [h.entry?_again_below hpre heq] at hl
        cases hl
    · rwa [h.entry?_again hpre] at hl
  · intro l target
    have hcarries := h.carries_again h (.refl t)
    exact (hcarries.link l target).symm

theorem yields_prepare {h : Host} (hf : d.Follows dir S u P h.files) (hd : h.directory = dir) :
    Yields d.prepare h () { h with files := again u h.files P } :=
  hf.cleared.yields_prepare hd hf.carries hf.entry?_self fun _ => hf.noDirectory

/-- A tree on the way in which the store is there is the same as the one in which the work directory is ready again, but
for the places that were written. -/
theorem sameBut_again (h : d.Follows dir S u P t) (hx : d.Follows dir S u P x)
    (hS : ∃ mode, x.entry? S = some (.directory mode)) (hr : x.Rooted) {W : Location → Location → Prop}
    (hux : (remade u P).Evolves (Frame.within W S) x) (ht : x.Evolves (Frame.within W S) t) {l : Location}
    (hl : ¬ W S l) (hlS : ¬ S <+: l) : FileTree.entry? (again u t P) l = x.entry? l := by
  by_cases hpre : P <+: l
  · by_cases heq : l = P
    · rw [heq, h.entry?_again_self, hx.entry?_self]
    · rw [h.entry?_again_below hpre heq]
      by_contra hsome
      refine hx.not_prefix (Store.near_of_within hux hl ?_ (Ne.symm hsome)) hpre
      rw [entry?_remade_of_ne heq, h.cleared.empty l hpre]
  · rw [h.entry?_again hpre]
    cases hxl : x.entry? l with
    | some e => exact Store.entry?_of_within ht hl hxl
    | none =>
      by_contra hsome
      -- what is near the store is on the way to it, and there are directories
      rcases Store.near_of_within ht hl hxl hsome with ⟨rest, hrest⟩ | ⟨ns, -, rfl⟩
      · have hne : rest ≠ [] := by
          rintro rfl
          exact hlS (by simp [← hrest])
        obtain ⟨mode, hS⟩ := hS
        obtain ⟨mode', hmode'⟩ := hr.of_prefix (p := l) hne (by simp [hrest, hS])
        rw [hxl] at hmode'
        cases hmode'
      · exact hlS (List.prefix_append ..)

/-- Where a file was written there is no directory once the work directory is ready again, but in the cache. -/
theorem noDirectory_again (h : d.Follows dir S u P t) (hx : d.Follows dir S u P x)
    (hno : Entry.NoDirectory (x.entry? l)) (hl : ∀ key, IsDigest key → l ≠ S ++ Store.cacheNames key) {mode : Nat}
    {data : ByteArray} (ht : (x.put l (.file mode data)).Evolves (Frame.anywhere S) t) :
    Entry.NoDirectory (FileTree.entry? (again u t P) l) := by
  have hroot : l ≠ [] := by
    rintro rfl
    exact hno _ x.entry?_root
  by_cases hpre : P <+: l
  · have hne : l ≠ P := by
      rintro rfl
      exact hno _ hx.entry?_self
    rw [h.entry?_again_below hpre hne]
    exact Entry.noDirectory_none
  · rw [h.entry?_again hpre]
    exact Store.noDirectory_of_within ht hl (x.entry?_put_self hroot _)

/-- A file that is written does not take the place of a link. -/
theorem not_link (h : d.Follows dir S u P t) (hx : d.Follows dir S u P x) (hno : Entry.NoDirectory (x.entry? l))
    {mode : Nat} {data : ByteArray} (ht : (x.put l (.file mode data)).Evolves (Frame.anywhere S) t) (target : RawPath) :
    x.entry? l ≠ some (.link target) := by
  intro hl
  have hroot : l ≠ [] := by
    rintro rfl
    exact hno _ x.entry?_root
  have hput := Store.link_of_within ht (h.link l target ((hx.carries.link l target).2 hl))
  rw [x.entry?_put_self hroot] at hput
  cases hput

end Follows

/-- Steps that write files at the ends of some paths, or do something in the store that leaves its version alone. -/
inductive Writes (dir S : Location) (paths : List String) : FileTree → FileTree → Prop
  | done (t : FileTree) : Writes dir S paths t t
  | store {t x y : FileTree}
      (h : t.Evolves (Frame.within Store.Contents S) x)
      (hy : Writes dir S paths x y) : Writes dir S paths t y
  | file {t y : FileTree} {path : String} {l : Location} {data : ByteArray} (hpath : path ∈ paths)
      (hl : t.resolve false dir path = .ok l) (hno : Entry.NoDirectory (t.entry? l))
      (hy : Writes dir S paths (t.put l (.file writtenMode data)) y) : Writes dir S paths t y

/-- The places that are written: what is in the store, but for its version, and where some paths lead in the end. -/
def Written (dir : Location) (paths : List String) (t : FileTree) (S l : Location) : Prop :=
  Store.Contents S l ∨ ∃ path ∈ paths, t.resolve false dir path = .ok l

namespace Writes

variable {paths : List String}

/-- To write a file at the end of one of the paths. -/
theorem of_yields {h h' : Host} {path : String} {data : ByteArray} {u : Unit} (hpath : path ∈ paths)
    (hy : Yields (Host.writeBytes path data) h u h') :
    Writes h.directory S paths h.files h'.files ∧ h'.directory = h.directory := by
  obtain ⟨l, hl, hno, rfl⟩ := yields_writeBytes hy
  exact ⟨.file hpath hl hno (.done _), rfl⟩

theorem mono {more : List String} (hpaths : paths ⊆ more) (h : Writes dir S paths t x) : Writes dir S more t x := by
  induction h with
  | done t => exact .done t
  | store h _ ih => exact .store h ih
  | file hpath hl hno _ ih => exact .file (hpaths hpath) hl hno ih

theorem trans (h : Writes dir S paths t x) (h' : Writes dir S paths x y) : Writes dir S paths t y := by
  induction h with
  | done => exact h'
  | store h _ ih => exact .store h (ih h')
  | file hpath hl hno _ ih => exact .file hpath hl hno (ih h')

theorem anywhere (h : Writes dir S paths t x) : t.Evolves (Frame.anywhere S) x := by
  induction h with
  | done t => exact .refl t
  | store h _ ih => exact (Store.anywhere_of_within h).trans ih
  | file _ _ hno _ ih => exact (Store.put_anywhere hno _ _).trans ih

/-- Steps that write keep to the places where their paths lead in the end. -/
theorem evolves (hy : d.Follows dir S u P y) (ht : (remade u P).Evolves (Frame.anywhere S) t)
    (h : Writes dir S paths t y) : t.Evolves (Frame.within (Written dir paths y) S) y := by
  induction h with
  | done t => exact .refl t
  | store h hrest ih =>
    exact (Store.within_mono (fun _ => .inl) h).trans (ih hy (ht.trans (Store.anywhere_of_within h)))
  | @file t y path l data hpath hl hno hrest ih =>
    have hput := Store.put_anywhere (S := S) hno writtenMode data
    have hcarries := (hy.carries_of ht (hput.trans hrest.anywhere)).2
    refine (Store.put_within ?_ hno _ _).trans (ih hy (ht.trans hput))
    exact .inr ⟨path, hpath, hcarries.resolve hl⟩

end Writes

end WorkDirectory

end ImageRecipe
