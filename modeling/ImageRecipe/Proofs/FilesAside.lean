import ImageRecipe.Proofs.ContextSources
import ImageRecipe.Proofs.LayersApart

/-! Files aside from what changes. A lockfile is read alike, and a context has the same bytes, as long as what changes is
not in what is read. -/

namespace ImageRecipe

namespace FileTree

variable {K : Location → Prop} {t t' : FileTree} {d : Location} {path : String}

/-- Two trees are the same but for some places. -/
def SameBut (K : Location → Prop) (t t' : FileTree) : Prop := ∀ l, ¬ K l → t'.entry? l = t.entry? l

/-- A path leads aside from some places: where it leads in the later one of two trees it led in the earlier one, and
none of the places is there or in what lies there. -/
def Aside (K : Location → Prop) (t t' : FileTree) (d : Location) (path : String) : Prop :=
  ∀ l, t'.resolve true d path = .ok l → t.resolve true d path = .ok l ∧ ∀ p, l <+: p → ¬ K p

/-- What a path leads to in two trees. -/
inductive SameAt (t t' : FileTree) (d : Location) (path : String) : Prop
  /-- The same, with all that lies in it. -/
  | there (l : Location) (h : t.resolve true d path = .ok l) (h' : t'.resolve true d path = .ok l)
      (hsame : ∀ p, l <+: p → t'.entry? p = t.entry? p)
  /-- Nothing in either. -/
  | nowhere (h : ∀ l, t.resolve true d path ≠ .ok l) (h' : ∀ l, t'.resolve true d path ≠ .ok l)

theorem Aside.sameAt (ha : Aside K t t' d path) (hc : Carries t t') (hs : SameBut K t t') : SameAt t t' d path := by
  by_cases h : ∃ l, t'.resolve true d path = .ok l
  · obtain ⟨l, hl⟩ := h
    obtain ⟨hl', hK⟩ := ha l hl
    exact .there l hl' hl fun p hp => hs p (hK p hp)
  · exact .nowhere (fun l hl => h ⟨l, hc.resolve hl⟩) fun l hl => h ⟨l, hl⟩

namespace SameAt

theorem refl (t : FileTree) (d : Location) (path : String) : SameAt t t d path := by
  by_cases h : ∃ l, t.resolve true d path = .ok l
  · obtain ⟨l, hl⟩ := h
    exact .there l hl hl fun _ _ => rfl
  · exact .nowhere (fun l hl => h ⟨l, hl⟩) fun l hl => h ⟨l, hl⟩

private theorem toOption_status_eq (h : SameAt t t' d path) :
    (t'.status d path).toOption = (t.status d path).toOption := by
  cases h with
  | there l hl hl' hsame =>
    rw [status_congr (hl'.trans hl.symm) fun p hp => ?_]
    obtain rfl : l = p := Except.ok.inj (hl'.symm.trans hp)
    exact hsame l List.prefix_rfl
  | nowhere hl hl' =>
    have hnone : ∀ {u : FileTree}, (∀ l, u.resolve true d path ≠ .ok l) → (u.status d path).toOption = none := by
      intro u hu
      cases hstatus : u.status d path with
      | error e => rfl
      | ok e =>
        obtain ⟨l, hl, -⟩ := status_ok hstatus
        exact absurd hl (hu l)
    rw [hnone hl, hnone hl']

theorem pathExists_eq (h : SameAt t t' d path) : t'.pathExists d path = t.pathExists d path := by
  unfold pathExists
  rw [h.toOption_status_eq]

theorem isDirectory_eq (h : SameAt t t' d path) : t'.isDirectory d path = t.isDirectory d path := by
  unfold isDirectory
  rw [h.toOption_status_eq]

theorem isFile_eq (h : SameAt t t' d path) : t'.isFile d path = t.isFile d path := by
  unfold isFile
  rw [h.toOption_status_eq]

theorem resolve_eq (h : SameAt t t' d path) {l : Location} (hl : t.resolve true d path = .ok l) :
    t'.resolve true d path = .ok l ∧ ∀ p, l <+: p → t'.entry? p = t.entry? p := by
  cases h with
  | there l' h h' hsame =>
    obtain rfl : l' = l := Except.ok.inj (h.symm.trans hl)
    exact ⟨h', hsame⟩
  | nowhere h => exact absurd hl (h l)

theorem read_eq (h : SameAt t t' d path) {l : Location} (hl : t.resolve true d path = .ok l) :
    t'.read d path = t.read d path := by
  obtain ⟨hl', hsame⟩ := h.resolve_eq hl
  refine read_congr (hl'.trans hl.symm) fun p hp => ?_
  obtain rfl : l = p := Except.ok.inj (hl'.symm.trans hp)
  exact hsame l List.prefix_rfl

theorem packDirectory_eq (h : SameAt t t' d path) {l : Location} (hl : t.resolve true d path = .ok l) (o : LayerOptions) :
    Archive.packDirectory t' d path o = Archive.packDirectory t d path o := by
  obtain ⟨hl', hsame⟩ := h.resolve_eq hl
  refine Archive.packDirectory_congr (hl'.trans hl.symm) (fun l₁ p hl₁ hp => ?_) o
  obtain rfl : l = l₁ := Except.ok.inj (hl.symm.trans hl₁)
  exact hsame p hp

end SameAt

end FileTree

/-- A list of actions that change nothing yields the same from a state in which each of them does. -/
theorem yields_mapM_congr {σ ε α β : Type} {f : α → ExceptT ε (StateM σ) β} (hf : ∀ a, Keeps Eq (f a)) {s v : σ} :
    ∀ {l : List α} {bs : List β} {s' : σ}, (∀ a ∈ l, ∀ b, Yields (f a) s b s → Yields (f a) v b v) →
      Yields (l.mapM f) s bs s' → Yields (l.mapM f) v bs v
  | [], _, _, _, h => (yields_mapM_nil ..).2 ⟨((yields_mapM_nil ..).1 h).1, rfl⟩
  | a :: l, _, _, hv, h => by
    obtain ⟨b, t, bs, hb, hbs, rfl⟩ := (yields_mapM_cons ..).1 h
    obtain rfl := (hf a).yields hb
    exact (yields_mapM_cons ..).2
      ⟨b, v, bs, hv a List.mem_cons_self b hb, yields_mapM_congr hf (fun a ha => hv a (.tail _ ha)) hbs, rfl⟩

variable {w v w' : Workshop}

namespace BuildContext

theorem sourceAt_congr {h h' : Host} {path : String} (hd : h'.directory = h.directory)
    (hs : h.files.SameAt h'.files h.directory path) : sourceAt h' path = sourceAt h path := by
  unfold sourceAt
  rw [hd, hs.isDirectory_eq, hs.isFile_eq]
  by_cases hexists : h.files.pathExists h.directory path = true
  · obtain ⟨e, he⟩ := FileTree.status_of_pathExists hexists
    obtain ⟨l, hl, -⟩ := FileTree.status_ok he
    rw [hs.packDirectory_eq hl, hs.read_eq hl]
  · have hnone : (h.files.status h.directory path).toOption = none := by simpa [FileTree.pathExists] using hexists
    simp [FileTree.isDirectory, FileTree.isFile, hnone]

theorem yields_sourceBytes_of_sourceAt {path : String} {s : Source} (hs : sourceAt w.host path = .ok s) :
    Yields (sourceBytes path) w s.bytes w := by
  unfold sourceAt at hs
  refine (yields_bind ..).2 ⟨w, w, (yields_get ..).2 ⟨rfl, rfl⟩, ?_⟩
  dsimp only
  split at hs
  · next hd =>
    obtain ⟨a, ha, rfl⟩ := map_eq_ok.1 hs
    rw [if_pos hd]
    exact (yields_onHost ..).2 ⟨w.host, (yields_inspect ..).2 ⟨ha, rfl⟩, rfl⟩
  · next hd =>
    rw [if_neg hd]
    split at hs
    · next hfile =>
      obtain ⟨data, hdata, rfl⟩ := map_eq_ok.1 hs
      rw [if_pos hfile]
      refine (yields_bind ..).2 ⟨data, w, ?_, (yields_pure ..).2 ⟨rfl, rfl⟩⟩
      exact (yields_onHost ..).2 ⟨w.host, (yields_inspect ..).2 ⟨hdata, rfl⟩, rfl⟩
    · next hfile =>
      cases hs
      rw [if_neg hfile]
      exact (yields_pure ..).2 ⟨rfl, rfl⟩

theorem yields_headed_congr {heading path : String} {bs : List UInt8} (hs : sourceAt v.host path = sourceAt w.host path)
    (hy : Yields (headed heading path) w bs w') : Yields (headed heading path) v bs v := by
  obtain ⟨b, _, hsource, hpure⟩ := (yields_bind ..).1 hy
  obtain ⟨rfl, s, hs', rfl⟩ := yields_sourceBytes hsource
  obtain ⟨rfl, -⟩ := (yields_pure ..).1 hpure
  rw [← hs] at hs'
  exact (yields_bind ..).2 ⟨_, v, yields_sourceBytes_of_sourceAt hs', (yields_pure ..).2 ⟨rfl, rfl⟩⟩

private theorem yields_stream_congr {d : WorkDirectory} {instructions : List Instruction} {p : Plan} {bs : List UInt8}
    (hs : ∀ e ∈ placesOf d instructions p, sourceAt v.host e.2 = sourceAt w.host e.2)
    (hy : Yields (stream d instructions p) w bs w') : Yields (stream d instructions p) v bs v := by
  unfold stream at hy ⊢
  obtain ⟨layers, _, hlayers, hy⟩ := (yields_bind ..).1 hy
  obtain ⟨mounts, _, hmounts, hpure⟩ := (yields_bind ..).1 hy
  obtain ⟨hbs, -⟩ := (yields_pure ..).1 hpure
  obtain rfl := (Keeps.mapM _ fun n _ => keeps_headed ..).yields hlayers
  have hlayer : ∀ n ∈ copiedLayers instructions, ∀ b, Yields (headed ("layer" ++ Text.decimal n) (d.layer n)) w b w →
      Yields (headed ("layer" ++ Text.decimal n) (d.layer n)) v b v := fun n hn _ hb =>
    yields_headed_congr (hs (_, d.layer n) (List.mem_append_left _ (List.mem_map.2 ⟨n, hn, rfl⟩))) hb
  have hmount : ∀ m ∈ visibleMounts p, ∀ b, Yields (headed ("mount " ++ m.1) (d.path m.2)) w b w →
      Yields (headed ("mount " ++ m.1) (d.path m.2)) v b v := fun m hm _ hb =>
    yields_headed_congr (hs (_, d.path m.2) (List.mem_append_right _ (List.mem_map.2 ⟨m, hm, rfl⟩))) hb
  have hlayers' := yields_mapM_congr (fun n => keeps_headed ("layer" ++ Text.decimal n) (d.layer n)) hlayer hlayers
  obtain rfl := (Keeps.mapM _ fun (m : String × String) _ => keeps_headed ("mount " ++ m.1) (d.path m.2)).yields hmounts
  have hmounts' := yields_mapM_congr (fun (m : String × String) => keeps_headed ("mount " ++ m.1) (d.path m.2)) hmount hmounts
  exact (yields_bind ..).2 ⟨layers, v, hlayers', (yields_bind ..).2 ⟨mounts, v, hmounts', (yields_pure ..).2 ⟨hbs, rfl⟩⟩⟩

/-- A context has the same digest where its sources are the same. -/
theorem yields_digest_congr {d : WorkDirectory} {instructions : List Instruction} {p : Plan} {c : String}
    (hs : ∀ e ∈ placesOf d instructions p, sourceAt v.host e.2 = sourceAt w.host e.2)
    (hy : Yields (digest d instructions p) w c w') : Yields (digest d instructions p) v c v := by
  obtain ⟨bs, _, hstream, hpure⟩ := (yields_bind ..).1 hy
  obtain ⟨hc, -⟩ := (yields_pure ..).1 hpure
  exact (yields_bind ..).2 ⟨bs, v, yields_stream_congr hs hstream, (yields_pure ..).2 ⟨hc, rfl⟩⟩

end BuildContext

/-- A lockfile is loaded alike where its path leads to the same. -/
theorem Recipe.yields_loadLock_congr {r : Recipe} {lock : Lockfile} (hd : v.host.directory = w.host.directory)
    (hs : w.host.files.SameAt v.host.files w.host.directory r.lockfile) (hy : Yields r.loadLock w lock w') :
    w' = w ∧ Yields r.loadLock v lock v := by
  unfold loadLock at hy ⊢
  obtain ⟨b, _, hlook, hy⟩ := (yields_bind ..).1 hy
  obtain ⟨_, hfound, rfl⟩ := (yields_onHost ..).1 hlook
  obtain ⟨hb, rfl⟩ := (yields_look ..).1 hfound
  have hlook' : Yields (Workshop.onHost .io (Host.pathExists r.lockfile : HostM Fault Bool)) v b v := by
    refine (yields_onHost ..).2 ⟨v.host, (yields_look ..).2 ⟨?_, rfl⟩, rfl⟩
    rw [hd, hs.pathExists_eq, hb]
  rw [yields_bind]
  split at hy
  · next hthere =>
    obtain ⟨_, hload, rfl⟩ := (yields_onHost ..).1 hy
    obtain ⟨text, _, htext, hrest⟩ := (yields_bind ..).1 hload
    obtain ⟨hparse, rfl⟩ := (yields_ofExcept ..).1 hrest
    obtain ⟨rfl, data, hdata, ht⟩ := yields_readText.1 ((yields_failingAs ..).1 htext)
    obtain ⟨l, mode, hl, -⟩ := FileTree.read_ok hdata
    rw [← hs.read_eq hl, ← hd] at hdata
    refine ⟨rfl, b, v, hlook', ?_⟩
    rw [if_pos hthere]
    refine (yields_onHost ..).2 ⟨v.host, (yields_bind ..).2 ⟨text, v.host, ?_, (yields_ofExcept ..).2 ⟨hparse, rfl⟩⟩, rfl⟩
    exact (yields_failingAs ..).2 (yields_readText.2 ⟨rfl, data, hdata, ht⟩)
  · next hthere =>
    obtain ⟨rfl, rfl⟩ := (yields_pure ..).1 hy
    refine ⟨rfl, b, v, hlook', ?_⟩
    rw [if_neg hthere]
    exact (yields_pure ..).2 ⟨rfl, rfl⟩

end ImageRecipe
