import ImageRecipe.Proofs.CacheHistory
import ImageRecipe.Proofs.Shelves

/-! A store that is prepared where nothing was: its directories are there, and there is nothing in them. -/

namespace ImageRecipe

theorem FileName.length_ofText_join_le (base name : String) :
    (ofText (Path.join base name)).length ≤ (ofText base).length + 1 + (ofText name).length := by
  have hslash : (ofText "/").length = 1 := by decide +kernel
  unfold Path.join
  split
  · omega
  · split
    · rw [ofText_append, List.length_append]
      omega
    · rw [ofText_append, ofText_append, List.length_append, List.length_append, hslash]

namespace Store

/-- The longest names that there is room for in the directories of a store. -/
def nameRoom : Nat := 70

/-- The path of a store leaves room for the names of its files. -/
def Short (s : Store) : Prop := (FileName.ofText s.root).length + 90 < FileTree.pathLimit

/-- Some directories of a store are there with nothing in them, and nothing else is. -/
structure Furnished (s : Store) (h : Host) (made : List String) : Prop where
  plain : s.Plain h
  room : ∀ name ∈ made,
    h.files.Room h.directory nameRoom (s.path name) (s.place h.directory ++ [FileName.ofText name])
  empty : ∀ n m ns, h.files.entry? (s.place h.directory ++ n :: m :: ns) = none
  missing : ∀ n, (∀ name ∈ made, n ≠ FileName.ofText name) → h.files.entry? (s.place h.directory ++ [n]) = none

variable {s : Store} {h h' : Host} {made : List String} {name : String}

theorem Short.path (hs : s.Short) (hname : name ∈ roomNames) :
    (FileName.ofText (s.path name)).length + nameRoom < FileTree.pathLimit := by
  have hlength : roomNames.all (fun name => decide ((FileName.ofText name).length ≤ 7)) = true := by decide +kernel
  have hseven := of_decide_eq_true (List.all_eq_true.1 hlength name hname)
  have hstore : (FileName.ofText "store").length = 5 := by decide +kernel
  have houter := FileName.length_ofText_join_le s.root "store"
  have hinner := FileName.length_ofText_join_le (Path.join s.root "store") name
  unfold Short at hs
  unfold Store.path nameRoom
  omega

/-- The frame in which directories are made on the way to a place in the store. -/
private def Frame.makesTo (ns : List FileName) : Frame := fun S l =>
  { makes := l <+: S ++ ns, empties := False, drops := False, writes := fun _ => False }

namespace Furnished

/-- One more directory is made. -/
theorem makePath (hf : s.Furnished h made) (hs : s.Short) (hname : name ∈ roomNames) (hnew : name ∉ made)
    (hy : Yields (onFiles (Host.makePath (s.path name))) h () h') : s.Furnished h' (name :: made) := by
  have hproper := FileName.proper_of_known (known_of_mem_roomNames hname)
  have hleads := leads_path (s := s) hproper
  have hmake := (yields_onFiles ..).1 hy
  have hkeeps := (hleads.keeps_makePath (f := Frame.makesTo _) fun _ _ => id).yields hmake
  obtain ⟨hset, hchanges⟩ := hkeeps hf.plain
  obtain ⟨files, hfiles, rfl⟩ := (yields_change ..).1 hmake
  have hgains := FileTree.gainsDirectories_makePath hfiles
  have hsame : ∀ l, ¬ l <+: s.place h.directory ++ [FileName.ofText name] → files.entry? l = h.files.entry? l := by
    intro l hl
    apply (hchanges.files l).eq_of_forbidden hl _ fun _ => id
    rintro e (hloses | ⟨hloses, -⟩) <;> exact hloses
  have hmissing : h.files.entry? (s.place h.directory ++ [FileName.ofText name]) = none :=
    hf.missing _ fun other hother heq => hnew (FileName.ofText_injective heq ▸ hother)
  have hends : Path.EndsInName (s.path name) := .join _ hproper
  have hunlinked := hleads.unlinked hf.plain
  have hdirectory := FileTree.isDirectory_makePath hends.isEmpty_eq hfiles
  obtain ⟨hresolve, mode, hmode⟩ := (hgains.carries.unlinked hunlinked).isDirectory_iff.1 hdirectory
  rw [hleads.named_eq] at hresolve hmode
  refine ⟨hf.plain.evolves hkeeps, fun other hother => ?_, fun n m ns => ?_, fun n hn => ?_⟩
  · rcases List.mem_cons.1 hother with rfl | hother
    · refine ⟨hends, hresolve, ⟨mode, hmode, fun r => ?_⟩, hs.path hname⟩
      rcases hgains (s.place h.directory ++ [FileName.ofText other]) with heq | ⟨-, hmade, -⟩
      · rw [heq, hmissing] at hmode
        cases hmode
      · rw [hmade] at hmode
        exact Option.some.inj hmode ▸ files.newDirectory_grants _ r
    · exact (hf.room other hother).carries hgains.carries
  · change files.entry? _ = none
    rw [hsame, hf.empty]
    intro hpre
    have := hpre.length_le
    simp at this
  · change files.entry? _ = none
    rw [hsame]
    · exact hf.missing n fun other hother => hn other (.tail _ hother)
    · intro hpre
      rw [List.prefix_append_right_inj] at hpre
      exact hn name List.mem_cons_self (by simpa using hpre)

/-- To note the version of a store leaves its directories as they are. -/
theorem noteVersion (hf : s.Furnished h made) {d : Document} (hy : Yields (writeDocument s.versionFile d) h () h') :
    ∀ name ∈ made,
      h'.files.Room h'.directory nameRoom (s.path name) (s.place h'.directory ++ [FileName.ofText name]) ∧
        ∀ n ns, h'.files.entry? (s.place h'.directory ++ FileName.ofText name :: n :: ns) = none := by
  have hleads : s.Leads s.versionFile [FileName.ofText "version"] :=
    leads_path (FileName.proper_of_fixed (by simp [fixedNames]))
  obtain ⟨l, hl, hdirectory, rfl⟩ := yields_writeBytes ((yields_onFiles ..).1 hy)
  obtain rfl := hleads.resolve_eq hf.plain hl
  have hlink := hf.plain.link_free _ (.inr (List.prefix_append (s.place h.directory) [FileName.ofText "version"]))
  have hcarries := FileTree.Carries.of_put_file hdirectory hlink writtenMode (Text.bytes (Json.pretty d))
  refine fun name hname => ⟨(hf.room name hname).carries hcarries, fun n ns => ?_⟩
  exact (h.files.entry?_put_of_ne (fun heq => by simpa using congrArg List.length heq) _).trans (hf.empty _ _ _)

/-- The directories of a store that is prepared where nothing was are there, and nothing is in them. -/
theorem prepare (hf : s.Furnished h []) (hs : s.Short) (hy : Yields s.prepare h () h') : ∀ name ∈ roomNames,
    h'.files.Room h'.directory nameRoom (s.path name) (s.place h'.directory ++ [FileName.ofText name]) ∧
      ∀ n ns, h'.files.entry? (s.place h'.directory ++ FileName.ofText name :: n :: ns) = none := by
  unfold Store.prepare at hy
  obtain ⟨_, h₁, hobjects, hy⟩ := (yields_bind ..).1 hy
  obtain ⟨_, h₂, himages, hy⟩ := (yields_bind ..).1 hy
  obtain ⟨_, h₃, htags, hy⟩ := (yields_bind ..).1 hy
  obtain ⟨_, h₄, hcache, hy⟩ := (yields_bind ..).1 hy
  obtain ⟨found, _, hlook, hy⟩ := (yields_bind ..).1 hy
  obtain ⟨hfound, rfl⟩ := (yields_look ..).1 hlook
  have hf₁ := hf.makePath hs (by simp [roomNames]) (by simp) hobjects
  have hf₂ := hf₁.makePath hs (by simp [roomNames]) (by simp) himages
  have hf₃ := hf₂.makePath hs (by simp [roomNames]) (by simp) htags
  have hf₄ := hf₃.makePath hs (by simp [roomNames]) (by simp) hcache
  have hmade : ∀ name ∈ roomNames, name ∈ ["cache", "tags", "images", "objects"] := by decide
  split at hy
  · obtain rfl := keeps_verifyVersion.yields hy
    exact fun name hname => ⟨hf₄.room name (hmade name hname), hf₄.empty _⟩
  · exact fun name hname => hf₄.noteVersion hy name (hmade name hname)

end Furnished

/-- Where nothing is at the place of a store there is nothing of the store. -/
theorem furnished_of_missing (hp : s.Plain h) (hr : h.files.Rooted) (hn : h.files.entry? (s.place h.directory) = none) :
    s.Furnished h [] := by
  have hnone : ∀ n ns, h.files.entry? (s.place h.directory ++ n :: ns) = none := by
    intro n ns
    by_contra hne
    obtain ⟨mode, hmode⟩ := hr.of_prefix (List.cons_ne_nil n ns) hne
    rw [hn] at hmode
    cases hmode
  exact ⟨hp, by simp, fun n m ns => hnone n (m :: ns), fun n _ => hnone n []⟩

end Store

namespace Sample

theorem short_store : store.Short := by
  have hlength : (FileName.ofText store.root).length = 2 := by decide +kernel
  unfold Store.Short
  rw [hlength]
  decide

theorem furnished_workshop : store.Furnished workshop.host [] :=
  Store.furnished_of_missing plain_workshop rooted_workshop (by decide +kernel)

/-- The host of the workshop once the store is prepared. -/
def preparedHost : Host := (ran store.prepare workshop.host).2

theorem yields_prepare : Yields store.prepare workshop.host () preparedHost := by
  obtain ⟨u, hu⟩ := exists_of_isOk (x := (ran store.prepare workshop.host).1) (by decide +kernel)
  exact Prod.ext hu rfl

end Sample

end ImageRecipe
