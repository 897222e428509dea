/-
What opening for writing keeps.

The walk stands at the folder of the path that it has gone (`WalksIn`), makes
a folder only where nothing has its name, and puts into the cache what it
listed or made under its path. So it keeps whatever of cache and tree is kept
by these (`KeptByWalks`), and the handle it ends with renames nothing.
-/
import GDrive.Fs.Growth
import GDrive.Fs.ParentWalk

namespace GDrive

open Interaction Naming

/-- What a handle was opened to publish. -/
def WriteHandle.target (h : WriteHandle) : OpenUpload := ⟨h.file.id, h.writeParentId, h.writeName⟩

/-- Something of the path cache and the tree, by which the cache agrees with
the tree, that a folder of a free name does not end. `X` and `Y` are what is
known of its entries and its metadata. -/
structure KeptByWalks (auth : AuthContext) (X : World → DriveFileMeta → Nat → Prop)
    (Y : World → Nat → Str → DriveFileMeta → Prop) (K : PathCache → World → Prop) : Prop where
  agrees : ∀ {c w}, K c w → CacheInv w auth (X w) (Y w) c
  root : ∀ {c w}, K c w → rootFolderFor auth = w.rootAlias
  recache : ∀ {c c' w}, K c w → CacheInv w auth (X w) (Y w) c' → K c' w
  listed : ∀ {c w p s folder} g, K c w → w.foldersNamed p s = [folder] → X w folder g
  creates : ∀ {c w w' p folder}, K c w → w.Creates p folder w' → folder.isFolder = true →
    w.named (w.deref p) folder.name = [] → w'.sessions = w.sessions → K c w'

/-- Where the walk of `OpenFile` stands: at the folder of the path, in which
nothing lies if it is new. -/
structure WalksIn (K : PathCache → World → Prop) (done : List Str) (p : Str) (new : Bool)
    (c : PathCache) (w : World) : Prop where
  kept : K c w
  folder : w.folderAt done = some (w.deref p)
  empty : new = true → w.children (w.deref p) = []

section FolderWalk

variable {pj : Picojson} {rounds : Nat} {o : Opener} {R : Rel Client World}
  {mayFail : CallReq → Prop} {X : World → DriveFileMeta → Nat → Prop}
  {Y : World → Nat → Str → DriveFileMeta → Prop} {K : PathCache → World → Prop} {w : World}
  {c c' : PathCache}

theorem WalksIn.enter {done : List Str} {p s : Str} {folder : DriveFileMeta}
    (h : WalksIn K done p false c w) (hc' : K c' w)
    (hstep : w.step (w.deref p) s = some folder.id) :
    WalksIn K (done ++ [s]) folder.id false c' w := by
  have hfolder : w.folderAt (done ++ [s]) = some folder.id :=
    walk_concat_eq_some.mpr ⟨_, h.folder, hstep⟩
  refine ⟨hc', ?_, nofun⟩
  rw [World.deref_folderAt hfolder]
  exact hfolder

theorem KeptByWalks.walkInv (hK : KeptByWalks o.auth X Y K) : WalkInv o (WalksIn K) K where
  thrown h := h.kept
  hit := by
    intro done p s c w file fresh hsegs h hget hkind
    have hagrees := hK.agrees h.kept
    obtain ⟨hnames, -⟩ := hagrees.hit hsegs hget
    refine h.enter (hK.recache h.kept (hagrees.tryGet _ _).1) ?_
    have hstep := (hnames.concat h.folder).2
    rw [if_pos hkind] at hstep
    exact hstep
  looked := by
    intro done p c w key h
    exact ⟨hK.recache h.kept ((hK.agrees h.kept).tryGet _ _).1, h.folder, nofun⟩
  dropped := by
    intro done p c w key h
    exact ⟨hK.recache h.kept ((hK.agrees h.kept).invalidatePrefix _), h.folder, nofun⟩
  adopted := by
    intro done p s c w folder hsegs h hfolder
    refine h.enter (hK.recache h.kept ((hK.agrees h.kept).put ?_ (hK.listed _ h.kept hfolder)).1)
      (World.step_eq_some.mpr ⟨_, hfolder, rfl⟩)
    intro segments hsegments hpath
    rw [← joinPath_injective hsegs hsegments hpath]
    exact World.names_folder h.folder hfolder
  made := by
    intro done p new s c w w' folder hsegs h hlisted hkind hname hcreates hopen
    have hfree : w.named (w.deref p) folder.name = [] := by
      rw [hname]
      cases new with
      | false => exact hlisted rfl
      | true => exact World.named_eq_nil (h.empty rfl)
    have hmade := hcreates.makesFolder hkind
    have hkept := hK.creates h.kept hcreates hkind hfree hopen
    have hpath := hmade.folderAt_new hfree h.folder
    rw [hname] at hpath
    have hderef := World.deref_folderAt hpath
    -- The new folder is all that has its name.
    have halone : w'.named (w.deref p) s = [folder] := by
      rw [hmade.named, ← hname, hfree, if_pos ⟨rfl, rfl⟩]
      rfl
    have hfolders : w'.foldersNamed (w.deref p) s = [folder] := by
      unfold World.foldersNamed
      rw [halone, List.filter_cons_of_pos hkind]
      rfl
    refine ⟨⟨hK.recache hkept ((hK.agrees hkept).put ?_ (hK.listed _ hkept hfolders)).1, ?_, ?_⟩,
      hkept⟩
    · intro segments hsegments hjoin
      rw [← joinPath_injective hsegs hsegments hjoin]
      exact World.names_leaf (hmade.folderAt_mono hfree h.folder) halone
    · rw [hderef]
      exact hpath
    · intro _
      rw [hderef]
      exact hmade.children_new

/-- A handle that has just been opened: nothing has been sent of it, and what
it is to publish renames nothing. -/
structure WriteHandle.Fresh (h : WriteHandle) (w : World) : Prop where
  isWrite : h.isWrite = true
  session : h.uploadSession = []
  keepsName : w.KeepsName h.target

/-- Opening for writing. -/
theorem wp_openFileForWriting_kept
    (hR : ∀ w q r w', R w q r w' → treeRel pj mayFail w q r w') (hrounds : 1 ≤ rounds)
    (hK : KeptByWalks o.auth X Y K) (h : K c w) (path : Str) :
    Code.wp (fsEnv R) (openFileForWriting pj rounds o path)
      (fun out c' w' => K c' w' ∧ ∀ handle, out = .ok handle → handle.Fresh w') c w := by
  unfold openFileForWriting checkedUri
  rw [Code.wp_bind]
  split
  · exact ⟨h, nofun⟩
  · rename_i uri hparse
    split
    · rw [Code.wp_pure, Code.outcome_ok]
      split
      · refine ⟨h, ?_⟩
        intro handle hhandle
        cases hhandle
        exact ⟨rfl, rfl, .inr (.inl rfl)⟩
      · rename_i segments
        simp only
        split
        · exact ⟨h, nofun⟩
        · rw [Code.wp_bind]
          have hstart : WalksIn K [] (rootFolderFor o.auth) false c w := by
            refine ⟨h, ?_, nofun⟩
            rw [hK.root h, World.deref_alias]
            rfl
          have hsegs : ∀ t ∈ [] ++ segments.dropLast, Segment t :=
            fun t ht => segment_of_parse hparse t (List.dropLast_subset _ ht)
          refine Code.wp_mono (wp_walkParents hR hrounds hK.walkInv hsegs hstart) ?_
          intro out c₁ w₁ hwalk
          cases out with
          | error e => exact ⟨hwalk, nofun⟩
          | ok parent =>
              obtain ⟨hkept, -, -⟩ : WalksIn K _ parent.1 parent.2 c₁ w₁ := hwalk
              rw [Code.outcome_ok, Code.wp_bind]
              unfold probeLeaf
              split
              · refine ⟨hkept, ?_⟩
                intro handle hhandle
                cases hhandle
                exact ⟨rfl, rfl, .inl rfl⟩
              · refine Code.wp_mono (wp_listByName hR hrounds _ _ _ _ _) ?_
                intro out c₂ w₂ ⟨hc, hw, hout⟩
                subst hc hw
                rcases hout with rfl | ⟨-, e, rfl⟩
                · rw [Code.outcome_ok]
                  split
                  · refine ⟨hkept, ?_⟩
                    intro handle hhandle
                    cases hhandle
                    exact ⟨rfl, rfl, .inl rfl⟩
                  · rename_i file hfile
                    refine ⟨hkept, ?_⟩
                    intro handle hhandle
                    cases hhandle
                    have hmem : file ∈ w₂.named (w₂.deref parent.1)
                        (GDriveUri.path segments).fileName := by
                      rw [show w₂.named _ _ = _ from hfile]
                      exact List.mem_singleton.mpr rfl
                    obtain ⟨hchild, hname⟩ := World.mem_named.mp hmem
                    obtain ⟨n, hn, rfl, -, -⟩ := World.mem_children.mp hchild
                    exact ⟨rfl, rfl, .inr (.inr ⟨n, hn, rfl, hname⟩)⟩
                  · exact ⟨hkept, nofun⟩
                · exact ⟨hkept, nofun⟩
    · exact ⟨h, nofun⟩

end FolderWalk

end GDrive
