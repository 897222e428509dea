/-
A folder made in a tree without two objects of one name in one folder.

Such a tree has at most one object at a path, so an uncached resolution is
never ambiguous (`World.UniqueNames.plain_ne_error`). A folder made where
nothing has its name leaves all paths as they are and adds one
(`World.MakesFolder`); `wp_createDirectory` says that this is what
`CreateDirectory` does, `wp_createDirectory_one` that it makes one folder
whether the name is taken or not.
-/
import GDrive.Fs.Reads
import GDrive.Fs.Mutate

namespace GDrive

open Interaction Naming

-- =============================================================== unique names

/-- No two objects of one folder have the same name. -/
def World.UniqueNames (w : World) : Prop := ∀ p s, (w.named p s).length ≤ 1

section Tree

variable {w w' : World} {p s : Str}

/-- A list of at most one is empty or has one element. -/
theorem nil_or_one {α : Type} {l : List α} (h : l.length ≤ 1) : l = [] ∨ ∃ a, l = [a] := by
  rcases l with _ | ⟨a, _ | ⟨b, l⟩⟩
  · exact .inl rfl
  · exact .inr ⟨a, rfl⟩
  · simp only [List.length_cons] at h
    omega

theorem World.UniqueNames.named (h : w.UniqueNames) {f : DriveFileMeta} (hf : f ∈ w.named p s) :
    w.named p s = [f] := by
  rcases nil_or_one (h p s) with hnone | ⟨g, hone⟩
  · rw [hnone] at hf
    cases hf
  · rw [hone] at hf
    rw [hone, List.mem_singleton.mp hf]

/-- An uncached resolution is never ambiguous. -/
theorem World.UniqueNames.plain_ne_error (h : w.UniqueNames) {ctx : Str} {segments : List Str}
    {e : Exn} : w.plain ctx p segments ≠ .error e := by
  induction segments generalizing p with
  | nil =>
      intro herror
      cases herror
  | cons s rest ih =>
      intro herror
      cases rest with
      | nil =>
          rw [World.plain] at herror
          rcases nil_or_one (h p s) with hnone | ⟨file, hone⟩
          · rw [hnone] at herror
            cases herror
          · rw [hone] at herror
            cases herror
      | cons next rest =>
          have hfolders : (w.foldersNamed p s).length ≤ 1 :=
            Nat.le_trans (List.length_filter_le _ _) (h p s)
          rw [World.plain] at herror
          rcases nil_or_one hfolders with hnone | ⟨folder, hone⟩
          · rw [hnone] at herror
            cases herror
          · rw [hone] at herror
            exact ih herror

/-- What an uncached resolution does not find is no folder. -/
theorem World.folder_of_plain {ctx : Str} {segments : List Str} (hne : segments ≠ [])
    (h : w.plain ctx p segments = .ok none) : walk w.step p segments = none := by
  induction segments generalizing p with
  | nil => exact absurd rfl hne
  | cons s rest ih =>
      rw [walk_cons]
      cases rest with
      | nil =>
          rw [World.plain] at h
          split at h
          · rename_i hnil
            have hstep : w.step p s = none := by
              unfold World.step
              rw [World.foldersNamed_eq_nil hnil]
            rw [hstep]
            rfl
          · cases h
          · cases h
      | cons next rest =>
          rw [World.plain] at h
          split at h
          · rename_i hnil
            have hstep : w.step p s = none := by
              unfold World.step
              rw [hnil]
            rw [hstep]
            rfl
          · rename_i folder hfolder
            rw [World.step_eq_some.mpr ⟨folder, hfolder, rfl⟩]
            exact ih (List.cons_ne_nil _ _) h
          · cases h

/-- A folder that has a path is the one there. -/
theorem World.Names.folder {segments : List Str} {file : DriveFileMeta}
    (h : w.Names segments file) :
    w.folderAt segments = if file.isFolder then some file.id else none := by
  obtain ⟨init, s, p, rfl, hinit, -, hkind⟩ := h
  unfold World.folderAt at hinit ⊢
  rw [walk_concat, hinit, Option.bind_some]
  by_cases hfolder : file.isFolder = true
  · rw [if_pos hfolder] at hkind ⊢
    exact hkind
  · rw [if_neg hfolder] at hkind ⊢
    unfold World.step
    rw [hkind]

end Tree

-- ================================================================ a new folder

section Creates

variable {w w' : World} {p : Str} {file : DriveFileMeta}

theorem World.deref_deref (w : World) (id : Str) : w.deref (w.deref id) = w.deref id := by
  by_cases hid : id = w.rootAlias
  · rw [hid, World.deref_alias]
    exact World.deref_folderAt (a := []) rfl
  · have hderef : w.deref id = id := if_neg hid
    rw [hderef, hderef]

theorem World.Creates.children (h : w.Creates p file w') (q : Str) :
    w'.children q = w.children q ++ if w.deref p = q then [file] else [] := by
  unfold World.children
  rw [h.2.nodes, List.filter_append, List.map_append]
  congr 1
  by_cases hq : w.deref p = q
  · rw [if_pos hq, List.filter_cons_of_pos (by simpa using hq)]
    rfl
  · rw [if_neg hq, List.filter_cons_of_neg (by simpa using hq)]
    rfl

theorem World.Creates.named (h : w.Creates p file w') (q s : Str) :
    w'.named q s = w.named q s ++ if w.deref p = q ∧ file.name = s then [file] else [] := by
  unfold World.named
  rw [h.children, List.filter_append]
  congr 1
  by_cases hq : w.deref p = q
  · by_cases hs : file.name = s
    · rw [if_pos hq, if_pos ⟨hq, hs⟩, List.filter_cons_of_pos (by simpa using hs)]
      rfl
    · rw [if_pos hq, if_neg (fun hboth => hs hboth.2),
        List.filter_cons_of_neg (by simpa using hs)]
      rfl
  · rw [if_neg hq, if_neg (fun hboth => hq hboth.1)]
    rfl

end Creates

/-- A new folder `file` in the folder with the id `p`. -/
structure World.MakesFolder (w : World) (p : Str) (file : DriveFileMeta) (w' : World) : Prop where
  isFolder : file.isFolder = true
  creates : w.Creates p file w'
  deref : w.deref p = p

/-- A folder that is created, in the folder that its parent's name stands for. -/
theorem World.Creates.makesFolder {w w' : World} {p : Str} {folder : DriveFileMeta}
    (h : w.Creates p folder w') (hkind : folder.isFolder = true) :
    w.MakesFolder (w.deref p) folder w' := by
  refine ⟨hkind, ⟨h.1, ?_⟩, w.deref_deref p⟩
  rw [w.deref_deref p]
  exact h.2

namespace World.MakesFolder

variable {w w' : World} {p s : Str} {file : DriveFileMeta}

theorem nodes (h : w.MakesFolder p file w') : w'.nodes = w.nodes ++ [{ file, parent := p }] := by
  rw [h.creates.2.nodes, h.deref]

theorem children (h : w.MakesFolder p file w') (q : Str) :
    w'.children q = w.children q ++ if p = q then [file] else [] := by
  rw [h.creates.children, h.deref]

theorem named (h : w.MakesFolder p file w') (q s : Str) :
    w'.named q s = w.named q s ++ if p = q ∧ file.name = s then [file] else [] := by
  rw [h.creates.named, h.deref]

/-- Nothing lies in a new folder. -/
theorem children_new (h : w.MakesFolder p file w') : w'.children file.id = [] := by
  have hnone : w.children file.id = [] := by
    rw [List.eq_nil_iff_forall_not_mem]
    intro f hf
    obtain ⟨n, hn, -, -, hparent⟩ := mem_children.mp hf
    exact (h.creates.1.2.2 n hn).2 hparent
  have hself : p ≠ file.id := by
    -- A folder in itself has no place in a tree.
    obtain ⟨rank, hrank⟩ := w'.acyclic
    intro heq
    have hlt := hrank { file, parent := p } (by
      rw [h.nodes]
      exact List.mem_append_right _ (List.mem_singleton.mpr rfl))
    rw [heq] at hlt
    exact Nat.lt_irrefl _ hlt
  rw [h.children, hnone, if_neg hself]
  rfl

-- ======================================================= where the name is free

/-- What has a name is not the new folder. -/
theorem named_of_mem (h : w.MakesFolder p file w') (hfree : w.named p file.name = []) {q : Str}
    {f : DriveFileMeta} (hf : f ∈ w.named q s) : w'.named q s = w.named q s := by
  rw [h.named, if_neg, List.append_nil]
  intro ⟨hq, hs⟩
  rw [← hq, ← hs, hfree] at hf
  cases hf

theorem step_mono (h : w.MakesFolder p file w') (hfree : w.named p file.name = []) {q r : Str}
    (hstep : w.step q s = some r) : w'.step q s = some r := by
  obtain ⟨folder, hfolder, hid⟩ := World.step_eq_some.mp hstep
  have hmem : folder ∈ w.foldersNamed q s := by
    rw [hfolder]
    exact List.mem_singleton.mpr rfl
  refine World.step_eq_some.mpr ⟨folder, ?_, hid⟩
  unfold World.foldersNamed
  rw [h.named_of_mem hfree (mem_foldersNamed.mp hmem).1]
  exact hfolder

theorem folderAt_mono (h : w.MakesFolder p file w') (hfree : w.named p file.name = [])
    {a : List Str} {q : Str} (ha : w.folderAt a = some q) : w'.folderAt a = some q := by
  unfold World.folderAt at ha ⊢
  rw [h.creates.2.rootId]
  exact walk_mono (fun _ _ _ => h.step_mono hfree) ha

/-- The new folder has a path. -/
theorem folderAt_new (h : w.MakesFolder p file w') (hfree : w.named p file.name = [])
    {a : List Str} (ha : w.folderAt a = some p) :
    w'.folderAt (a ++ [file.name]) = some file.id := by
  refine walk_concat_eq_some.mpr ⟨p, h.folderAt_mono hfree ha, ?_⟩
  refine World.step_eq_some.mpr ⟨file, ?_, rfl⟩
  unfold World.foldersNamed
  rw [h.named, hfree, if_pos ⟨rfl, rfl⟩, List.nil_append, List.filter_cons_of_pos h.isFolder]
  rfl

theorem names_mono (h : w.MakesFolder p file w') (hfree : w.named p file.name = [])
    {a : List Str} {f : DriveFileMeta} (ha : w.Names a f) : w'.Names a f := by
  obtain ⟨init, s, q, rfl, hinit, ⟨g, hg, hsame⟩, hkind⟩ := ha
  refine ⟨init, s, q, rfl, h.folderAt_mono hfree hinit, ⟨g, ?_, hsame⟩, ?_⟩
  · rw [h.named_of_mem hfree hg]
    exact hg
  · split
    · rename_i hfolder
      rw [if_pos hfolder] at hkind
      exact h.step_mono hfree hkind
    · rename_i hfile
      rw [if_neg hfile] at hkind
      unfold World.foldersNamed at hkind ⊢
      rw [h.named_of_mem hfree hg]
      exact hkind

theorem uniqueNames (h : w.MakesFolder p file w') (hfree : w.named p file.name = [])
    (hw : w.UniqueNames) : w'.UniqueNames := by
  intro q s
  rw [h.named]
  split
  · rename_i heq
    rw [← heq.1, ← heq.2, hfree]
    exact le_rfl
  · rw [List.append_nil]
    exact hw q s

/-- What the path cache says stays true. -/
theorem agrees (h : w.MakesFolder p file w') (hfree : w.named p file.name = [])
    {auth : AuthContext} {c : PathCache} (hc : Agrees w auth c) : Agrees w' auth c := by
  refine ⟨fun hsegs he => h.names_mono hfree (hc.names hsegs he), hc.stamps, ?_⟩
  intro id f hf
  show f.id = w'.deref id
  unfold World.deref
  rw [h.creates.2.rootId, h.creates.2.rootAlias]
  exact hc.looked hf

end World.MakesFolder

-- ==================================================================== the calls

section Calls

variable {pj : Picojson} {rounds thread : Nat} {auth : AuthContext} {o : Opener}
  {R : Rel Client World} {w : World} {c : PathCache}

theorem parsedUri_of_parse {path : Str} {uri : GDriveUri} (h : parseGDriveUri path = .ok uri) :
    parsedUri path = pure uri := by
  unfold parsedUri
  rw [h]

/-- The path of a folder resolves to it. -/
theorem wp_resolvePath_folder
    (hR : ∀ w q r w', R w q r w' → treeRel pj (fun _ => False) w q r w') (hrounds : 1 ≤ rounds)
    (hroot : rootFolderFor auth = w.rootAlias) (hw : w.UniqueNames) {segments : List Str}
    (hsegs : ∀ s ∈ segments, Segment s) {p : Str} (hp : w.folderAt segments = some p)
    (h : Agrees w auth c) :
    Code.wp (fsEnv R) (resolvePath pj rounds thread auth (.path segments))
      (fun out c' w' => w' = w ∧ Agrees w auth c' ∧ ∃ file, out = .ok file ∧ file.id = p) c w := by
  unfold resolvePath
  rw [Code.wp_bind]
  by_cases hnil : segments = []
  · subst hnil
    obtain rfl : w.rootId = p := Option.some.inj hp
    refine Code.wp_mono (wp_tryResolvePath_root hR hroot) ?_
    intro out c' w' ⟨hw', hc, hout⟩
    subst hc
    rcases hout with ⟨file, rfl, hmeta⟩ | ⟨hfail, -⟩
    · exact ⟨hw', h, file, rfl, hmeta.id_eq.trans (World.deref_alias w)⟩
    · exact hfail.elim
  · refine Code.wp_mono (wp_tryResolvePath_path hR hrounds (truths_agree w) hroot hnil hsegs h) ?_
    intro out c' w' ⟨hw', h', _, hout⟩
    unfold PathAnswer at hout
    split at hout
    · have hnone : w.folderAt segments = none := World.folder_of_plain hnil hout
      rw [hnone] at hp
      cases hp
    · rename_i file fresh
      refine ⟨hw', h', file, rfl, ?_⟩
      rw [List.nil_append] at hout
      rw [hout.1.folder] at hp
      split at hp
      · exact Option.some.inj hp
      · cases hp
    · rcases hout with hambiguous | ⟨_, hfail⟩
      · exact absurd hambiguous hw.plain_ne_error
      · exact hfail.elim

theorem wp_resolveParentId_folder
    (hR : ∀ w q r w', R w q r w' → treeRel pj (fun _ => False) w q r w') (hrounds : 1 ≤ rounds)
    (hroot : rootFolderFor o.auth = w.rootAlias) (hw : w.UniqueNames) {parentPath : Str}
    (hne : parentPath ≠ []) {segments : List Str}
    (hparse : parseGDriveUri parentPath = .ok (.path segments)) {p : Str}
    (hp : w.folderAt segments = some p) (h : Agrees w o.auth c) :
    Code.wp (fsEnv R) (resolveParentId pj rounds o parentPath)
      (fun out c' w' => w' = w ∧ Agrees w o.auth c' ∧ out = .ok p) c w := by
  unfold resolveParentId
  rw [if_neg (by simpa using hne), parsedUri_of_parse hparse, Code.wp_bind, Code.wp_pure,
    Code.outcome_ok, Code.wp_bind]
  refine Code.wp_mono
    (wp_resolvePath_folder hR hrounds hroot hw (segment_of_parse hparse) hp h) ?_
  intro out c' w' ⟨hw', h', file, hout, hid⟩
  rw [hout]
  exact ⟨hw', h', congrArg Except.ok hid⟩

/-- The upload of a folder, where no call fails. -/
theorem treeRel_newFolder {p name : Str} {r : Except Exn DriveResponse} {w' : World}
    (h : treeRel pj (fun _ => False) w (.upload [] p name kFolderMimeType [] []) r w') :
    ∃ resp file, r = .ok resp ∧ resp.ok = true ∧ file.name = name ∧ file.isFolder = true ∧
      w.Creates p file w' := by
  rcases h with ⟨resp, hr, hok, -, file, -, hkind, -, -, hnew⟩ | ⟨_, _, hq, -⟩ | ⟨hfail, -⟩
  · exact ⟨resp, file, hr, hok, hnew.1, hkind, hnew.2⟩
  · cases hq
  · exact hfail.elim

/-- What `CreateDirectory` does where the name is free. -/
theorem wp_createDirectory
    (hR : ∀ w q r w', R w q r w' → treeRel pj (fun _ => False) w q r w') (hrounds : 1 ≤ rounds)
    (hroot : rootFolderFor o.auth = w.rootAlias) (hw : w.UniqueNames) {directory s : Str}
    {done : List Str} (hparse : parseGDriveUri directory = .ok (.path (done ++ [s])))
    (hid : (done ++ [s]).head?.any ((str "id:").isPrefixOf ·) = false) {p : Str}
    (hp : w.folderAt done = some p) (hfree : w.named p s = []) (h : Agrees w o.auth c) :
    Code.wp (fsEnv R) (createDirectory pj rounds o directory)
      (fun out c' w' => out = .ok () ∧ Agrees w' o.auth c' ∧
        ∃ file, file.name = s ∧ w.MakesFolder p file w') c w := by
  have hparents := parse_parentPath hparse hid
  rw [List.dropLast_concat] at hparents
  have hname : (GDriveUri.path (done ++ [s])).fileName = s := by
    show (done ++ [s]).getLastD [] = s
    rw [List.getLastD_concat]
  obtain ⟨t, rest, hcons⟩ := List.exists_cons_of_ne_nil (List.concat_ne_nil s done)
  rw [hcons] at hparents hname hparse
  unfold createDirectory
  rw [parsedUri_of_parse hparse, Code.wp_bind, Code.wp_pure, Code.outcome_ok]
  unfold mutateCreateDirectory
  rw [Code.wp_bind]
  refine Code.wp_mono (wp_resolveParentId_folder hR hrounds hroot hw
    (parentPath_ne_nil _) hparents hp h) ?_
  intro out c' w' ⟨hw', h', hout⟩
  subst hw'
  rw [hout, Code.outcome_ok, Code.wp_bind, wp_call, hname]
  refine ⟨trivial, ?_⟩
  intro r w'' hr
  obtain ⟨resp, file, rfl, hok, rfl, hkind, hcreates⟩ := treeRel_newFolder (hR _ _ _ _ hr)
  have hmade : w'.MakesFolder p file w'' := ⟨hkind, hcreates, World.deref_folderAt hp⟩
  rw [Code.outcome_ok, Code.wp_bind, Code.wp_when, hok]
  refine ⟨nofun, fun _ => ?_⟩
  exact ⟨rfl, (hmade.agrees hfree h').invalidatePrefix _, file, rfl, hmade⟩

/-- `CreateDirectory` makes one folder, whatever there is. -/
theorem wp_createDirectory_one
    (hR : ∀ w q r w', R w q r w' → treeRel pj (fun _ => False) w q r w') (directory : Str) :
    Code.wp (.ofRel R fun _ => True) (createDirectory pj rounds o directory)
      (fun out _ w' => out = .ok () → ∃ n, w'.nodes = w.nodes ++ [n]) c w := by
  unfold createDirectory parsedUri
  rw [Code.wp_bind]
  split
  · exact nofun
  · rw [Code.wp_pure, Code.outcome_ok]
    unfold mutateCreateDirectory
    split
    · exact nofun
    · exact nofun
    · rw [Code.wp_bind]
      refine Code.wp_mono (Code.wp_quiet (asks_resolveParentId pj rounds o _) ?_) ?_
      · intro q r w' hq hr
        exact world_read hq (hR _ _ _ _ hr)
      · intro out c' w' hw'
        subst hw'
        cases out with
        | error e => exact nofun
        | ok p =>
            rw [Code.outcome_ok, Code.wp_bind, wp_call]
            refine ⟨trivial, ?_⟩
            intro r w'' hr
            obtain ⟨resp, file, rfl, hok, -, -, -, hbecomes⟩ := treeRel_newFolder (hR _ _ _ _ hr)
            rw [Code.outcome_ok, Code.wp_bind, Code.wp_when, hok]
            exact ⟨nofun, fun _ _ => ⟨_, hbecomes.nodes⟩⟩

end Calls

end GDrive
