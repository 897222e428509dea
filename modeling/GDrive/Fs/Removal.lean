/-
Removals and moves against the caches.

# What a mutation leaves

A removal and a move by paths drop from the path cache what they change: the
paths they were given and all beneath them, and every metadata entry of the
identity. What is left still leads where it led (`Coherent.removes`,
`Coherent.movesOver`), so from a cache that agrees with the tree they leave
one that does (`Faithful`), and the next lookup finds what is there now
(`World.present`).

# Where they do not

Given an id: form they drop nothing, and what was resolved before stays in
the cache (`removed_by_id_still_there`). Of what lies beneath the root
nothing is dropped with the root; a target whose parent's text is read as an
id is not where its path says; and a lookup of an object in the trash by its
id finds it there.
-/
import GDrive.Fs.EnsureParents
import GDrive.Fs.Lookups
import GDrive.Fs.Served
import GDrive.Fs.Survival

namespace GDrive

open Interaction Naming

-- ================================================================ the operations

/-- What one identity looks up, removes and moves. -/
inductive FileOp
  | lookup (op : LookupOp)
  | removeFile (o : Opener) (filename : Str)
  | removeDirectory (o : Opener) (directory : Str)
  | moveFile (o : Opener) (source target : Str)

namespace FileOp

section Body

variable (signed : Bool) (pj : Picojson) (rounds : Nat)

/-- The code that an operation runs. -/
def body : FileOp → CacheCode Unit
  | .lookup op => op.body signed pj rounds
  | .removeFile o filename => GDrive.removeFile pj rounds o filename
  | .removeDirectory o directory => GDrive.removeDirectory pj rounds o directory
  | .moveFile o source target => GDrive.moveFile pj rounds o source target

end Body

def opener : FileOp → Opener
  | .lookup op => op.opener
  | .removeFile o _ | .removeDirectory o _ | .moveFile o _ _ => o

/-- What a mutation is given are paths: of a removal, one below the root; of
a move, a target whose parent's text is read as its parent's path. -/
def Covered (op : FileOp) (w : World) : Prop :=
  match op with
  | .lookup op => op.ByPath w
  | .removeFile _ path | .removeDirectory _ path =>
      ∀ uri, parseGDriveUri path = .ok uri → ∃ s rest, uri = .path (s :: rest)
  | .moveFile _ source target => IsPathForm source ∧ ¬SlashedId target

end FileOp

-- ===================================================================== the cache

/-- A cache that agrees with the tree, the metadata in it too, and the names
of the tree are unique. -/
structure Faithful (auth : AuthContext) (c : PathCache) (w : World) : Prop where
  unique : w.UniqueNames
  mirrored : CacheInv w auth (fun _ _ => True) (KnownAs w) c
  root : rootFolderFor auth = w.rootAlias

section Mutations

variable {signed : Bool} {pj : Picojson} {rounds thread : Nat} {auth : AuthContext} {o : Opener}
  {mayFail : CallReq → Prop} {R : Rel Client World} {w w' : World} {c c' : PathCache}

theorem Faithful.coherent (h : Faithful auth c w) : Coherent auth c w := by
  refine ⟨h.unique, ⟨h.mirrored.names, h.mirrored.stamps, ?_⟩, h.root⟩
  intro id file hfile
  exact (knows_known w).id_eq (h.mirrored.looked hfile)

/-- A cache without metadata says nothing false of ids. -/
theorem Coherent.faithful (h : Coherent auth c w)
    (hnone : ∀ id, c.metadataEntries.lookup (metadataKey auth id) = none) : Faithful auth c w := by
  refine ⟨h.unique, ⟨h.agrees.names, h.agrees.stamps, ?_⟩, h.root⟩
  intro id file hfile
  rw [hnone] at hfile
  cases hfile

theorem Faithful.same_cache (h : Faithful auth c w)
    (hc' : CacheInv w auth (fun _ _ => True) (KnownAs w) c') : Faithful auth c' w :=
  ⟨h.unique, hc', h.root⟩

/-- What a mutation by a path drops of the metadata: all of it. -/
theorem metadata_dropPath {segments : List Str} (id : Str) :
    (dropPath o (.path segments) c).metadataEntries.lookup (metadataKey o.auth id) = none :=
  PathCache.metadata_invalidatePrefix c (o.key _) id

/-- Lookups leave the tree and the cache's agreement with it. -/
theorem Faithful.lookup {α : Type} {code : CacheCode α}
    (hcode : Code.Keeps (globEnv R) (Mirrored w auth (fun _ _ => True) (KnownAs w)) code)
    (h : Faithful auth c w) :
    Code.wp (globEnv R) code (fun _ c' w' => Faithful auth c' w') c w := by
  refine Code.wp_mono (hcode c w ⟨rfl, h.mirrored⟩) ?_
  intro out c' w' ⟨hw, h'⟩
  subst hw
  exact h.same_cache h'

theorem wp_removeResolved_faithful (hR : ∀ w q r w', R w q r w' → treeRel pj mayFail w q r w')
    (hmayFail : ∀ q, mayFail q → IsRead q) (hrounds : 1 ≤ rounds) {s : Str} {rest : List Str}
    (hsegs : ∀ t ∈ s :: rest, Segment t) (wanted : Bool) (wrongKind : Exn)
    (h : Faithful o.auth c w) :
    Code.wp (globEnv R) (removeResolved pj rounds o (.path (s :: rest)) wanted wrongKind)
      (fun _ c' w' => Faithful o.auth c' w') c w := by
  unfold removeResolved
  rw [Code.wp_bind]
  refine wp_glob (Code.wp_mono (wp_resolvePath hR hrounds h.root (knows_known w)
    (show (GDriveUri.path (s :: rest)).Clean from hsegs) h.mirrored) ?_)
  intro out c₁ w₁ ⟨hw, h₁, hleads⟩
  subst hw
  have hfaithful := h.same_cache h₁
  cases out with
  | error e => exact hfaithful
  | ok file =>
      rw [Code.outcome_ok, Code.wp_bind, Code.wp_when]
      refine ⟨fun _ => hfaithful, fun _ => ?_⟩
      rw [Code.outcome_ok, Code.wp_bind, wp_call]
      refine ⟨trivial, ?_⟩
      intro r w₂ hr
      obtain ⟨resp, rfl, hok, -, hremove⟩ := treeRel_succeeds (hR _ _ _ _ hr) (hmayFail _) nofun
      rw [Code.outcome_ok, Code.wp_bind, Code.wp_when, hok]
      refine ⟨nofun, fun _ => ?_⟩
      rw [Code.outcome_ok, wp_invalidatePath]
      have hcoherent := hfaithful.coherent.removes hremove hsegs (List.cons_ne_nil _ _)
        (hleads file rfl)
      exact hcoherent.faithful fun id => metadata_dropPath id

/-- Either removal, of the path that a text is parsed to. -/
theorem wp_removeParsed_faithful (hR : ∀ w q r w', R w q r w' → treeRel pj mayFail w q r w')
    (hmayFail : ∀ q, mayFail q → IsRead q) (hrounds : 1 ≤ rounds) {path : Str}
    (hpath : ∀ uri, parseGDriveUri path = .ok uri → ∃ s rest, uri = .path (s :: rest))
    (wanted : Bool) (wrongKind : GDriveUri → Exn) (h : Faithful o.auth c w) :
    Code.wp (globEnv R)
      (parsedUri path >>= fun uri => removeResolved pj rounds o uri wanted (wrongKind uri))
      (fun _ c' w' => Faithful o.auth c' w') c w := by
  unfold parsedUri
  rw [Code.wp_bind]
  split
  · exact h
  · rename_i uri hparse
    obtain ⟨s, rest, rfl⟩ := hpath uri hparse
    exact wp_removeResolved_faithful hR hmayFail hrounds (segment_of_parse hparse) wanted _ h

theorem wp_moveFile_faithful (hR : ∀ w q r w', R w q r w' → treeRel pj mayFail w q r w')
    (hmayFail : ∀ q, mayFail q → IsRead q) (hrounds : 1 ≤ rounds) {source target : Str}
    (hsource : IsPathForm source) (htarget : ¬SlashedId target) (h : Faithful o.auth c w) :
    Code.wp (globEnv R) (moveFile pj rounds o source target)
      (fun _ c' w' => Faithful o.auth c' w') c w := by
  unfold moveFile parsedUri
  rw [Code.wp_bind]
  split
  · exact h
  · rename_i src hsrc
    rw [Code.wp_pure, Code.outcome_ok, Code.wp_bind]
    split
    · exact h
    · rename_i dst hdst
      rw [Code.wp_pure, Code.outcome_ok]
      refine wp_glob (wp_mutateMoveFile_plan hR hrounds h.root (knows_known w)
        (clean_of_parse hsrc) h.mirrored trivial (fun e c' h' => h.same_cache h') ?_)
      intro x p oldParent c₁ hplan h₁
      refine Code.wp_mono (wp_moveAndDelete_over hR hmayFail oldParent hplan.single) ?_
      intro out c₂ w₂ ⟨hc, hmove⟩
      rw [hc]
      refine (hplan.coherent hsrc hdst hsource htarget hmove
        (h.same_cache h₁).coherent).faithful ?_
      intro id
      cases dst with
      | fileId id => exact absurd rfl hplan.named
      | path segments => exact metadata_dropPath id

/-- Each operation that is covered keeps the cache in agreement with the
tree. -/
theorem FileOp.wp_body (hR : ∀ w q r w', R w q r w' → treeRel pj mayFail w q r w')
    (hmayFail : ∀ q, mayFail q → IsRead q) (hrounds : 1 ≤ rounds) {op : FileOp}
    (hauth : op.opener.auth = auth) (hop : op.Covered w) (h : Faithful auth c w) :
    Code.wp (globEnv R) (op.body signed pj rounds) (fun _ c' w' => Faithful auth c' w') c w := by
  subst hauth
  cases op with
  | lookup op => exact h.lookup (LookupOp.keeps_body hR hrounds (sound_known w mayFail) h.root hop)
  | removeFile o filename =>
      exact wp_removeParsed_faithful hR hmayFail hrounds hop false
        (fun uri => removeFolderError uri.toString) h
  | removeDirectory o directory =>
      exact wp_removeParsed_faithful hR hmayFail hrounds hop true
        (fun uri => notADirectoryError uri.toString) h
  | moveFile o source target => exact wp_moveFile_faithful hR hmayFail hrounds hop.1 hop.2 h

end Mutations

-- ============================================================== what is there

/-- What has an id, and whether it is a folder. What is in the trash is not
there. -/
def World.presentId (w : World) (id : Str) : Option (Str × Bool) :=
  match w.nodes.find? (fun n => n.file.id = w.deref id) with
  | some n => if n.trashed then none else some (n.file.id, n.file.isFolder)
  | none => if w.deref id = w.rootId then some (w.rootId, true) else none

/-- What an uncached resolution comes to. -/
def plainResult : Except Exn (Option DriveFileMeta) → Option (Str × Bool)
  | .ok (some file) => some (file.id, file.isFolder)
  | _ => none

/-- What a URI names, of what is there. -/
def World.present (w : World) : GDriveUri → Option (Str × Bool)
  | .fileId id => w.presentId id
  | .path [] => w.presentId w.rootAlias
  | .path segments =>
      plainResult (w.plain (GDriveUri.path segments).toString w.rootId segments)

theorem World.present_path (w : World) (s : Str) (rest : List Str) :
    w.present (.path (s :: rest)) =
      plainResult (w.plain (GDriveUri.path (s :: rest)).toString w.rootId (s :: rest)) := rfl

/-- Whether a URI names a file. -/
def World.fileThere (w : World) (uri : GDriveUri) : Bool := (w.present uri).any fun hit => !hit.2

/-- Whether a URI names a folder; the root is one. -/
def World.folderThere (w : World) : GDriveUri → Bool
  | .path [] => true
  | uri => (w.present uri).any fun hit => hit.2

/-- A URI that Drive is asked for by an id, of nothing in the trash. -/
def World.NotTrashed (w : World) : GDriveUri → Prop
  | .fileId id => ∀ n ∈ w.nodes, n.file.id = w.deref id → n.trashed = false
  | .path [] => ∀ n ∈ w.nodes, n.file.id = w.rootId → n.trashed = false
  | .path _ => True

section Presence

variable {pj : Picojson} {rounds thread : Nat} {auth : AuthContext} {o : Opener}
  {R : Rel Client World} {w : World} {c : PathCache}

/-- Where nothing with the id is in the trash, what Drive says of an id is
there. -/
theorem World.presentId_of_metadata {id : Str} {file : DriveFileMeta} (h : w.Metadata id file)
    (htrash : ∀ n ∈ w.nodes, n.file.id = w.deref id → n.trashed = false) :
    w.presentId id = some (file.id, file.isFolder) := by
  unfold World.presentId
  rcases h with ⟨n, hn, rfl, hid⟩ | ⟨hnone, hroot, hid, hkind⟩
  · cases hfind : w.nodes.find? (fun n => n.file.id = w.deref id) with
    | none =>
        have hne := List.find?_eq_none.mp hfind n hn
        exact absurd (decide_eq_true hid) hne
    | some m =>
        have hm : m.file.id = w.deref id := by simpa using List.find?_some hfind
        obtain rfl := node_unique (List.mem_of_find?_eq_some hfind) hn (hm.trans hid.symm)
        simp only
        rw [htrash m hn hid]
        rfl
  · have hfind : w.nodes.find? (fun n => n.file.id = w.deref id) = none := by
      refine List.find?_eq_none.mpr ?_
      intro n hn heq
      exact hnone n hn (of_decide_eq_true heq)
    rw [hfind]
    simp only
    rw [if_pos hroot, hid, hkind]

theorem World.presentId_of_absent {id : Str} (h : w.Absent id) : w.presentId id = none := by
  have hfind : w.nodes.find? (fun n => n.file.id = w.deref id) = none := by
    refine List.find?_eq_none.mpr ?_
    intro n hn heq
    exact h.2 n hn (of_decide_eq_true heq)
  unfold World.presentId
  rw [hfind]
  exact if_neg h.1

/-- What was looked up and is known still is there. -/
theorem KnownAs.present {g : Nat} {id : Str} {file : DriveFileMeta} (h : KnownAs w g id file)
    (htrash : w.NotTrashed (.fileId id)) :
    w.present (.fileId id) = some (file.id, file.isFolder) := by
  obtain ⟨f, hmeta, hid, hkind⟩ := h
  rw [← hid, ← hkind]
  exact World.presentId_of_metadata hmeta htrash

/-- What has a path is there. -/
theorem World.Names.present {s : Str} {rest : List Str} {file : DriveFileMeta}
    (h : w.Names (s :: rest) file) (hw : w.UniqueNames) :
    w.present (.path (s :: rest)) = some (file.id, file.isFolder) := by
  obtain ⟨f, hplain, hid, hkind⟩ :=
    h.plain (fun _ s p _ _ => hw p s) (GDriveUri.path (s :: rest)).toString
  rw [World.present_path, hplain, ← hid, ← hkind]
  rfl

/-- From a cache that agrees with the tree a URI resolves to what is there. -/
theorem wp_tryResolvePath_present
    (hR : ∀ w q r w', R w q r w' → treeRel pj (fun _ => False) w q r w') (hrounds : 1 ≤ rounds)
    {uri : GDriveUri} (huri : uri.Clean) (htrash : w.NotTrashed uri) (h : Faithful auth c w) :
    Code.wp (globEnv R) (tryResolvePath pj rounds thread auth uri)
      (fun out c' w' => Faithful auth c' w' ∧ ∃ found, out = .ok found ∧
        found.map (fun hit => (hit.1.id, hit.1.isFolder)) = w.present uri) c w := by
  have ht := (knows_known w).toTruths
  refine wp_glob ?_
  match uri with
  | .fileId id =>
      refine Code.wp_mono (wp_tryResolvePath_id hR ht h.mirrored) ?_
      intro out c' w' ⟨hw, h', _, _, hout⟩
      subst hw
      refine ⟨h.same_cache h', ?_⟩
      unfold IdAnswer at hout
      split at hout
      · exact ⟨none, rfl, (World.presentId_of_absent hout).symm⟩
      · rename_i file fresh
        have hknown : KnownAs w' 0 id file := by
          rcases hout.2 with hmeta | ⟨-, hknown⟩
          · exact ⟨file, hmeta, rfl, rfl⟩
          · exact hknown
        exact ⟨some (file, fresh), rfl, (hknown.present htrash).symm⟩
      · exact hout.elim
  | .path [] =>
      refine Code.wp_mono (wp_tryResolvePath_root (c := c) hR h.root) ?_
      intro out c' w' ⟨hw, hc, hout⟩
      subst hw hc
      refine ⟨h, ?_⟩
      rcases hout with ⟨file, rfl, hmeta⟩ | ⟨hfail, -⟩
      · refine ⟨some (file, false), rfl, (World.presentId_of_metadata hmeta ?_).symm⟩
        rw [World.deref_alias]
        exact htrash
      · exact hfail.elim
  | .path (s :: rest) =>
      refine Code.wp_mono (wp_tryResolvePath_path hR hrounds ht h.root (List.cons_ne_nil _ _) huri
        h.mirrored) ?_
      intro out c' w' ⟨hw, h', _, hout⟩
      subst hw
      refine ⟨h.same_cache h', ?_⟩
      unfold PathAnswer at hout
      split at hout
      · refine ⟨none, rfl, ?_⟩
        rw [World.present_path, hout]
        rfl
      · rename_i file fresh
        exact ⟨some (file, fresh), rfl, (World.Names.present hout.1 h.unique).symm⟩
      · rcases hout with hambiguous | ⟨_, hfail⟩
        · exact absurd hambiguous h.unique.plain_ne_error
        · exact hfail.elim

/-- `FileExists` says whether a file is there. -/
theorem wp_fileExists_present
    (hR : ∀ w q r w', R w q r w' → treeRel pj (fun _ => False) w q r w') (hrounds : 1 ≤ rounds)
    {filename : Str} {uri : GDriveUri} (hsecret : o.hasSecret = true)
    (hparse : parseGDriveUri filename = .ok uri) (htrash : w.NotTrashed uri)
    (h : Faithful o.auth c w) :
    Code.wp (globEnv R) (fileExists pj rounds o filename)
      (fun out _ _ => out = .ok (w.fileThere uri)) c w := by
  unfold fileExists
  rw [hsecret, hparse]
  simp only
  rw [Code.wp_bind]
  refine Code.wp_mono
    (wp_tryResolvePath_present hR hrounds (clean_of_parse hparse) htrash h) ?_
  intro out c' w' ⟨_, found, hout, hfound⟩
  rw [hout]
  show Except.ok _ = Except.ok _
  unfold World.fileThere
  rw [← hfound, Option.any_map]

/-- `DirectoryExists` says whether a folder is there. -/
theorem wp_directoryExists_present
    (hR : ∀ w q r w', R w q r w' → treeRel pj (fun _ => False) w q r w') (hrounds : 1 ≤ rounds)
    {directory : Str} {uri : GDriveUri} (hsecret : o.hasSecret = true)
    (hparse : parseGDriveUri directory = .ok uri) (htrash : w.NotTrashed uri)
    (h : Faithful o.auth c w) :
    Code.wp (globEnv R) (directoryExists pj rounds o directory)
      (fun out _ _ => out = .ok (w.folderThere uri)) c w := by
  unfold directoryExists
  rw [hsecret, hparse]
  split
  · rename_i heq
    cases heq
    rfl
  · rename_i uri' hne _ heq
    cases heq
    rw [Code.wp_bind]
    refine Code.wp_mono
      (wp_tryResolvePath_present hR hrounds (clean_of_parse hparse) htrash h) ?_
    intro out c' w' ⟨_, found, hout, hfound⟩
    rw [hout]
    show Except.ok _ = Except.ok _
    have hthere : w.folderThere uri = (w.present uri).any fun hit => hit.2 := by
      unfold World.folderThere
      split
      · exact (hne rfl).elim
      · rfl
    rw [hthere, ← hfound, Option.any_map]
  · rename_i hne
    exact absurd rfl (hne uri rfl)

end Presence

-- ====================================================================== the run

/-- A cache none of whose entries answers for what is not there. -/
structure PathCache.OnlyPresent (auth : AuthContext) (w : World) (c : PathCache) : Prop where
  paths : ∀ {segments e}, (∀ s ∈ segments, Segment s) →
    c.entries.lookup (pathKey auth segments) = some e →
    w.present (.path segments) = some (e.file.id, e.file.isFolder)
  ids : ∀ {id file}, c.metadataEntries.lookup (metadataKey auth id) = some file →
    w.NotTrashed (.fileId id) → w.present (.fileId id) = some (file.id, file.isFolder)

/-- The next lookups of what a text names find what is there. -/
structure FindsPresent (pj : Picojson) (rounds : Nat) (auth : AuthContext) (c : PathCache)
    (w : World) (path : Str) (uri : GDriveUri) : Prop where
  resolved : ∀ {thread out c' w'},
    Reaches (treeRel pj fun _ => False) (tryResolvePath pj rounds thread auth uri c) w
      (.ret (out, c')) w' →
    ∃ found, out = .ok found ∧
      found.map (fun hit => (hit.1.id, hit.1.isFolder)) = w.present uri
  file : ∀ {o : Opener} {out c' w'}, o.auth = auth → o.hasSecret = true →
    Reaches (treeRel pj fun _ => False) (fileExists pj rounds o path c) w (.ret (out, c')) w' →
    out = .ok (w.fileThere uri)
  directory : ∀ {o : Opener} {out c' w'}, o.auth = auth → o.hasSecret = true →
    Reaches (treeRel pj fun _ => False) (directoryExists pj rounds o path c) w (.ret (out, c')) w' →
    out = .ok (w.folderThere uri)

section Run

variable {signed : Bool} {pj : Picojson} {rounds : Nat} {auth : AuthContext} {w : World}
  {c : PathCache}

theorem Faithful.onlyPresent (h : Faithful auth c w) : c.OnlyPresent auth w := by
  refine ⟨?_, ?_⟩
  · intro segments e hsegs he
    have hnames := h.mirrored.names hsegs he
    cases segments with
    | nil =>
        obtain ⟨init, s, p, hnil, -⟩ := hnames
        exact absurd hnil.symm (List.append_ne_nil_of_right_ne_nil init (List.cons_ne_nil s []))
    | cons s rest => exact hnames.present h.unique
  · intro id file hfile htrash
    exact (h.mirrored.looked hfile).present htrash

theorem Faithful.findsPresent (h : Faithful auth c w) (hrounds : 1 ≤ rounds) {path : Str}
    {uri : GDriveUri} (hparse : parseGDriveUri path = .ok uri) (htrash : w.NotTrashed uri) :
    FindsPresent pj rounds auth c w path uri := by
  have hR : ∀ w q r w', treeRel pj (fun _ => False) w q r w' →
      treeRel pj (fun _ => False) w q r w' := fun _ _ _ _ hr => hr
  refine ⟨?_, ?_, ?_⟩
  · intro thread out c' w' hrun
    exact (Code.wp_returns
      (wp_tryResolvePath_present hR hrounds (clean_of_parse hparse) htrash h) hrun).2
  · intro o out c' w' ho hsecret hrun
    subst ho
    exact Code.wp_returns (wp_fileExists_present hR hrounds hsecret hparse htrash h) hrun
  · intro o out c' w' ho hsecret hrun
    subst ho
    exact Code.wp_returns (wp_directoryExists_present hR hrounds hsecret hparse htrash h) hrun

/-- From a tree with unique names, runs whose operations are all covered
leave a cache that answers for nothing that is not there, and what is not in
the trash is looked up next as it is there. -/
theorem mutation_coherence {start : World} (hrounds : 1 ≤ rounds)
    (hroot : rootFolderFor auth = start.rootAlias) (hstart : start.UniqueNames)
    {past : List (FileOp × Except Exn Unit)}
    (hrun : Guarded (treeRel pj IsRead) (FileOp.body signed pj rounds)
      (fun op _ w => op.opener.auth = auth ∧ op.Covered w) {} start past c w) :
    c.OnlyPresent auth w ∧
      ∀ path uri, parseGDriveUri path = .ok uri → w.NotTrashed uri →
        FindsPresent pj rounds auth c w path uri := by
  have hfaithful : Faithful auth c w := by
    refine hrun.inv (I := fun c w => Faithful auth c w) ?_ ⟨hstart, cacheInv_empty, hroot⟩
    intro op c w h hguard
    exact FileOp.wp_body (fun _ _ _ _ hr => hr) (fun _ hread => hread) hrounds hguard.1 hguard.2 h
  refine ⟨hfaithful.onlyPresent, ?_⟩
  intro path uri hparse htrash
  exact hfaithful.findsPresent hrounds hparse htrash

end Run

-- ========================================================= a file removed by its id

section Phantom

def fileA : DriveFileMeta := { id := str "A", name := str "a" }

/-- The file `a`, and `a` in the trash. -/
def trashedTrees (n : Nat) : World :=
  if n = 0 then treeOf [{ file := fileA, parent := str "R" }] flat (by decide +kernel)
  else treeOf [{ file := fileA, parent := str "R", trashed := true }] flat (by decide +kernel)

def trashedJson : Picojson := tableJson [listingJson [fileA], listingJson [], fileObject fileA]

/-- The Drive that puts `a` into the trash. -/
def trashing : Nat → (q : CallReq) → Except Exn DriveResponse × Nat
  | 0, .delete id false =>
      if id = str "A" then (.ok { ok := true, httpStatus := 200 }, 1) else (lost, 0)
  | n, q => (served trashedJson (trashedTrees n) q, n)

theorem trashing_truthful {mayFail : CallReq → Prop} (n : Nat) (q : CallReq) (resp : DriveResponse)
    (h : (trashing n q).1 = .ok resp) :
    treeRel trashedJson mayFail (trashedTrees n) q (.ok resp) (trashedTrees (trashing n q).2) := by
  unfold trashing at h ⊢
  split at h
  · split at h
    · rename_i heq
      cases h
      rw [if_pos heq, heq]
      refine .inl ⟨_, rfl, rfl, rfl, ?_⟩
      exact removes_of_closed [str "A"] (by decide +kernel) (by decide +kernel) (by decide +kernel)
        ⟨rfl, rfl, rfl⟩
    · cases h
  · exact answered_truthful h

/-- The cache that a program leaves. -/
def cacheLeft {α : Type} (p : Prog Client (Except Exn α × PathCache)) : PathCache :=
  ((ended p).map (·.2)).getD {}

/-- What a program comes to, where every answer arrives. -/
theorem reaches_trashing {α : Type} {mayFail : CallReq → Prop}
    {p : Prog Client (Except Exn α × PathCache)} {n m : Nat} {a : α}
    (hanswered : answered trashing p n = true)
    (hreturned : (ended (p.play trashing n).1).map (·.1.toOption) = some (some a))
    (hplayed : (p.play trashing n).2 = m) :
    Reaches (treeRel trashedJson mayFail) p (trashedTrees n)
      (.ret (.ok a, cacheLeft (p.play trashing n).1)) (trashedTrees m) := by
  have hrun := reaches_answered (@trashing_truthful mayFail) hanswered
  obtain ⟨⟨out, c⟩, hend, hout⟩ := Option.map_eq_some_iff.mp hreturned
  cases out with
  | error e => cases hout
  | ok a' =>
      obtain rfl : a' = a := Option.some.inj hout
      unfold cacheLeft
      rw [hend]
      rw [eq_ret_of_ended hend, hplayed] at hrun
      exact hrun

/-- An operation from a cache. -/
def onTrash (op : FileOp) (c : PathCache) : Prog Client (Except Exn Unit × PathCache) :=
  op.body true trashedJson 1 c

def resolveA : FileOp := .lookup (.resolve me (str "gdrive://a"))

/-- The cache once `a` has been resolved. -/
def knowsA : PathCache := cacheLeft ((onTrash resolveA {}).play trashing 0).1

/-- The cache once `a` has been removed, too. -/
def lostA (path : Str) : PathCache :=
  cacheLeft ((onTrash (.removeFile me path) knowsA).play trashing 0).1

/-- `FileExists` of `a` then. -/
def existsA (c : PathCache) : Prog Client (Except Exn Bool × PathCache) :=
  fileExists trashedJson 1 me (str "gdrive://a") c

theorem trashedTrees_unique : (trashedTrees 0).UniqueNames := by
  intro p s
  unfold World.named World.children
  refine (List.length_filter_le _ _).trans ?_
  rw [List.length_map]
  exact List.length_filter_le _ _

theorem reaches_resolveA {mayFail : CallReq → Prop} :
    Reaches (treeRel trashedJson mayFail) (onTrash resolveA {}) (trashedTrees 0)
      (.ret (.ok (), knowsA)) (trashedTrees 0) :=
  reaches_trashing (by decide +kernel) (by decide +kernel) (by decide +kernel)

/-- A file removed by its id still is at its path. -/
theorem removed_by_id_still_there : ∃ c c',
    History (treeRel trashedJson fun _ => False) (FileOp.body true trashedJson 1) {}
      (trashedTrees 0) [(resolveA, .ok ()), (.removeFile me (str "gdrive://id:A"), .ok ())] c
      (trashedTrees 1) ∧
    (trashedTrees 0).UniqueNames ∧ parseGDriveUri (str "gdrive://a") = .ok (.path [str "a"]) ∧
    Reaches (treeRel trashedJson fun _ => False)
      (fileExists trashedJson 1 me (str "gdrive://a") c) (trashedTrees 1) (.ret (.ok true, c'))
      (trashedTrees 1) ∧
    (trashedTrees 1).fileThere (.path [str "a"]) = false := by
  have hremove : Reaches (treeRel trashedJson fun _ => False)
      (onTrash (.removeFile me (str "gdrive://id:A")) knowsA) (trashedTrees 0)
      (.ret (.ok (), lostA (str "gdrive://id:A"))) (trashedTrees 1) :=
    reaches_trashing (by decide +kernel) (by decide +kernel) (by decide +kernel)
  have hexists : Reaches (treeRel trashedJson fun _ => False)
      (existsA (lostA (str "gdrive://id:A"))) (trashedTrees 1)
      (.ret (.ok true, cacheLeft ((existsA (lostA (str "gdrive://id:A"))).play trashing 1).1))
      (trashedTrees 1) :=
    reaches_trashing (by decide +kernel) (by decide +kernel) (by decide +kernel)
  exact ⟨_, _, .snoc (.snoc .nil reaches_resolveA) hremove, trashedTrees_unique,
    by decide +kernel, hexists, by decide +kernel⟩

/-- Removed by its path it is gone. -/
theorem mutation_coherence_removed : ∃ c,
    Guarded (treeRel trashedJson IsRead) (FileOp.body true trashedJson 1)
      (fun op _ w => op.opener.auth = me.auth ∧ op.Covered w) {} (trashedTrees 0)
      [(resolveA, .ok ()), (.removeFile me (str "gdrive://a"), .ok ())] c (trashedTrees 1) ∧
    c.OnlyPresent me.auth (trashedTrees 1) ∧
    ∀ {out c' w'}, Reaches (treeRel trashedJson fun _ => False)
      (fileExists trashedJson 1 me (str "gdrive://a") c) (trashedTrees 1) (.ret (out, c')) w' →
      out = .ok false := by
  have hparse : parseGDriveUri (str "gdrive://a") = .ok (.path [str "a"]) := by decide +kernel
  have hremove : Reaches (treeRel trashedJson IsRead)
      (onTrash (.removeFile me (str "gdrive://a")) knowsA) (trashedTrees 0)
      (.ret (.ok (), lostA (str "gdrive://a"))) (trashedTrees 1) :=
    reaches_trashing (by decide +kernel) (by decide +kernel) (by decide +kernel)
  have hbelow : (FileOp.removeFile me (str "gdrive://a")).Covered (trashedTrees 0) := by
    intro uri huri
    rw [hparse] at huri
    cases huri
    exact ⟨_, _, rfl⟩
  have hrun : Guarded (treeRel trashedJson IsRead) (FileOp.body true trashedJson 1)
      (fun op _ w => op.opener.auth = me.auth ∧ op.Covered w) {} (trashedTrees 0)
      [(resolveA, .ok ()), (.removeFile me (str "gdrive://a"), .ok ())]
      (lostA (str "gdrive://a")) (trashedTrees 1) :=
    .snoc (.snoc .nil ⟨rfl, trivial⟩ reaches_resolveA) ⟨rfl, hbelow⟩ hremove
  obtain ⟨hpresent, hfinds⟩ := mutation_coherence le_rfl rfl trashedTrees_unique hrun
  refine ⟨_, hrun, hpresent, ?_⟩
  intro out c' w' hexists
  rw [(hfinds _ _ hparse trivial).file rfl rfl hexists]
  have hgone : (trashedTrees 1).fileThere (.path [str "a"]) = false := by decide +kernel
  rw [hgone]

end Phantom

end GDrive
