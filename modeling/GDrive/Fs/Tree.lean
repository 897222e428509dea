/-
Drive as one identity sees it: its files and folders, what a client call is
answered, and what it changes.

# The tree

A `Node` lies in its parent folder and may be in the trash. Several nodes
of one folder may have one name. `World` carries what Drive itself keeps:
ids are unique, only folders have children, no folder lies beneath itself.
The folder paths start from is known by an alias (`root`) besides its id.

# The calls

`treeRel` answers truthfully where it answers at all. A call may fail where
`mayFail` says so, and a change it asked for may have been made all the
same.
-/
import GDrive.Fs.Resolve
import GDrive.Naming.Walk

namespace GDrive

open Interaction Naming

structure Node where
  file : DriveFileMeta
  parent : Str
  trashed : Bool := false

/-- What a resumable session publishes with its last chunk. -/
structure OpenUpload where
  fileId : Str
  parentId : Str
  name : Str

structure World where
  nodes : List Node
  /-- The folder paths start from, and the name clients know it by. -/
  rootId : Str
  rootAlias : Str
  sessions : Str → Option OpenUpload := fun _ => none
  unique_ids : (nodes.map (·.file.id)).Nodup
  folders : ∀ n ∈ nodes, ∀ m ∈ nodes, m.parent = n.file.id → n.file.isFolder = true
  acyclic : ∃ rank : Str → Nat, ∀ n ∈ nodes, rank n.parent < rank n.file.id
  alias_free : rootAlias = rootId ∨ ∀ n ∈ nodes, n.file.id ≠ rootAlias

namespace World

-- ================================================================= listings

/-- The id behind the name a client uses. -/
def deref (w : World) (id : Str) : Str := if id = w.rootAlias then w.rootId else id

/-- What lies in a folder and not in the trash. -/
def children (w : World) (parent : Str) : List DriveFileMeta :=
  (w.nodes.filter fun n => !n.trashed && n.parent = parent).map (·.file)

def named (w : World) (parent name : Str) : List DriveFileMeta :=
  (w.children parent).filter (·.name = name)

def foldersNamed (w : World) (parent name : Str) : List DriveFileMeta :=
  (w.named parent name).filter (·.isFolder)

/-- What a `q` expression finds. -/
def listing (w : World) (q : DriveQuery) : List DriveFileMeta :=
  let found :=
    match q.name with
    | none => w.children (w.deref q.parentId)
    | some name => w.named (w.deref q.parentId) name
  if q.requireFolder then found.filter (·.isFolder) else found

/-- The one folder of a name. -/
def step (w : World) (parent name : Str) : Option Str :=
  match w.foldersNamed parent name with
  | [folder] => some folder.id
  | _ => none

/-- The folder at a path. -/
def folderAt (w : World) (segments : List Str) : Option Str := walk w.step w.rootId segments

theorem mem_children {w : World} {parent : Str} {file : DriveFileMeta} :
    file ∈ w.children parent ↔
      ∃ n ∈ w.nodes, n.file = file ∧ n.trashed = false ∧ n.parent = parent := by
  unfold children
  simp only [List.mem_map, List.mem_filter, Bool.and_eq_true, Bool.not_eq_true',
    decide_eq_true_eq]
  constructor
  · intro ⟨n, ⟨hn, htrashed, hparent⟩, hfile⟩
    exact ⟨n, hn, hfile, htrashed, hparent⟩
  · intro ⟨n, hn, hfile, htrashed, hparent⟩
    exact ⟨n, ⟨hn, htrashed, hparent⟩, hfile⟩

theorem mem_named {w : World} {parent name : Str} {file : DriveFileMeta} :
    file ∈ w.named parent name ↔ file ∈ w.children parent ∧ file.name = name := by
  unfold named
  rw [List.mem_filter, decide_eq_true_eq]

theorem mem_foldersNamed {w : World} {parent name : Str} {file : DriveFileMeta} :
    file ∈ w.foldersNamed parent name ↔ file ∈ w.named parent name ∧ file.isFolder = true := by
  unfold foldersNamed
  rw [List.mem_filter]

theorem node_unique {w : World} {n m : Node} (hn : n ∈ w.nodes) (hm : m ∈ w.nodes)
    (h : n.file.id = m.file.id) : n = m :=
  List.inj_on_of_nodup_map w.unique_ids hn hm h

/-- The name of a folder that was listed is its id. -/
theorem deref_node {w : World} {n : Node} (hn : n ∈ w.nodes) : w.deref n.file.id = n.file.id := by
  unfold deref
  split
  · rename_i heq
    rcases w.alias_free with h | h
    · rw [heq, h]
    · exact absurd heq (h n hn)
  · rfl

theorem deref_alias (w : World) : w.deref w.rootAlias = w.rootId := if_pos rfl

-- ==================================================================== the walk

theorem step_eq_some {w : World} {parent name id : Str} :
    w.step parent name = some id ↔
      ∃ folder, w.foldersNamed parent name = [folder] ∧ folder.id = id := by
  unfold step
  split
  · rename_i folder hfolder
    rw [hfolder]
    simp
  · rename_i hne
    constructor
    · exact nofun
    · intro ⟨folder, hfolder, _⟩
      exact absurd hfolder (hne folder)

/-- A step leads to a folder with the name, in the place it started from. -/
theorem node_of_step {w : World} {parent name id : Str} (h : w.step parent name = some id) :
    ∃ n ∈ w.nodes, n.file.id = id ∧ n.file.name = name ∧ n.parent = parent ∧
      n.trashed = false ∧ n.file.isFolder = true := by
  obtain ⟨folder, hfolder, rfl⟩ := step_eq_some.mp h
  have hmem : folder ∈ w.foldersNamed parent name := by
    rw [hfolder]
    exact List.mem_singleton.mpr rfl
  obtain ⟨hnamed, hkind⟩ := mem_foldersNamed.mp hmem
  obtain ⟨hchild, hname⟩ := mem_named.mp hnamed
  obtain ⟨n, hn, rfl, htrashed, hparent⟩ := mem_children.mp hchild
  exact ⟨n, hn, rfl, hname, hparent, htrashed, hkind⟩

/-- Walking goes down. -/
theorem rank_walk {w : World} {rank : Str → Nat}
    (hrank : ∀ n ∈ w.nodes, rank n.parent < rank n.file.id) {a : List Str} {q : Str}
    (h : w.folderAt a = some q) : rank w.rootId + a.length ≤ rank q := by
  unfold folderAt at h
  induction a using List.reverseRecOn generalizing q with
  | nil =>
      obtain rfl : w.rootId = q := by simpa using h
      simp
  | append_singleton a s ih =>
      obtain ⟨p, hp, hs⟩ := walk_concat_eq_some.mp h
      obtain ⟨n, hn, rfl, -, rfl, -, -⟩ := node_of_step hs
      have hlt := hrank n hn
      have hle := ih hp
      rw [List.length_append, List.length_singleton]
      omega

theorem traceable (w : World) : Traceable w.step w.rootId := by
  obtain ⟨rank, hrank⟩ := w.acyclic
  refine ⟨?_, ?_⟩
  · intro p p' s s' q h h'
    obtain ⟨n, hn, hid, hname, hparent, -, -⟩ := node_of_step h
    obtain ⟨n', hn', hid', hname', hparent', -, -⟩ := node_of_step h'
    obtain rfl := node_unique hn hn' (hid.trans hid'.symm)
    exact ⟨hparent.symm.trans hparent', hname.symm.trans hname'⟩
  · intro a ha
    have hle := rank_walk hrank ha
    exact List.eq_nil_of_length_eq_zero (by omega)

/-- The folder at a path is known by its id. -/
theorem deref_folderAt {w : World} {a : List Str} {q : Str} (h : w.folderAt a = some q) :
    w.deref q = q := by
  obtain rfl | ⟨a, s, rfl⟩ := List.eq_nil_or_concat' a
  · obtain rfl : w.rootId = q := by simpa [folderAt] using h
    unfold deref
    split
    · rfl
    · rfl
  · obtain ⟨p, -, hs⟩ := walk_concat_eq_some.mp h
    obtain ⟨n, hn, rfl, -⟩ := node_of_step hs
    exact deref_node hn

-- ================================================================ lookups by id

/-- What `files.get` says of an id, trashed or not. -/
def Metadata (w : World) (id : Str) (file : DriveFileMeta) : Prop :=
  (∃ n ∈ w.nodes, n.file = file ∧ file.id = w.deref id) ∨
    ((∀ n ∈ w.nodes, n.file.id ≠ w.deref id) ∧ w.deref id = w.rootId ∧ file.id = w.rootId ∧
      file.isFolder = true)

/-- An id nothing has. -/
def Absent (w : World) (id : Str) : Prop :=
  w.deref id ≠ w.rootId ∧ ∀ n ∈ w.nodes, n.file.id ≠ w.deref id

end World

-- ================================================================= the changes

/-- An id that has never been used. -/
def World.Unused (w : World) (id : Str) : Prop :=
  id ≠ w.rootId ∧ id ≠ w.rootAlias ∧ ∀ n ∈ w.nodes, n.file.id ≠ id ∧ n.parent ≠ id

/-- `w'` is `w` with other nodes. -/
structure World.Becomes (w : World) (nodes : List Node) (w' : World) : Prop where
  nodes : w'.nodes = nodes
  rootId : w'.rootId = w.rootId
  rootAlias : w'.rootAlias = w.rootAlias

/-- A new file in a folder. -/
def World.Creates (w : World) (parentId : Str) (file : DriveFileMeta) (w' : World) : Prop :=
  w.Unused file.id ∧ w.Becomes (w.nodes ++ [{ file, parent := w.deref parentId }]) w'

/-- Another node under the same id. -/
def World.Replaces (w : World) (id : Str) (f : Node → Node) (w' : World) : Prop :=
  (∃ n ∈ w.nodes, n.file.id = id) ∧
    w.Becomes (w.nodes.map fun n => if n.file.id = id then f n else n) w'

/-- The name a request sets: none where it is left out. -/
def renamed (old new : Str) : Str := if new.isEmpty then old else new

/-- An upload of `size` bytes publishes `file`: a new one, or the new content
of the one with this id, whose place in the tree stays. -/
def World.Publishes (w : World) (u : OpenUpload) (folder : Bool) (size : Nat)
    (file : DriveFileMeta) (w' : World) : Prop :=
  file.isFolder = folder ∧ file.isNativeGoogleFormat = false ∧
    (folder = false → file.size = size) ∧
    if u.fileId.isEmpty then file.name = u.name ∧ w.Creates u.parentId file w'
    else file.id = u.fileId ∧
      (∀ n ∈ w.nodes, n.file.id = u.fileId →
        n.file.isFolder = false ∧ file.name = renamed n.file.name u.name) ∧
      w.Replaces u.fileId (fun n => { n with file }) w'

/-- The file is in the tree that it was published to. -/
theorem World.Publishes.mem {w w' : World} {u : OpenUpload} {folder : Bool} {size : Nat}
    {file : DriveFileMeta} (h : w.Publishes u folder size file w') : ∃ n ∈ w'.nodes, n.file =
    file := by
  obtain ⟨-, -, -, hplace⟩ := h
  split at hplace
  · refine ⟨{ file, parent := w.deref u.parentId }, ?_, rfl⟩
    rw [hplace.2.2.nodes]
    exact List.mem_append_right _ (List.mem_singleton.mpr rfl)
  · obtain ⟨-, -, ⟨n, hn, hid⟩, hbecomes⟩ := hplace
    refine ⟨{ n with file }, ?_, rfl⟩
    rw [hbecomes.nodes]
    exact List.mem_map.mpr ⟨n, hn, if_pos hid⟩

/-- `q` lies in `p`, in the trash or not. -/
def World.LiesIn (w : World) (q p : Str) : Prop := ∃ n ∈ w.nodes, n.file.id = q ∧ n.parent = p

/-- An object and everything beneath it goes to the trash, or for good. -/
def World.Removes (w : World) (id : Str) (permanent : Bool) (w' : World) : Prop :=
  (∃ n ∈ w.nodes, n.file.id = id) ∧
    ∃ gone : Str → Bool, (∀ x, gone x = true ↔ Beneath w.LiesIn id x) ∧
      w.Becomes
        (if permanent then w.nodes.filter fun n => !gone n.file.id
          else w.nodes.map fun n => if gone n.file.id then { n with trashed := true } else n) w'

/-- An object moves to another folder and may get another name. -/
def World.Moves (w : World) (id newParentId newName : Str) (w' : World) : Prop :=
  w.Replaces id
    (fun n =>
      { n with
        parent := w.deref newParentId
        file := { n.file with name := renamed n.file.name newName } }) w'

-- =================================================================== the calls

/-- The kind of file an upload makes. -/
def makesFolder (contentType : Str) : Bool := contentType = kFolderMimeType

/-- A successful answer, and what the call has changed. -/
def World.Succeeds (pj : Picojson) (w : World) (q : CallReq) (resp : DriveResponse)
    (w' : World) : Prop :=
  match q with
  | .getMetadata id =>
      w' = w ∧ ∃ file, parseFileMeta pj resp.body = some file ∧ w.Metadata id file
  | .list query _ => w' = w ∧ parseFileList pj resp.body = some (w.listing query, [])
  | .download _ _ _ | .export _ _ | .generateFileId => w' = w
  | .upload fileId parentId name contentType data _ =>
      w'.sessions = w.sessions ∧
        ∃ file, parseFileMeta pj resp.body = some file ∧
          w.Publishes ⟨fileId, parentId, name⟩ (makesFolder contentType) data.length file w'
  | .startResumableUpload fileId parentId name _ =>
      resp.location ≠ [] ∧ w.sessions resp.location = none ∧ w.Becomes w.nodes w' ∧
        w'.sessions = Function.update w.sessions resp.location (some ⟨fileId, parentId, name⟩)
  | .uploadChunk sessionUri buf final =>
      if final then
        ∃ u file, w.sessions sessionUri = some u ∧ parseFileMeta pj resp.body = some file ∧
          w.Publishes u false buf.total file w' ∧
          w'.sessions = Function.update w.sessions sessionUri none
      else w' = w
  | .cancelUpload sessionUri =>
      w.Becomes w.nodes w' ∧
        (w'.sessions = w.sessions ∨ w'.sessions = Function.update w.sessions sessionUri none)
  | .delete id permanent => w'.sessions = w.sessions ∧ w.Removes id permanent w'
  | .move id newParentId newName _ => w'.sessions = w.sessions ∧ w.Moves id newParentId newName w'

/-- A failure, thrown or returned. Only `files.get` of an id nothing has
fails by a 404. -/
def Failed (q : CallReq) (r : Except Exn DriveResponse) : Prop :=
  ∀ resp, r = .ok resp → resp.ok = false ∧
    ∀ id, q = .getMetadata id → resp.error.kind ≠ .notFound

/-- Drive, answering the client's calls. -/
def treeRel (pj : Picojson) (mayFail : CallReq → Prop) : Rel Client World :=
  fun w q r w' =>
    (∃ resp, r = .ok resp ∧ resp.ok = true ∧ w.Succeeds pj q resp w') ∨
      (∃ id resp, q = .getMetadata id ∧ r = .ok resp ∧ resp.ok = false ∧
        resp.error.kind = .notFound ∧ w.Absent id ∧ w' = w) ∨
      (mayFail q ∧ Failed q r ∧ (w' = w ∨ ∃ resp, w.Succeeds pj q resp w'))

end GDrive
