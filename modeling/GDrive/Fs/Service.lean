/-
Drive behind the wire, under a tree.

# The state

`Service` is what answers the client's HTTP requests: the tree, and the
resumable sessions by the path they are addressed by. A session is under way,
with what its first request said, or has been completed, and then knows the
file it made. (Of the tree's own `sessions`, which are the client's view of
them by their URIs, nothing is used.)

# The replies

`serviceRel` says how each request may be answered and what it changes.
Whatever the reply, a request may have been applied or not, with these
promises: a success means it has been, a reply that is classified
unauthenticated that it has not, a 409 that the id of a create is in use; a
lookup answers truthfully; the pages of a listing, one token after the other,
are the listing; and a session publishes while it serves a request that
carries the total.
-/
import GDrive.Client.Client
import GDrive.Fs.Pagination
import GDrive.Fs.Tree

namespace GDrive

open Interaction

-- ================================================================== the state

inductive SessionState
  | started (fileId : Str) (metadata : RequestMetadata)
  | completed (file : DriveFileMeta)

structure Service where
  tree : World
  sessions : Str → Option SessionState := fun _ => none

/-- What an upload with this metadata publishes; a member left out is empty. -/
def uploadOf (fileId : Str) (metadata : RequestMetadata) : OpenUpload where
  fileId := fileId
  parentId := metadata.parent.getD []
  name := metadata.name.getD []

/-- The statuses that the client takes for a success. -/
def DriveOp.success : DriveOp → List Nat
  | .filesMedia _ _ _ => [200, 206]
  | .filesDelete _ => [204]
  | _ => [200]

/-- The id that a create reserves. -/
def DriveOp.reservedId : DriveOp → Option Str
  | .createMultipart metadata _ _ => metadata.id
  | _ => none

-- ============================================================ a request's effect

/-- A request that changes the tree, applied; `body` is what it is then
answered with. -/
def World.Applies (pj : Picojson) (w : World) (op : DriveOp) (body : Str) (w' : World) : Prop :=
  match op with
  | .createFolder metadata => ∃ file, parseFileMeta pj body = some file ∧
      w.Publishes (uploadOf [] metadata) true 0 file w'
  | .createMultipart metadata contentType data => ∃ file, parseFileMeta pj body = some file ∧
      (∀ id, metadata.id = some id → file.id = id) ∧
      w.Publishes (uploadOf [] metadata) (makesFolder contentType) data.length file w'
  | .updateMultipart fileId metadata contentType data =>
      ∃ file, parseFileMeta pj body = some file ∧
        w.Publishes (uploadOf fileId metadata) (makesFolder contentType) data.length file w'
  | .filesDelete fileId => w.Removes fileId true w'
  | .trash fileId => w.Removes fileId false w'
  | .move fileId newParentId newName _ => w.Moves fileId newParentId newName w'
  | _ => False

-- ================================================================== the replies

/-- A reply that the client takes for a success. -/
def RawResult.succeeds (raw : RawResult) (op : DriveOp) : Prop :=
  raw.transportOk = true ∧ raw.status ∈ op.success

/-- A reply that fails as `kind`. -/
def FailsAs (pj : Picojson) (op : DriveOp) (raw : RawResult) (kind : GDriveErrorKind) : Prop :=
  raw.transportOk = true ∧ raw.status ∉ op.success ∧ (errorOf pj raw).kind = kind

section Replies

variable (pj : Picojson)
  /- What is left of a listing from a page token on. -/
  (cursor : World → DriveQuery → Str → List DriveFileMeta)

/-- Serving a request that changes the tree. -/
def Changes (v : Service) (op : DriveOp) (raw : RawResult) (v' : Service) : Prop :=
  (raw.is 409 → ∀ id, op.reservedId = some id → v' = v ∧ ¬v.tree.Unused id) ∧
    ((v' = v ∧ ¬raw.succeeds op) ∨
      (v'.sessions = v.sessions ∧ ¬FailsAs pj op raw .unauthenticated ∧
        ∃ body, v.tree.Applies pj op body v'.tree ∧ (raw.succeeds op → raw.body = body)))

/-- Serving an API request. -/
def Answers (v : Service) (op : DriveOp) (raw : RawResult) (v' : Service) : Prop :=
  match op with
  | .filesGet fileId => v' = v ∧
      (raw.succeeds (.filesGet fileId) →
        ∃ file, parseFileMeta pj raw.body = some file ∧ v.tree.Metadata fileId file) ∧
      (FailsAs pj (.filesGet fileId) raw .notFound → v.tree.Absent fileId)
  | .filesList query token => v' = v ∧
      (raw.succeeds (.filesList query token) → ∃ files next, IsPage pj raw.body files next ∧
        cursor v.tree query token =
          files ++ if next = [] then [] else cursor v.tree query next)
  | .filesMedia _ _ _ | .filesExport _ _ => v' = v
  | .generateIds => v' = v ∧ (raw.succeeds .generateIds →
      ∀ id, parseGeneratedFileId pj raw.body = some id → v.tree.Unused id)
  | .startSession fileId metadata contentType =>
      (v' = v ∧ (raw.succeeds (.startSession fileId metadata contentType) →
        driveSessionPath raw.location = none)) ∨
      ∃ path, v.sessions path = none ∧
        v' = { v with
          sessions := Function.update v.sessions path (some (.started fileId metadata)) } ∧
        (raw.succeeds (.startSession fileId metadata contentType) →
          ∀ path', driveSessionPath raw.location = some path' → path' = path)
  | op => Changes pj v op raw v'

/-- Serving a request to a session. -/
def SessionAnswers (v : Service) (path : Str) (range : ContentRange) (raw : RawResult)
    (v' : Service) : Prop :=
  match v.sessions path with
  | none => v' = v ∧ ¬raw.Published
  | some (.completed file) => v' = v ∧ (raw.Published → parseFileMeta pj raw.body = some file)
  | some (.started fileId metadata) =>
      (v' = v ∧ ¬raw.Published) ∨
      ∃ body file size, parseFileMeta pj body = some file ∧ range.total = some size ∧
        v.tree.Publishes (uploadOf fileId metadata) false size file v'.tree ∧
        v'.sessions = Function.update v.sessions path (some (.completed file)) ∧
        (raw.Published → raw.body = body)

/-- Drive behind the wire. -/
def serviceRel : Rel Wire Service
  | v, .http _ op, (raw : RawResult), v' => Answers pj cursor v op raw v'
  | v, .session path range _, (raw : RawResult), v' => SessionAnswers pj v path range raw v'
  | v, .cancelSession path, _, v' => v'.tree = v.tree ∧
      (v'.sessions = v.sessions ∨ v'.sessions = Function.update v.sessions path none)
  | v, .token, _, v' => v' = v
  | v, .refresh _, _, v' => v' = v
  | v, .sleep _ _, _, v' => v' = v

theorem serviceRel_quiet : QuietRel (serviceRel pj cursor) := by
  intro v q ans v' hq hv
  cases q with
  | token => exact hv
  | refresh => exact hv
  | sleep => exact hv
  | http => cases hq
  | session => cases hq
  | cancelSession => cases hq

end Replies

-- ================================================================= what is expected

/-- What the file system has to see to when it makes a call: a folder is a new
one, an id that a create reserves is unused, the last chunk goes to a session
that is open, and a listing is asked for from its beginning. -/
def World.Expects (w : World) : CallReq → Prop
  | .list _ pageToken => pageToken = []
  | .upload fileId _ _ contentType _ reservedId =>
      (contentType = kFolderMimeType → fileId = []) ∧
        (fileId = [] → reservedId ≠ [] → w.Unused reservedId)
  | .uploadChunk sessionUri _ true => w.sessions sessionUri ≠ none
  | _ => True

/-- Drive as the calls see it: any call may fail, and a generated id is
unused. -/
def clientRel (pj : Picojson) : Rel Client World :=
  fun w q r w' => treeRel pj (fun _ => True) w q r w' ∧
    (q = .generateFileId → ∀ resp, r = .ok resp → resp.ok = true →
      ∀ id, parseGeneratedFileId pj resp.body = some id → w.Unused id)

-- ================================================================ the two levels

/-- The tree under another view of its sessions. -/
def World.withSessions (w : World) (sessions : Str → Option OpenUpload) : World :=
  { w with sessions }

/-- A session the client holds is under way for what it was opened for. -/
def Service.Holds (v : Service) (sessions : Str → Option OpenUpload) : Prop :=
  ∀ {uri u}, sessions uri = some u → ∃ path fileId metadata, driveSessionPath uri = some path ∧
    v.sessions path = some (.started fileId metadata) ∧ fileId = u.fileId ∧
    metadata.name.getD [] = u.name ∧ (u.fileId = [] → metadata.parent.getD [] = u.parentId)

/-- How the file system sees the service: its tree, and of its sessions those
that it was told of, by their URIs. -/
def Service.SeenAs (v : Service) (w : World) : Prop :=
  ∃ sessions, w = v.tree.withSessions sessions ∧ v.Holds sessions

end GDrive
