/-
What the Drive client sends out and what comes back (gdrive_client.cpp).

`DriveOp` is one Drive API request by its parameters: which endpoint, and
the ids, names and bytes it carries. `Wire` is the signature of everything
the transport does to the outside: ask the token source, send an API
request under a token, PUT to a resumable session, cancel one, sleep.
-/
import GDrive.Client.Meta
import GDrive.Interaction.Program
import GDrive.Upload.Plan

namespace GDrive

open Interaction

/-- `RawResult`: one HTTP exchange; nothing but `transportOk = false` when
no reply came. -/
structure RawResult where
  transportOk : Bool := false
  status : Nat := 0
  body : Str := []
  retryAfter : Str := []
  location : Str := []
  range : Str := []
  deriving DecidableEq

/-- Delivered with this status. -/
def RawResult.is (raw : RawResult) (status : Nat) : Prop :=
  raw.transportOk = true ∧ raw.status = status

/-- Result of a client call; `error` is meaningful when not `ok`. -/
structure DriveResponse where
  ok : Bool := false
  httpStatus : Nat := 0
  body : Str := []
  error : GDriveError := {}
  /-- The Location header (a resumable session's URI). -/
  location : Str := []
  deriving DecidableEq

/-- Exceptions: a Drive error with the path it is reported for
(`ThrowGDriveError`), the other DuckDB exceptions by their text, and what a
token source throws. -/
inductive Exn
  | drive (error : GDriveError) (context : Str)
  | io (message : Str)
  | invalidInput (message : Str)
  | notImplemented (message : Str)
  | token (message : Str)
  deriving DecidableEq

inductive HttpMethod
  | get
  | post
  | patch
  | delete
  | put
  deriving DecidableEq

/-- May a request of this method be repeated after an ambiguous failure? -/
def isIdempotent (method : HttpMethod) : Bool := method = .get ∨ method = .delete

/-- A `q` expression: the children of a folder that are not trashed, of one
name, and folders only. -/
structure DriveQuery where
  parentId : Str
  name : Option Str := none
  requireFolder : Bool := false
  deriving DecidableEq

/-- The JSON metadata of a create or an update; members left out are `none`. -/
structure RequestMetadata where
  name : Option Str := none
  parent : Option Str := none
  mimeType : Option Str := none
  id : Option Str := none
  deriving DecidableEq

inductive DriveOp
  | filesGet (fileId : Str)
  | filesList (query : DriveQuery) (pageToken : Str)
  | filesMedia (fileId : Str) (first last : Int)
  | filesExport (fileId mimeType : Str)
  | generateIds
  | createFolder (metadata : RequestMetadata)
  | createMultipart (metadata : RequestMetadata) (contentType data : Str)
  | updateMultipart (fileId : Str) (metadata : RequestMetadata) (contentType data : Str)
  | startSession (fileId : Str) (metadata : RequestMetadata) (contentType : Str)
  | filesDelete (fileId : Str)
  | trash (fileId : Str)
  | move (fileId newParentId newName oldParentId : Str)
  deriving DecidableEq

def DriveOp.method : DriveOp → HttpMethod
  | .filesGet _ | .filesList _ _ | .filesMedia _ _ _ | .filesExport _ _ | .generateIds => .get
  | .createFolder _ | .createMultipart _ _ _ => .post
  | .updateMultipart _ _ _ _ | .trash _ | .move _ _ _ _ => .patch
  | .startSession fileId _ _ => if fileId.isEmpty then .post else .patch
  | .filesDelete _ => .delete

/-- What the transport does to the outside. -/
inductive WireReq
  | token
  | refresh (rejected : Str)
  | http (accessToken : Str) (op : DriveOp)
  /-- One PUT to a session; a status query carries no data. -/
  | session (path : Str) (range : ContentRange) (data : Str)
  | cancelSession (path : Str)
  | sleep (attempt : Nat) (retryAfterSeconds : Int)
  deriving DecidableEq

/-- Requests that do not concern Drive. -/
def WireReq.quiet : WireReq → Bool
  | .token | .refresh _ | .sleep _ _ => true
  | .http _ _ | .session _ _ _ | .cancelSession _ => false

abbrev Wire : Sig where
  Req := WireReq
  Ans
    | .token => Except Exn Str
    | .refresh _ => Except Exn Str
    | .http _ _ => RawResult
    | .session _ _ _ => RawResult
    | .cancelSession _ => Unit
    | .sleep _ _ => Unit

/-- A party whose state the requests that do not concern Drive leave alone. -/
def QuietRel {W : Type} (R : Rel Wire W) : Prop :=
  ∀ (w : W) (q : WireReq) (ans : Wire.Ans q) (w' : W), q.quiet = true → R w q ans w' → w' = w

theorem QuietRel.ask {W : Type} {R : Rel Wire W} (hR : QuietRel R) {I : W → Prop}
    (q : WireReq) (P : Wire.Ans q → W → Prop) {w : W} (hq : q.quiet = true) (hI : I w)
    (hP : ∀ ans, P ans w) : (Env.ofRel R I).ask q P w := by
  refine ⟨hI, ?_⟩
  intro ans w' hw
  rw [hR w q ans w' hq hw]
  exact hP ans

end GDrive
