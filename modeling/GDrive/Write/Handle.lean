/-
The write handle (gdrive_file_handle.cpp, gdrive_upload.cpp, and `Write`
of gdrive_filesystem.cpp), over the client's calls.

`WriteHandle` is what the code keeps between calls. The operations are
`Code` over it: an exception leaves the handle as it stood when it was
thrown, which is what the next operation, and the destructor, find.
-/
import GDrive.Client.Client
import GDrive.Fs.Uri
import GDrive.Interaction.History

namespace GDrive

open Interaction

-- ================================================================ the handle

/-- A `GDriveFileHandleImpl` opened for writing. -/
structure WriteHandle where
  path : Str
  /-- `meta`: before the publish, the id of the file to overwrite or none. -/
  file : DriveFileMeta
  position : Nat := 0
  isWrite : Bool := true
  writeParentId : Str
  writeName : Str
  writeFailed : Bool := false
  upload : Option ChunkedUploadBuffer
  /-- The resumable session's URI, empty when none is open. -/
  uploadSession : Str := []

/-- Code of the write path. -/
abbrev WriteCode (α : Type) := Code Client Exn WriteHandle α

/-- One client call; an exception it throws is the caller's. -/
def call {σ : Type} (q : CallReq) : Code Client Exn σ DriveResponse := Code.lift (Prog.req q)

@[simp] theorem wp_call {σ W : Type} {E : Env Client W} {s : σ} {w : W} (q : CallReq)
    (Q : Except Exn DriveResponse → σ → W → Prop) :
    Code.wp E (call q) Q s w ↔ E.ask q (fun r w' => Q r s w') w := by
  unfold call
  rw [Code.wp_lift]
  exact Iff.rfl

-- ================================================================== the errors

/-- Everything before the last slash, when that is a folder of the path. -/
def parentPathOf (path : Str) : Str :=
  let parent := (path.reverse.dropWhile (· != 47)).drop 1 |>.reverse
  if parent.length < kGDriveScheme.length then [] else parent

/-- What a failed upload call throws: a 404 that names the parent folder is
the folder going away. -/
def uploadError (error : GDriveError) (h : WriteHandle) : Exn :=
  if error.kind = .notFound ∧ h.writeParentId ≠ [] ∧
      containsText error.message h.writeParentId then
    let folder := parentPathOf h.path
    .io (str "gdrive: cannot write " ++ quoted h.path ++ str ": the destination folder "
      ++ (if folder.isEmpty then [] else quoted folder ++ str " ")
      ++ str "no longer exists (folder id " ++ h.writeParentId
      ++ str "; it was deleted or moved during the upload). Nothing was written: the file was never published.")
  else .drive error h.path

def throwUploadError (error : GDriveError) : WriteCode Unit := do
  let h ← Code.get
  Code.throw (uploadError error h)

-- =============================================================== the operations

def octetStream : Str := str "application/octet-stream"

/-- The first part of `SendUploadChunk`: open a session if none is open. -/
def openSession : WriteCode Unit := do
  let h ← Code.get
  Code.when h.uploadSession.isEmpty do
    let start ← call
      (.startResumableUpload h.file.id h.writeParentId h.writeName octetStream)
    Code.when (!start.ok) (throwUploadError start.error)
    Code.modify fun h => { h with uploadSession := start.location }

/-- Send the full pending chunk as a non-final one. -/
def sendUploadChunk (buf : ChunkedUploadBuffer) : WriteCode Unit := do
  openSession
  let h ← Code.get
  let resp ← call (.uploadChunk h.uploadSession buf false)
  Code.when (!resp.ok) (throwUploadError resp.error)
  Code.modify fun h => { h with upload := some buf.markChunkSent }

/-- Cancel the open session, if there is one. Never throws. -/
def abortUpload : WriteCode Unit := do
  let h ← Code.get
  Code.when (!h.uploadSession.isEmpty) do
    Code.modify fun h => { h with uploadSession := [] }
    Code.tryCatch (do let _ ← call (.cancelUpload h.uploadSession)) fun _ => pure ()

/-- A create reserves its id, which makes it safe to repeat; where that
fails it goes ahead without one. -/
def reserveId (pj : Picojson) : WriteCode Str := do
  let h ← Code.get
  if h.file.id.isEmpty then
    let idResp ← call .generateFileId
    pure (if idResp.ok then (parseGeneratedFileId pj idResp.body).getD [] else [])
  else pure []

/-- Publish by the last chunk of the open session. -/
def publishFinalChunk (buf : ChunkedUploadBuffer) : WriteCode DriveResponse := do
  let h ← Code.get
  let resp ← call (.uploadChunk h.uploadSession buf true)
  Code.when (!resp.ok) (throwUploadError resp.error)
  Code.modify fun h => { h with uploadSession := [] } -- consumed
  pure resp

/-- Publish the whole file by one request. -/
def publishSingleRequest (pj : Picojson) (buf : ChunkedUploadBuffer) :
    WriteCode DriveResponse := do
  let reservedId ← reserveId pj
  let h ← Code.get
  let resp ← call
    (.upload h.file.id h.writeParentId h.writeName octetStream buf.pending reservedId)
  Code.when (!resp.ok) (throwUploadError resp.error)
  pure resp

def publish (pj : Picojson) (buf : ChunkedUploadBuffer) : WriteCode DriveResponse :=
  match buf.onClose with
  | .finalChunk => publishFinalChunk buf
  | .singleRequest => publishSingleRequest pj buf

def uploadHandleContents (pj : Picojson) : WriteCode Unit := do
  let h ← Code.get
  match h.writeFailed, h.upload with
  | false, some buf =>
      let resp ← publish pj buf
      match parseFileMeta pj resp.body with
      | some uploaded => Code.modify fun h => { h with file := uploaded }
      | none => pure ()
  | _, _ => pure ()

/-- A broken stream: nothing of it may be published any more. -/
def failWrite : WriteCode Unit := do
  Code.modify fun h => { h with writeFailed := true }
  abortUpload

/-- A full chunk goes up only once more bytes arrive. -/
def makeRoom : WriteCode Unit := do
  let h ← Code.get
  match h.upload with
  | none => pure ()
  | some buf => Code.when buf.full (sendUploadChunk buf)

/-- `buf.Fill(data, left)`: what is left of the data after it. -/
def fillBuffer (data : Str) : WriteCode Str := do
  let h ← Code.get
  match h.upload with
  | none => pure data
  | some buf => do
      Code.modify fun h => { h with upload := some (buf.fill data) }
      pure (data.drop (buf.room data.length))

/-- The loop of `Write`. Every round takes at least one byte, so the length
of the data bounds the rounds. -/
def writeLoop : Nat → Str → WriteCode Unit
  | _, [] => pure ()
  | 0, _ :: _ => Code.cut
  | rounds + 1, c :: data => do
      makeRoom
      let rest ← fillBuffer (c :: data)
      writeLoop rounds rest

/-- `GDriveFileSystem::Write`, the sequential overload. -/
def write (data : Str) : WriteCode Unit := do
  let h ← Code.get
  if h.isWrite = false ∨ h.upload.isNone then
    Code.throw (.io (str "gdrive: handle for " ++ quoted h.path
      ++ str " was not opened for writing"))
  else if h.writeFailed then
    Code.throw (.io (str "gdrive: a previous write to " ++ quoted h.path
      ++ str " already failed; this handle can only be closed"))
  else
    Code.onError (writeLoop data.length data) failWrite
    Code.modify fun h => { h with position := h.position + data.length }

/-- `GDriveFileHandle::Close`. -/
def close (pj : Picojson) : WriteCode Unit := do
  let h ← Code.get
  Code.when h.isWrite do
    Code.modify fun h => { h with isWrite := false } -- not to publish twice
    if h.writeFailed then abortUpload
    else
      Code.onError (uploadHandleContents pj) failWrite
      Code.modify fun h => { h with upload := none }

/-- `GDriveFileHandle::CancelWrite`. -/
def cancelWrite : WriteCode Unit := do
  let h ← Code.get
  Code.when h.isWrite do
    Code.modify fun h => { h with isWrite := false, writeFailed := true }
    abortUpload
    Code.modify fun h => { h with upload := none }

-- ============================================================ its whole life

/-- What can be done to a handle from outside. -/
inductive HandleOp
  | write (data : Str)
  | close
  | cancelWrite
  | destroy

/-- An operation on a handle that still exists. -/
def onHandle (c : WriteCode Unit) : Code Client Exn (Option WriteHandle) Unit :=
  fun s =>
    match s with
    | some h => (c h).bind fun r => .ret (r.1, some r.2)
    | none => .ret (.ok (), none)

theorem wp_onHandle {W : Type} {E : Env Client W} {c : WriteCode Unit} {h : WriteHandle} {w : W}
    (Q : Except Exn Unit → Option WriteHandle → W → Prop) :
    Code.wp E (onHandle c) Q (some h) w ↔ Code.wp E c (fun r h' => Q r (some h')) h w := by
  unfold Code.wp onHandle
  rw [Env.wp_bind]
  exact Iff.rfl

/-- The destructor cancels what is left open; the handle is gone then, and
takes no more operations. -/
def destroyHandle : Code Client Exn (Option WriteHandle) Unit := do
  onHandle abortUpload
  Code.set none

def handleOp (pj : Picojson) : HandleOp → Code Client Exn (Option WriteHandle) Unit
  | .write data => onHandle (write data)
  | .close => onHandle (close pj)
  | .cancelWrite => onHandle cancelWrite
  | .destroy => destroyHandle

/-- The handle `OpenFile` returns for writing: the chunk size is a setting,
the file's id is empty for a create. -/
def openForWriting (path : Str) (placeholder : DriveFileMeta) (parentId name : Str)
    (chunkBytes : Nat) : WriteHandle where
  path := path
  file := placeholder
  writeParentId := parentId
  writeName := name
  upload := some (.new chunkBytes)

end GDrive
