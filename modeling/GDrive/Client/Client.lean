/-
`GDriveClient`: the calls the file system makes, and `GDriveClientImpl`'s
implementation of each over the wire.

`Client` is the interface as a signature; `client` handles it by the
programs of this file, so a file-system operation over `Client` becomes a
program over `Wire` by `Prog.handle`.
-/
import GDrive.Client.Session

namespace GDrive

open Interaction

inductive CallReq
  | getMetadata (fileId : Str)
  | list (query : DriveQuery) (pageToken : Str)
  | download (fileId : Str) (first last : Int)
  | export (fileId mimeType : Str)
  | generateFileId
  | upload (fileId parentId name contentType data reservedId : Str)
  | startResumableUpload (fileId parentId name contentType : Str)
  | uploadChunk (sessionUri : Str) (buf : ChunkedUploadBuffer) (final : Bool)
  /-- Returns nothing; its response is a placeholder. -/
  | cancelUpload (sessionUri : Str)
  | delete (fileId : Str) (permanent : Bool)
  | move (fileId newParentId newName oldParentId : Str)

abbrev Client : Sig := ⟨CallReq, fun _ => Except Exn DriveResponse⟩

section Calls

variable (pj : Picojson) (depth : Nat)

def getMetadata (fileId : Str) : Prog Wire (Except Exn DriveResponse) :=
  executeWithRetry pj (.filesGet fileId) [200] false depth

/-- Follow `nextPageToken` to the end, `rounds` pages of it: a caller never
sees a partial listing. -/
def listPages (query : DriveQuery) :
    Nat → Str → List DriveFileMeta → Prog Wire (Except Exn DriveResponse)
  | 0, _, _ => .cut
  | rounds + 1, token, allFiles =>
      (executeWithRetry pj (.filesList query token) [200] false depth).bind fun r =>
        match r with
        | .error e => .ret (.error e)
        | .ok last =>
            if !last.ok then .ret (.ok last)
            else
              match parseFileList pj last.body with
              | none =>
                  .ret (.ok
                    { httpStatus := last.httpStatus
                      error :=
                        { kind := .unknown
                          message := str "malformed files.list response body" } })
              | some (pageFiles, nextToken) =>
                  if nextToken.isEmpty then
                    .ret (.ok
                      { ok := true
                        httpStatus := 200
                        body := serializeFileList pj (allFiles ++ pageFiles) })
                  else listPages query rounds nextToken (allFiles ++ pageFiles)

def nonEmpty (s : Str) : Option Str := if s.isEmpty then none else some s

/-- The metadata part of an upload. Parents and a reserved id are only set
on a create; the MIME type only for a folder. -/
def uploadMetadata (fileId parentId name contentType reservedId : Str) : RequestMetadata where
  name := nonEmpty name
  parent := if fileId.isEmpty then nonEmpty parentId else none
  mimeType := if contentType = kFolderMimeType then some contentType else none
  id := if fileId.isEmpty then nonEmpty reservedId else none

/-- A duplicate of a create with a reserved id is the earlier attempt's
success. -/
def recognizeOwnCreate (reservedId : Str) :
    Except Exn DriveResponse → Prog Wire (Except Exn DriveResponse)
  | .error e => .ret (.error e)
  | .ok resp =>
      if !resp.ok ∧ resp.httpStatus = 409 then getMetadata pj depth reservedId
      else .ret (.ok resp)

def upload (fileId parentId name contentType data reservedId : Str) :
    Prog Wire (Except Exn DriveResponse) :=
  let metadata := uploadMetadata fileId parentId name contentType reservedId
  if contentType = kFolderMimeType then
    -- A folder has no bytes: plain JSON, never multipart.
    executeWithRetry pj (.createFolder metadata) [200] false depth
  else if fileId.isEmpty then
    if reservedId.isEmpty then
      executeWithRetry pj (.createMultipart metadata contentType data) [200] false depth
    else
      (executeWithRetry pj (.createMultipart metadata contentType data) [200] true depth).bind
        (recognizeOwnCreate pj depth reservedId)
  else executeWithRetry pj (.updateMultipart fileId metadata contentType data) [200] false depth

/-- A session's URI is checked before anybody stores it. -/
def checkSessionUri (resp : DriveResponse) : DriveResponse :=
  if resp.ok ∧ driveSessionPath resp.location = none then
    { resp with
      ok := false
      error :=
        { resp.error with
          kind := .unknown
          message := str "Drive returned no usable resumable-session URI (expected an https Location on www.googleapis.com)" } }
  else resp

def startResumableUpload (fileId parentId name contentType : Str) :
    Prog Wire (Except Exn DriveResponse) :=
  let metadata : RequestMetadata :=
    { name := nonEmpty name
      parent := if fileId.isEmpty then nonEmpty parentId else none }
  (executeWithRetry pj (.startSession fileId metadata contentType) [200] true depth).bind
    fun r => .ret (r.map checkSessionUri)

def cancelUpload (sessionUri : Str) : Prog Wire (Except Exn DriveResponse) :=
  match driveSessionPath sessionUri with
  | none => .ret (.ok {})
  | some path => .ask (.cancelSession path) fun _ => .ret (.ok {})

/-- `GDriveClientImpl`. -/
def client : CallReq → Prog Wire (Except Exn DriveResponse)
  | .getMetadata fileId => getMetadata pj depth fileId
  | .list query pageToken => listPages pj depth query depth pageToken []
  | .download fileId first last =>
      executeWithRetry pj (.filesMedia fileId first last) [200, 206] false depth
  | .export fileId mimeType =>
      executeWithRetry pj (.filesExport fileId mimeType) [200] false depth
  | .generateFileId => executeWithRetry pj .generateIds [200] false depth
  | .upload fileId parentId name contentType data reservedId =>
      upload pj depth fileId parentId name contentType data reservedId
  | .startResumableUpload fileId parentId name contentType =>
      startResumableUpload pj depth fileId parentId name contentType
  | .uploadChunk sessionUri buf final =>
      (uploadChunk pj buf final depth sessionUri).bind fun resp => .ret (.ok resp)
  | .cancelUpload sessionUri => cancelUpload sessionUri
  | .delete fileId permanent =>
      if permanent then executeWithRetry pj (.filesDelete fileId) [204] false depth
      else executeWithRetry pj (.trash fileId) [200] false depth
  | .move fileId newParentId newName oldParentId =>
      executeWithRetry pj (.move fileId newParentId newName oldParentId) [200] false depth

end Calls

/-- A successful initiation returns a URI that chunks will be sent to. -/
theorem driveSessionPath_checkSessionUri {resp : DriveResponse}
    (h : (checkSessionUri resp).ok = true) :
    driveSessionPath (checkSessionUri resp).location ≠ none := by
  unfold checkSessionUri at h ⊢
  split at h
  · cases h
  · rename_i hc
    rw [if_neg hc]
    intro hnone
    exact hc ⟨h, hnone⟩

/-- What every answer of the client keeps to: `startResumableUpload`
succeeds only with a usable URI. -/
def ClientContract (q : CallReq) (r : Except Exn DriveResponse) : Prop :=
  match q with
  | .startResumableUpload _ _ _ _ =>
      ∀ resp, r = .ok resp → resp.ok = true → driveSessionPath resp.location ≠ none
  | _ => True

/-- The client keeps its contract, whatever the wire answers. -/
theorem client_contract (pj : Picojson) (depth : Nat) (q : CallReq) {W : Type}
    {R : Rel Wire W} {w w' : W} {r : Except Exn DriveResponse}
    (h : Reaches R (client pj depth q) w (.ret r) w') : ClientContract q r := by
  cases q with
  | startResumableUpload fileId parentId name contentType =>
      intro resp hr hok
      have hwp : (Env.ofRel R fun _ => True).wp
          (startResumableUpload pj depth fileId parentId name contentType)
          (fun r _ => ∃ r', r = Except.map checkSessionUri r') w := by
        unfold startResumableUpload
        rw [Env.wp_bind]
        exact Env.wp_mono (Env.wp_true R _ w) fun r' w' _ => ⟨r', rfl⟩
      obtain ⟨r', hr'⟩ := Env.wp_returns hwp h
      rw [hr] at hr'
      cases r' with
      | error e => cases hr'
      | ok resp' =>
          cases hr'
          exact driveSessionPath_checkSessionUri hok
  | _ => trivial

end GDrive
