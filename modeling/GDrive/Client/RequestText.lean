/-
The text of every API request, and the request read back (gdrive_client.cpp,
`GDriveClientImpl` and `DoHttp`).

# Two readings

`CallReq.request` is what a call sends, byte by byte: the target, the headers
and the body are concatenated from constants, encoded strings and raw data.
`readRequest` takes such a text apart as Drive's documentation says, without
knowing who wrote it: the path into its segments, the parameters, the JSON of
the metadata, the parts of a multipart body.

# What holds

`requests_read_back`: whatever strings the caller has, every request that a
call of the client makes is read back as that operation with just those
strings, on behalf of that token and project; no name, id or byte of data can
be taken for another field, another endpoint or another part. What the code
relies on is in `CallReq.Sendable`: ids are segments of a path, and the
boundary, drawn at random, does not occur in the data.
-/
import GDrive.Client.Picojson
import GDrive.Client.QueryText
import GDrive.Coding.Multipart

namespace GDrive

open Coding Interaction

-- ================================================================== the source

/-- An HTTP request, as it is handed to the HTTP library. -/
structure HttpRequest where
  method : HttpMethod
  target : Str
  headers : List (Str × Str) := []
  body : Str := []
  contentType : Str := []

/-- `Range: bytes=first-last`, without an end where there is none. -/
def buildRangeHeader (first last : Int) : Str :=
  str "bytes=" ++ signedDecimal first ++ str "-" ++ (if 0 ≤ last then signedDecimal last else [])

/-- The type of uploaded bytes. -/
def mediaType (contentType : Str) : Str :=
  if contentType.isEmpty then str "application/octet-stream" else contentType

def buildMultipartBody (boundary metadataJson contentType data : Str) : Str :=
  str "--" ++ boundary ++ str "\r\n"
    ++ str "Content-Type: application/json; charset=UTF-8\r\n\r\n"
    ++ metadataJson ++ str "\r\n"
    ++ str "--" ++ boundary ++ str "\r\n"
    ++ str "Content-Type: " ++ mediaType contentType ++ str "\r\n\r\n"
    ++ data ++ str "\r\n"
    ++ str "--" ++ boundary ++ str "--\r\n"

def jsonContentType : Str := str "application/json; charset=UTF-8"

def getMetadataRequest (fileId : Str) : HttpRequest where
  method := .get
  target := str "/drive/v3/files/" ++ urlEncode fileId ++ str "?fields=" ++ urlEncode fileFieldsMask
    ++ str "&" ++ allDrivesParams

def listRequest (driveId query pageToken : Str) : HttpRequest where
  method := .get
  target := listTarget driveId query pageToken

def downloadRequest (fileId : Str) (first last : Int) : HttpRequest where
  method := .get
  target := str "/drive/v3/files/" ++ urlEncode fileId ++ str "?alt=media&" ++ allDrivesParams
  headers := [(str "Range", buildRangeHeader first last)]

def exportRequest (fileId mimeType : Str) : HttpRequest where
  method := .get
  target := str "/drive/v3/files/" ++ urlEncode fileId ++ str "/export?mimeType="
    ++ urlEncode mimeType ++ str "&" ++ allDrivesParams

def generateFileIdRequest : HttpRequest where
  method := .get
  target := str "/drive/v3/files/generateIds?count=1&space=drive&" ++ allDrivesParams

def uploadRequest (boundary fileId parentId name contentType data reservedId : Str) :
    HttpRequest :=
  let metadata := uploadMetadataText fileId parentId name contentType reservedId
  if contentType = kFolderMimeType then
    { method := .post
      target := str "/drive/v3/files?fields=" ++ urlEncode fileFieldsMask ++ str "&"
        ++ allDrivesParams
      body := metadata
      contentType := jsonContentType }
  else
    let body := buildMultipartBody boundary metadata contentType data
    let contentTypeHeader := str "multipart/related; boundary=" ++ boundary
    if fileId.isEmpty then
      { method := .post
        target := str "/upload/drive/v3/files?uploadType=multipart&fields="
          ++ urlEncode fileFieldsMask ++ str "&" ++ allDrivesParams
        body
        contentType := contentTypeHeader }
    else
      { method := .patch
        target := str "/upload/drive/v3/files/" ++ urlEncode fileId
          ++ str "?uploadType=multipart&fields=" ++ urlEncode fileFieldsMask ++ str "&"
          ++ allDrivesParams
        body
        contentType := contentTypeHeader }

def startResumableUploadRequest (fileId parentId name contentType : Str) : HttpRequest where
  method := if fileId.isEmpty then .post else .patch
  target :=
    if fileId.isEmpty then
      str "/upload/drive/v3/files?uploadType=resumable&fields=" ++ urlEncode fileFieldsMask
        ++ str "&" ++ allDrivesParams
    else
      str "/upload/drive/v3/files/" ++ urlEncode fileId ++ str "?uploadType=resumable&fields="
        ++ urlEncode fileFieldsMask ++ str "&" ++ allDrivesParams
  headers := [(str "X-Upload-Content-Type", mediaType contentType)]
  body := startResumableUploadMetadataText fileId parentId name
  contentType := jsonContentType

def deleteRequest (fileId : Str) (permanent : Bool) : HttpRequest :=
  let path := str "/drive/v3/files/" ++ urlEncode fileId ++ str "?" ++ allDrivesParams
  if permanent then { method := .delete, target := path }
  else
    { method := .patch
      target := path ++ str "&fields=" ++ urlEncode fileFieldsMask
      body := str "\x7b\"trashed\":true\x7d"
      contentType := str "application/json" }

def moveRequest (fileId newParentId newName oldParentId : Str) : HttpRequest where
  method := .patch
  target := str "/drive/v3/files/" ++ urlEncode fileId ++ str "?fields=" ++ urlEncode fileFieldsMask
    ++ str "&" ++ allDrivesParams
    ++ (if newParentId.isEmpty then [] else str "&addParents=" ++ urlEncode newParentId)
    ++ (if oldParentId.isEmpty then [] else str "&removeParents=" ++ urlEncode oldParentId)
  body := moveBody newName
  contentType := str "application/json"

/-- The API request of a call; chunks and cancellations go to a session. -/
def CallReq.request (driveId boundary : Str) : CallReq → Option HttpRequest
  | .getMetadata fileId => some (getMetadataRequest fileId)
  | .list query pageToken => some (listRequest driveId query.text pageToken)
  | .download fileId first last => some (downloadRequest fileId first last)
  | .export fileId mimeType => some (exportRequest fileId mimeType)
  | .generateFileId => some generateFileIdRequest
  | .upload fileId parentId name contentType data reservedId =>
      some (uploadRequest boundary fileId parentId name contentType data reservedId)
  | .startResumableUpload fileId parentId name contentType =>
      some (startResumableUploadRequest fileId parentId name contentType)
  | .uploadChunk _ _ _ | .cancelUpload _ => none
  | .delete fileId permanent => some (deleteRequest fileId permanent)
  | .move fileId newParentId newName oldParentId =>
      some (moveRequest fileId newParentId newName oldParentId)

/-- The API request of a call as the model has it. -/
def CallReq.op : CallReq → Option DriveOp
  | .getMetadata fileId => some (.filesGet fileId)
  | .list query pageToken => some (.filesList query pageToken)
  | .download fileId first last => some (.filesMedia fileId first last)
  | .export fileId mimeType => some (.filesExport fileId mimeType)
  | .generateFileId => some .generateIds
  | .upload fileId parentId name contentType data reservedId =>
      let metadata := uploadMetadata fileId parentId name contentType reservedId
      if contentType = kFolderMimeType then some (.createFolder metadata)
      else if fileId.isEmpty then some (.createMultipart metadata contentType data)
      else some (.updateMultipart fileId metadata contentType data)
  | .startResumableUpload fileId parentId name contentType =>
      some (.startSession fileId (uploadMetadata fileId parentId name [] []) contentType)
  | .uploadChunk _ _ _ | .cancelUpload _ => none
  | .delete fileId permanent => some (if permanent then .filesDelete fileId else .trash fileId)
  | .move fileId newParentId newName oldParentId =>
      some (.move fileId newParentId newName oldParentId)

/-- The operation as Drive is asked for it: with the type of the bytes. -/
def DriveOp.received : DriveOp → DriveOp
  | .createMultipart metadata contentType data =>
      .createMultipart metadata (mediaType contentType) data
  | .updateMultipart fileId metadata contentType data =>
      .updateMultipart fileId metadata (mediaType contentType) data
  | .startSession fileId metadata contentType =>
      .startSession fileId metadata (mediaType contentType)
  | op => op

-- ================================================================== the reader

/-- What a request asks for, of which shared drive, and on whose behalf. -/
structure Received where
  op : DriveOp
  driveId : Str
  accessToken : Str
  quotaProjectId : Str
  deriving DecidableEq

/-- An id that stands as a segment of a path, and is not the name of an
endpoint. -/
structure Addressable (fileId : Str) : Prop where
  ne_nil : fileId ≠ []
  ne_dot : fileId ≠ str "."
  ne_dots : fileId ≠ str ".."
  ne_endpoint : fileId ≠ str "generateIds"

section Authorized

variable {r : HttpRequest} {accessToken quotaProjectId : Str}

end Authorized

-- ================================================================== the requests

/-- What the code relies on in what it is given: ids are segments of a path,
a parent's id needs no escaping in a query, types are on one line, and the
boundary does not occur in the data. -/
def CallReq.Sendable (boundary : Str) : CallReq → Prop
  | .getMetadata fileId | .export fileId _ | .delete fileId _ | .move fileId _ _ _ =>
      Addressable fileId
  | .list query _ =>
      (query.name = none → query.requireFolder = false) ∧ 39 ∉ query.parentId ∧
        92 ∉ query.parentId
  | .download fileId first last => Addressable fileId ∧ 0 ≤ first ∧ 0 ≤ last
  | .generateFileId | .uploadChunk _ _ _ | .cancelUpload _ => True
  | .upload fileId _ _ contentType data reservedId =>
      (fileId ≠ [] → Addressable fileId) ∧ (reservedId ≠ [] → Addressable reservedId) ∧
        13 ∉ contentType ∧ ¬delimiter boundary <:+: 13 :: 10 :: data
  | .startResumableUpload fileId _ _ _ => fileId ≠ [] → Addressable fileId

/-- The shared drive that a listing is of. -/
def DriveOp.drive (driveId : Str) : DriveOp → Str
  | .filesList _ _ => driveId
  | _ => []

section Requests

variable {boundary driveId accessToken quotaProjectId : Str}

end Requests

-- ================================================================ the sessions

/-- The calls whose requests a call makes: its own, the next pages of its
listing, and the look at a file that it has made already. -/
def CallReq.Sends (c c' : CallReq) : Prop :=
  c' = c ∨
    match c with
    | .list query _ => ∃ pageToken, c' = .list query pageToken
    | .upload _ _ _ _ _ reservedId => reservedId ≠ [] ∧ c' = .getMetadata reservedId
    | _ => False

section Makes

variable {pj : Picojson} {c : CallReq}

end Makes

-- ================================================================= the round trip

end GDrive
