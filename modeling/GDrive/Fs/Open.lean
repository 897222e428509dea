/-
`OpenFile` (gdrive_filesystem.cpp), for reading and for writing.

Opening for writing walks the folders of the path and makes the missing
ones; opening for reading resolves the path and refreshes what the path
cache gave. `Opener` is what both learn from their caller: the query and
the thread it runs on, the identity, the settings.
-/
import GDrive.Read.Reader

namespace GDrive

open Interaction

structure Settings where
  pathCacheEntries : Nat := 4096
  blockSizeBytes : Nat := 16 * 1024 * 1024
  blockCacheBytes : Nat := 256 * 1024 * 1024
  uploadChunkBytes : Nat := 16 * 1024 * 1024
  docsExportMime : Str := str "text/plain"
  immutablePrefixes : Str := []
  permanentDelete : Bool := false

structure Opener where
  thread : Nat := 0
  /-- The active query, 0 without a client context. -/
  query : Nat := 0
  hasSecret : Bool := true
  auth : AuthContext
  settings : Settings := {}

def Opener.key (o : Opener) (canonical : Str) : CacheKey := ⟨o.auth, canonical⟩

-- ================================================================== the errors

def badUriError (error : Str) : Exn := .io (str "gdrive: " ++ error)

def noSecretError (path : Str) : Exn :=
  .io (str "gdrive: no gdrive secret configured for " ++ quoted path
    ++ str " -- run CREATE SECRET (TYPE gdrive, ...) first.")

def namesNoFileError (path : Str) : Exn :=
  .io (str "gdrive: " ++ quoted path ++ str " does not name a file to write")

def fileInTheWayError (segment path : Str) : Exn :=
  .io (str "gdrive: cannot create directory " ++ quoted segment ++ str " under " ++ quoted path
    ++ str ": a file of that name already exists. Creating a folder beside it would leave two entries with one name, which Drive allows and which would make both unaddressable by path.")

def malformedFolderError (path : Str) : Exn :=
  .io (str "gdrive: malformed metadata response creating folder for " ++ quoted path)

def isDirectoryError (uri : Str) : Exn :=
  .io (str "gdrive: " ++ quoted uri ++ str " is a directory, not a file")

section Open

variable (pj : Picojson) (rounds : Nat)

/-- The URI of a path the caller has a secret for. -/
def checkedUri {σ : Type} (o : Opener) (path : Str) : Code Client Exn σ GDriveUri :=
  match parseGDriveUri path with
  | .error error => Code.throw (badUriError error)
  | .ok uri => if o.hasSecret then pure uri else Code.throw (noSecretError path)

-- ============================================================ the parent walk

/-- Make a folder that is not there, and remember it. -/
def makeFolder (o : Opener) (parentId canonical segment path : Str) :
    CacheCode (Str × Bool) := do
  let resp ← call (.upload [] parentId segment kFolderMimeType [] [])
  Code.when (!resp.ok) (Code.throw (.drive resp.error path))
  match parseFileMeta pj resp.body with
  | none => Code.throw (malformedFolderError path)
  | some created => do
      Code.modify (PathCache.put o.thread (o.key canonical) created)
      pure (created.id, true)

/-- A folder that was listed. -/
def adoptFolder (o : Opener) (canonical : Str) (folder : DriveFileMeta) :
    CacheCode (Str × Bool) := do
  Code.modify (PathCache.put o.thread (o.key canonical) folder)
  pure (folder.id, false)

/-- No folder of that name was listed. Before one is made, there must be no
file of that name either; another writer's new folder is adopted. -/
def makeFreeFolder (o : Opener) (parentId canonical segment path : Str) :
    CacheCode (Str × Bool) := do
  let anyKind ← listByName pj rounds parentId segment false path
  match (anyKind.filter (!·.isFolder)).getLast?, (anyKind.filter (·.isFolder)).getLast? with
  | some _, _ => Code.throw (fileInTheWayError segment path)
  | none, some folder => adoptFolder o canonical folder
  | none, none => makeFolder pj o parentId canonical segment path

/-- The folder of a segment that the path cache does not answer for. -/
def enterListed (o : Opener) (parentId canonical segment path : Str) :
    CacheCode (Str × Bool) := do
  let found ← listByName pj rounds parentId segment true path
  match found with
  | [] => makeFreeFolder pj rounds o parentId canonical segment path
  | [folder] => adoptFolder o canonical folder
  | _ => Code.throw (ambiguousError found path)

/-- One segment of the parent walk: the folder's id, and whether it is new.
Below a new folder there is nothing to look for. -/
def enterFolder (o : Opener) (parentIsNew : Bool) (parentId canonical segment path : Str) :
    CacheCode (Str × Bool) :=
  if parentIsNew then makeFolder pj o parentId canonical segment path
  else do
    let cached ← useCache (PathCache.tryGet o.thread (o.key canonical))
    match cached with
    | none => enterListed pj rounds o parentId canonical segment path
    | some (file, _) =>
        if file.isFolder then pure (file.id, false)
        else do
          -- It may have been replaced by a folder since.
          Code.modify (PathCache.invalidatePrefix (o.key canonical))
          enterListed pj rounds o parentId canonical segment path

def walkParents (o : Opener) (path : Str) :
    (parentIsNew : Bool) → (parentId canonical : Str) → List Str → CacheCode (Str × Bool)
  | parentIsNew, parentId, _, [] => pure (parentId, parentIsNew)
  | parentIsNew, parentId, canonical, segment :: rest => do
      let folder ← enterFolder pj rounds o parentIsNew parentId (extendPath canonical segment)
        segment path
      walkParents o path folder.2 folder.1 (extendPath canonical segment) rest

/-- What is already there under the name to write, in a folder that is not
new. -/
def probeLeaf (parentIsNew : Bool) (parentId name path : Str) : CacheCode (List DriveFileMeta) :=
  if parentIsNew then pure [] else listByName pj rounds parentId name false path

/-- `OpenFile` for writing. The one file of that name is overwritten. -/
def openFileForWriting (o : Opener) (path : Str) : CacheCode WriteHandle := do
  let uri ← checkedUri o path
  match uri with
  | .fileId id => pure (openForWriting path { id } [] [] o.settings.uploadChunkBytes)
  | .path segments =>
      let name := uri.fileName
      if name.isEmpty then Code.throw (namesNoFileError path)
      else do
        let parent ← walkParents pj rounds o path false (rootFolderFor o.auth) []
          segments.dropLast
        let existing ← probeLeaf pj rounds parent.2 parent.1 name path
        match existing with
        | [] => pure (openForWriting path { name } parent.1 name o.settings.uploadChunkBytes)
        | [file] =>
            pure (openForWriting path { id := file.id, name } parent.1 name
              o.settings.uploadChunkBytes)
        | _ => Code.throw (ambiguousError existing path)

-- =============================================================== the read path

def beginQuery (o : Opener) : CacheCode Unit := do
  Code.modify (PathCache.beginQuery o.thread o.query)
  Code.modify (PathCache.setMaxEntries o.settings.pathCacheEntries)

/-- The metadata of a leaf that may be old. Only a 404 is the file's
absence; any other failure falls back to what was found. -/
def refreshLeaf (o : Opener) (file : DriveFileMeta) : CacheCode (Option DriveFileMeta) :=
  getOrFetchMetadata o.auth file.id do
    let resp ← call (.getMetadata file.id)
    if resp.ok then pure (some ((parseFileMeta pj resp.body).getD file))
    else if resp.error.kind = .notFound then pure none
    else pure (some file)

/-- The refresh of a path's leaf. A dead id is dropped, and the path resolved
once more. -/
def currentLeaf (o : Opener) (uri : GDriveUri) (file : DriveFileMeta) :
    CacheCode (Option DriveFileMeta) := do
  let refreshed ← refreshLeaf pj o file
  match refreshed with
  | some current => pure (some current)
  | none => do
      Code.modify (PathCache.invalidatePrefix (o.key (canonicalPathOf uri)))
      let found ← tryResolvePath pj rounds o.thread o.auth uri
      pure (found.map (·.1))

/-- Is the resolved leaf as good as a refreshed one? The id: form has just
been looked up; a path's leaf may have been listed by this query, or be
declared immutable. -/
def skipsRefresh (o : Opener) (path : Str) (uri : GDriveUri) (leafIsFresh : Bool) : Bool :=
  match uri with
  | .fileId _ => true
  | .path _ => leafIsFresh || pathMatchesAnyPrefix path o.settings.immutablePrefixes

/-- The cached part of `OpenFile` for reading: the file to open, or nothing
where there is none. -/
def resolveForReading (o : Opener) (path : Str) (uri : GDriveUri) :
    CacheCode (Option DriveFileMeta) := do
  beginQuery o
  let found ← tryResolvePath pj rounds o.thread o.auth uri
  match found with
  | none => pure none
  | some (file, leafIsFresh) =>
      if file.isFolder then Code.throw (isDirectoryError uri.toString)
      else if skipsRefresh o path uri leafIsFresh then pure (some file)
      else currentLeaf pj rounds o uri file

def kSheetMimeType : Str := str "application/vnd.google-apps.spreadsheet"

def kDocMimeType : Str := str "application/vnd.google-apps.document"

def exportMimeTypeFor (file : DriveFileMeta) (docsExportMime : Str) : Str :=
  if file.mimeType = kSheetMimeType then str "text/csv"
  else if file.mimeType = kDocMimeType ∧ docsExportMime = str "text/markdown" then
    str "text/markdown"
  else str "text/plain"

abbrev FsCode (α : Type) := Code Client Exn Fs α

def Fs.onCache {α : Type} (c : CacheCode α) : FsCode α :=
  Code.zoom Fs.cache (fun cache fs => { fs with cache }) c

def newReadHandle (o : Opener) (path : Str) (file : DriveFileMeta) : ReadHandle where
  path := path
  file := file
  auth := o.auth
  blockSize := o.settings.blockSizeBytes
  blockKey := buildBlockKey o.auth file

/-- A native Google format has no bytes: it is exported whole, and its size
is the export's. -/
def withExport (o : Opener) (h : ReadHandle) : FsCode ReadHandle := do
  let resp ← call (.export h.file.id (exportMimeTypeFor h.file o.settings.docsExportMime))
  Code.when (!resp.ok) (Code.throw (.drive resp.error h.path))
  pure { h with
    isExport := true
    exportBuffer := resp.body
    file := { h.file with size := resp.body.length } }

/-- `OpenFile` for reading. Where the caller asked for null, a missing file
is no error. -/
def openFileForReading (o : Opener) (path : Str) (nullIfNotExists : Bool) :
    FsCode (Option ReadHandle) := do
  let uri ← checkedUri o path
  let found ← Fs.onCache (resolveForReading pj rounds o path uri)
  match found with
  | none => if nullIfNotExists then pure none else Code.throw (notFoundError uri.toString)
  | some file => do
      Code.modify fun fs =>
        { fs with blocks := fs.blocks.setCapacity o.settings.blockCacheBytes }
      let h := newReadHandle o path file
      if file.isNativeGoogleFormat then do
        let exported ← withExport o h
        pure (some exported)
      else pure (some h)

end Open

end GDrive
