/-
Path resolution (gdrive_filesystem.cpp): listings, `TryResolvePath`, and
its error texts.

Drive has no paths, so a path is resolved segment by segment, each from the
path cache or by one listing. `rounds` bounds the pages of a listing that
are followed.
-/
import GDrive.Fs.PathCache

namespace GDrive

open Interaction

/-- The folder paths start from. -/
def rootFolderFor (auth : AuthContext) : Str :=
  if !auth.rootFolderId.isEmpty then auth.rootFolderId
  else if !auth.driveId.isEmpty then auth.driveId
  else str "root"

/-- The ids of ambiguous matches, as messages list them. -/
def joinIds (files : List DriveFileMeta) : Str := (str ", ").intercalate (files.map (·.id))

def ambiguousError (files : List DriveFileMeta) (contextPath : Str) : Exn :=
  .io (str "gdrive: " ++ quoted contextPath ++ str " is ambiguous: " ++ decimal files.length
    ++ str " files share that name in the same folder (ids: " ++ joinIds files
    ++ str "). Use the gdrive://id:<fileId> form to address one of them directly.")

def notFoundError (uri : Str) : Exn :=
  .io (str "gdrive: no such file or directory: " ++ quoted uri)

section Resolve

variable (pj : Picojson) (rounds : Nat) {σ : Type}

-- ================================================================ listings

/-- A listing, its pages followed to the end: never a part of it. -/
def listAll (query : DriveQuery) (contextPath malformed : Str) :
    Nat → Str → List DriveFileMeta → Code Client Exn σ (List DriveFileMeta)
  | 0, _, _ => Code.cut
  | rounds + 1, pageToken, matches_ => do
      let resp ← call (.list query pageToken)
      Code.when (!resp.ok) (Code.throw (.drive resp.error contextPath))
      match parseFileList pj resp.body with
      | none => Code.throw (.io (malformed ++ quoted contextPath))
      | some (page, next) =>
          if next.isEmpty then pure (matches_ ++ page)
          else listAll query contextPath malformed rounds next (matches_ ++ page)

/-- The children of one name, folders only where that is asked for. -/
def listByName (parentId name : Str) (requireFolder : Bool) (contextPath : Str) :
    Code Client Exn σ (List DriveFileMeta) :=
  listAll pj { parentId, name := some name, requireFolder } contextPath
    (str "gdrive: malformed listing response resolving ") rounds [] []

def listChildren (parentId contextPath : Str) : Code Client Exn σ (List DriveFileMeta) :=
  listAll pj { parentId } contextPath (str "gdrive: malformed listing response for ") rounds [] []

-- ============================================================== resolution

/-- One file's metadata: nothing when there is no such file. -/
def fetchMetadata (fileId contextPath : Str) : Code Client Exn σ (Option DriveFileMeta) := do
  let resp ← call (.getMetadata fileId)
  if !resp.ok then
    if resp.error.kind = .notFound then pure none
    else Code.throw (.drive resp.error contextPath)
  else
    match parseFileMeta pj resp.body with
    | none =>
        Code.throw (.io (str "gdrive: malformed metadata response for " ++ quoted contextPath))
    | some file => pure (some file)

variable (thread : Nat) (auth : AuthContext)

/-- One segment below `parentId`, at the path `canonical`: the file and
whether this query has listed it. -/
def resolveSegment (isLast : Bool) (parentId canonical segment contextPath : Str) :
    CacheCode (Option (DriveFileMeta × Bool)) := do
  let cached ← useCache (PathCache.tryGet thread ⟨auth, canonical⟩)
  match cached with
  | some hit => pure (some hit)
  | none => do
      let found ← listByName pj rounds parentId segment (!isLast) contextPath
      match found with
      | [] => pure none
      | [file] => do
          Code.modify (PathCache.put thread ⟨auth, canonical⟩ file)
          pure (some (file, true))
      | _ => Code.throw (ambiguousError found contextPath)

/-- The loop of `TryResolvePath`, from `parentId` at the path `canonical`. -/
def resolveSegments (contextPath : Str) :
    (parentId canonical : Str) → List Str → CacheCode (Option (DriveFileMeta × Bool))
  | _, _, [] => pure none
  | parentId, canonical, [leaf] =>
      resolveSegment pj rounds thread auth true parentId (extendPath canonical leaf) leaf contextPath
  | parentId, canonical, segment :: next :: rest => do
      let found ← resolveSegment pj rounds thread auth false parentId
        (extendPath canonical segment) segment contextPath
      match found with
      | none => pure none
      | some (folder, _) =>
          resolveSegments contextPath folder.id (extendPath canonical segment) (next :: rest)

/-- `TryResolvePath`: the file and whether it is as fresh as this query;
nothing for what does not exist, and only for that. -/
def tryResolvePath (uri : GDriveUri) : CacheCode (Option (DriveFileMeta × Bool)) :=
  match uri with
  | .fileId id => do
      let found ← getOrFetchMetadata auth id (fetchMetadata pj id uri.toString)
      pure (found.map fun file => (file, false))
  | .path [] => do
      -- The root itself, which no listing returns.
      let found ← fetchMetadata pj (rootFolderFor auth) uri.toString
      pure (found.map fun file => (file, false))
  | .path segments =>
      resolveSegments pj rounds thread auth uri.toString (rootFolderFor auth) [] segments

def resolvePath (uri : GDriveUri) : CacheCode DriveFileMeta := do
  let found ← tryResolvePath pj rounds thread auth uri
  match found with
  | some (file, _) => pure file
  | none => Code.throw (notFoundError uri.toString)

end Resolve

end GDrive
