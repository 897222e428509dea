/-
Mutations and existence checks (gdrive_mutate.cpp, gdrive_filesystem.cpp).

Each mutation resolves what it is given, changes Drive, and then drops what
the path cache says of the paths it was given. The parent of a path is
resolved from its text, which is parsed once more.
-/
import GDrive.Fs.Open

namespace GDrive

open Interaction

-- ================================================================== the errors

def removeFolderError (uri : Str) : Exn :=
  .io (str "gdrive: " ++ quoted uri ++ str " is a directory -- use RemoveDirectory, not RemoveFile")

def notADirectoryError (uri : Str) : Exn :=
  .io (str "gdrive: " ++ quoted uri ++ str " is not a directory")

def moveTargetError : Exn :=
  .invalidInput (str "gdrive: MoveFile target must be a gdrive://path naming the new location, not an id: form")

def moveNamesNoFileError (uri : Str) : Exn :=
  .io (str "gdrive: move target " ++ quoted uri ++ str " does not name a file")

def cannotOverwriteError (uri : Str) (files : List DriveFileMeta) : Exn :=
  .io (str "gdrive: cannot overwrite " ++ quoted uri ++ str ": " ++ decimal files.length
    ++ str " files already share that name in the destination folder (ids: " ++ joinIds files
    ++ str "). Remove or rename them with the gdrive://id:<fileId> form before overwriting.")

def createDirectoryError (uri : Str) : Exn :=
  .invalidInput (str "gdrive: CreateDirectory needs a gdrive://path naming a folder, not "
    ++ quoted uri)

section Mutate

variable (pj : Picojson) (rounds : Nat)

/-- The URI of a path, which a mutation asks no secret for. -/
def parsedUri (path : Str) : CacheCode GDriveUri :=
  match parseGDriveUri path with
  | .error error => Code.throw (badUriError error)
  | .ok uri => pure uri

/-- The folder a parent's text names. -/
def resolveParentId (o : Opener) (parentPath : Str) : CacheCode Str :=
  if parentPath.isEmpty then pure (rootFolderFor o.auth)
  else do
    let uri ← parsedUri parentPath
    let file ← resolvePath pj rounds o.thread o.auth uri
    pure file.id

/-- What the path cache says of a path the operation was given. The id: form
has no key there. -/
def invalidatePath (o : Opener) (uri : GDriveUri) : CacheCode Unit :=
  match uri with
  | .fileId _ => pure ()
  | .path _ => Code.modify (PathCache.invalidatePrefix (o.key (canonicalPathOf uri)))

-- =================================================================== removals

/-- The common part of the two removals: `wanted` is whether a folder is to
be removed. -/
def removeResolved (o : Opener) (uri : GDriveUri) (wanted : Bool) (wrongKind : Exn) :
    CacheCode Unit := do
  let file ← resolvePath pj rounds o.thread o.auth uri
  Code.when (file.isFolder != wanted) (Code.throw wrongKind)
  let resp ← call (.delete file.id o.settings.permanentDelete)
  Code.when (!resp.ok) (Code.throw (.drive resp.error uri.toString))
  invalidatePath o uri

def mutateRemoveFile (o : Opener) (uri : GDriveUri) : CacheCode Unit :=
  removeResolved pj rounds o uri false (removeFolderError uri.toString)

def mutateRemoveDirectory (o : Opener) (uri : GDriveUri) : CacheCode Unit :=
  removeResolved pj rounds o uri true (notADirectoryError uri.toString)

def removeFile (o : Opener) (filename : Str) : CacheCode Unit := do
  let uri ← parsedUri filename
  mutateRemoveFile pj rounds o uri

def removeDirectory (o : Opener) (directory : Str) : CacheCode Unit := do
  let uri ← parsedUri directory
  mutateRemoveDirectory pj rounds o uri

-- ====================================================================== moves

/-- The folder the source lies in, where it was given by its path. -/
def oldParentId (o : Opener) (source : GDriveUri) : CacheCode Str :=
  match source with
  | .fileId _ => pure []
  | .path _ => resolveParentId pj rounds o source.parentPath

/-- The file the move replaced goes last: nothing is destroyed that has not
been replaced. -/
def deleteReplaced (o : Opener) (target : GDriveUri) : List DriveFileMeta → CacheCode Unit
  | [replaced] => do
      let resp ← call (.delete replaced.id o.settings.permanentDelete)
      Code.when (!resp.ok) (Code.throw (.drive resp.error target.toString))
  | _ => pure ()

def mutateMoveFile (o : Opener) (source target : GDriveUri) : CacheCode Unit := do
  match target with
  | .fileId _ => Code.throw moveTargetError
  | .path _ => do
      let sourceFile ← resolvePath pj rounds o.thread o.auth source
      let oldParent ← oldParentId pj rounds o source
      let newName := target.fileName
      Code.when newName.isEmpty (Code.throw (moveNamesNoFileError target.toString))
      let newParent ← resolveParentId pj rounds o target.parentPath
      let listed ← listByName pj rounds newParent newName false target.toString
      let existing := listed.filter fun file => file.id ≠ sourceFile.id
      Code.when (decide (1 < existing.length))
        (Code.throw (cannotOverwriteError target.toString existing))
      let resp ← call (.move sourceFile.id newParent newName oldParent)
      Code.when (!resp.ok) (Code.throw (.drive resp.error source.toString))
      deleteReplaced o target existing
      invalidatePath o source
      invalidatePath o target

def moveFile (o : Opener) (source target : Str) : CacheCode Unit := do
  let src ← parsedUri source
  let dst ← parsedUri target
  mutateMoveFile pj rounds o src dst

-- ================================================================ directories

/-- Does not look whether the name is taken. The key it drops is the parent's
whole text, which no entry has. -/
def mutateCreateDirectory (o : Opener) (uri : GDriveUri) : CacheCode Unit :=
  match uri with
  | .fileId _ | .path [] => Code.throw (createDirectoryError uri.toString)
  | .path (_ :: _) => do
      let parentId ← resolveParentId pj rounds o uri.parentPath
      let resp ← call (.upload [] parentId uri.fileName kFolderMimeType [] [])
      Code.when (!resp.ok) (Code.throw (.drive resp.error uri.toString))
      Code.modify (PathCache.invalidatePrefix (o.key uri.parentPath))

def createDirectory (o : Opener) (directory : Str) : CacheCode Unit := do
  let uri ← parsedUri directory
  mutateCreateDirectory pj rounds o uri

-- ================================================================== existence

/-- Only what does not exist may become `false`. -/
def fileExists (o : Opener) (filename : Str) : CacheCode Bool :=
  match o.hasSecret, parseGDriveUri filename with
  | true, .ok uri => do
      let found ← tryResolvePath pj rounds o.thread o.auth uri
      pure (found.any fun hit => !hit.1.isFolder)
  | _, _ => pure false

def directoryExists (o : Opener) (directory : Str) : CacheCode Bool :=
  match o.hasSecret, parseGDriveUri directory with
  | true, .ok (.path []) => pure true
  | true, .ok uri => do
      let found ← tryResolvePath pj rounds o.thread o.auth uri
      pure (found.any fun hit => hit.1.isFolder)
  | _, _ => pure false

end Mutate

end GDrive
