/-
`Glob` and `ListFiles` (gdrive_filesystem.cpp).

Drive cannot match patterns, so a pattern's literal prefix is resolved, what
lies below it is listed, and the matching happens here. What was listed
warms the path cache, except where a name in it is ambiguous.
-/
import GDrive.Fs.GlobPattern
import GDrive.Fs.Mutate

namespace GDrive

open Interaction

def tooLargeError (path : Str) : Exn :=
  .invalidInput (str "gdrive: glob pattern " ++ quoted path
    ++ str " is too large to expand (brace-alternation overflow)")

def kGDriveIdScheme : Str := kGDriveScheme ++ str "id:"

/-- A path below a folder; below the root there is no slash. -/
def below (folder name : Str) : Str := if folder.isEmpty then name else folder ++ 47 :: name

def joinGDrivePath (parentPath name : Str) : Str := kGDriveScheme ++ below parentPath name

/-- The address of a listed file: by its id where its name is not enough. -/
def disambiguatePath (parentPath : Str) (file : DriveFileMeta) (nameIsAmbiguous : Bool) : Str :=
  if nameIsAmbiguous then kGDriveIdScheme ++ file.id else joinGDrivePath parentPath file.name

/-- A listed file by its path below the listed folder. -/
abbrev Listed := Str × DriveFileMeta

/-- How many listed files have this path. -/
def countRel (listing : List Listed) (rel : Str) : Nat :=
  (listing.filter fun entry => entry.1 = rel).length

/-- Does the path lie beneath one that several listed files have? -/
def underAmbiguous (listing : List Listed) (rel : Str) : Bool :=
  listing.any fun entry => countRel listing entry.1 != 1 && (entry.1 ++ [47]).isPrefixOf rel

section Glob

-- `signed` is whether the platform's `char` is.
variable (signed : Bool) (pj : Picojson) (rounds : Nat)

-- ================================================================== the listing

/-- List a folder and, in a recursive listing, the folders below it, as deep
as `depth`. -/
def listFolder (path : Str) (recursive : Bool) :
    (depth : Nat) → (folderId relPrefix : Str) → CacheCode (List Listed)
  | 0, _, _ => Code.cut
  | depth + 1, folderId, relPrefix => do
      let children ← listChildren pj rounds folderId path
      listBelow (fun id rel => listFolder path recursive depth id rel) recursive relPrefix children
where
  /-- The children one by one, each followed by what lies below it. -/
  listBelow (descend : Str → Str → CacheCode (List Listed)) (recursive : Bool)
      (relPrefix : Str) : List DriveFileMeta → CacheCode (List Listed)
    | [] => pure []
    | child :: rest => do
        let rel := below relPrefix child.name
        let inside ← descendInto descend (recursive && child.isFolder) child.id rel
        let others ← listBelow descend recursive relPrefix rest
        pure ((rel, child) :: inside ++ others)
  descendInto (descend : Str → Str → CacheCode (List Listed)) (wanted : Bool) (id rel : Str) :
      CacheCode (List Listed) :=
    if wanted then descend id rel else pure []

/-- Put what a listing is sure of into the path cache. -/
def warmCache (o : Opener) (literalPrefix : Str) (listing : List Listed) : PathCache → PathCache :=
  fun c =>
    (listing.filter fun entry =>
        countRel listing entry.1 = 1 && !underAmbiguous listing entry.1).foldl
      (fun c entry =>
        c.put o.thread (o.key (below literalPrefix entry.1)) entry.2) c

/-- Everything before the last slash, or nothing. -/
def parentOf (path : Str) : Str := (path.reverse.dropWhile (· != 47)).drop 1 |>.reverse

/-- A path that `Glob` returns, and the file it returns it for. -/
abbrev Found := Str × DriveFileMeta

/-- The results of one pattern: the files its listing matches. -/
def matchListing (pattern literalPrefix : Str) (listing : List Listed) : List Found :=
  listing.filterMap fun entry =>
    let full := below literalPrefix entry.1
    if matchPath signed pattern full && !entry.2.isFolder then
      some (disambiguatePath (parentOf full) entry.2 (countRel listing entry.1 != 1), entry.2)
    else none

/-- No path twice; `seen` are the paths so far. -/
def uniquePaths : (seen : List Str) → List Found → List Found
  | _, [] => []
  | seen, found :: rest =>
      if found.1 ∈ seen then uniquePaths seen rest
      else found :: uniquePaths (found.1 :: seen) rest

-- ====================================================================== globs

/-- A literal path: itself, where it is a file. -/
def globLiteral (o : Opener) (uri : GDriveUri) (path : Str) : CacheCode (List Found) := do
  let found ← tryResolvePath pj rounds o.thread o.auth uri
  match found with
  | some (file, _) => pure (if file.isFolder then [] else [(path, file)])
  | none => pure []

/-- The folder a pattern's literal prefix names, if there is one. -/
def globRoot (o : Opener) (literalPrefix : Str) : CacheCode (Option Str) :=
  if literalPrefix.isEmpty then pure (some (rootFolderFor o.auth))
  else
    match parseGDriveUri (kGDriveScheme ++ literalPrefix) with
    | .error error => Code.throw (badUriError error)
    | .ok uri => do
        let found ← tryResolvePath pj rounds o.thread o.auth uri
        pure (found.map (·.1.id))

/-- One pattern without braces. -/
def globPattern (depth : Nat) (o : Opener) (path pattern : Str) : CacheCode (List Found) := do
  let split := splitGlob pattern
  let root ← globRoot pj rounds o split.literalPrefix
  match root with
  | none => pure []
  | some folderId => do
      let listing ← listFolder pj rounds path split.recursive depth folderId []
      Code.modify (warmCache o split.literalPrefix listing)
      pure (matchListing signed pattern split.literalPrefix listing)

/-- One expansion of the braces, which may be a literal path. -/
def globExpansion (depth : Nat) (o : Opener) (path pattern : Str) : CacheCode (List Found) :=
  if hasGlobMetacharacters pattern then globPattern signed pj rounds depth o path pattern
  else
    match parseGDriveUri (kGDriveScheme ++ pattern) with
    | .error _ => pure []
    | .ok uri => globLiteral pj rounds o uri (kGDriveScheme ++ pattern)

def globExpansions (depth : Nat) (o : Opener) (path : Str) : List Str → CacheCode (List Found)
  | [] => pure []
  | pattern :: rest => do
      let found ← globExpansion signed pj rounds depth o path pattern
      let others ← globExpansions depth o path rest
      pure (found ++ others)

/-- A pattern that matches nothing may be the name of a file. -/
def orLiteral (o : Opener) (uri : GDriveUri) (path : Str) : List Found → CacheCode (List Found)
  | [] => globLiteral pj rounds o uri path
  | found => pure found

/-- The patterns of a path with metacharacters. -/
def globPath (depth : Nat) (o : Opener) (path : Str) (uri : GDriveUri) :
    CacheCode (List Found) :=
  match expandBraces (path.drop kGDriveScheme.length) with
  | [] => Code.throw (tooLargeError path)
  | patterns => do
      let found ← globExpansions signed pj rounds depth o path patterns
      orLiteral pj rounds o uri path (uniquePaths [] found)

/-- `Glob`, with the file of each result. -/
def globFound (depth : Nat) (o : Opener) (path : Str) : CacheCode (List Found) :=
  if !o.hasSecret then Code.throw (noSecretError path)
  else do
    beginQuery o
    match parseGDriveUri path with
    | .error error =>
        if isFileIdFallbackGlobProbe path then pure [] else Code.throw (badUriError error)
    | .ok (.fileId id) => globLiteral pj rounds o (.fileId id) path
    | .ok (.path segments) =>
        if hasGlobMetacharacters path then globPath signed pj rounds depth o path (.path segments)
        else globLiteral pj rounds o (.path segments) path

/-- `Glob`. -/
def glob (depth : Nat) (o : Opener) (path : Str) : CacheCode (List Str) := do
  let found ← globFound signed pj rounds depth o path
  pure (found.map (·.1))

-- ================================================================== ListFiles

/-- The folder whose children `ListFiles` lists. -/
def listedFolder (o : Opener) (directory : Str) (uri : GDriveUri) : CacheCode Str :=
  match uri with
  | .path [] => pure (rootFolderFor o.auth)
  | uri => do
      let folder ← resolvePath pj rounds o.thread o.auth uri
      Code.when (!folder.isFolder) (Code.throw (notADirectoryError directory))
      pure folder.id

/-- `ListFiles`: the names its callback gets, and whether each is a folder;
nothing where it returns false. -/
def listFiles (o : Opener) (directory : Str) : CacheCode (Option (List (Str × Bool))) :=
  match o.hasSecret, parseGDriveUri directory with
  | true, .ok uri => do
      let folderId ← listedFolder pj rounds o directory uri
      let children ← listChildren pj rounds folderId directory
      pure (some (children.map fun child =>
        (if 1 < (children.filter fun other => other.name = child.name).length
          then str "id:" ++ child.id else child.name, child.isFolder)))
  | _, _ => pure none

end Glob

end GDrive
