/-
File metadata as Drive sends it (gdrive_client.cpp, the pure parsers): one
file resource, a page of `files.list`, a reserved id.

Absent or wrong-typed members keep their defaults; only `id` is required,
since a body without one is not a file resource at all.
-/
import GDrive.Client.Errors

namespace GDrive

structure DriveFileMeta where
  id : Str := []
  name : Str := []
  mimeType : Str := []
  /-- -1 when Drive did not report one (native Google formats). -/
  size : Int := -1
  modifiedTime : Str := []
  headRevisionId : Str := []
  deriving DecidableEq

def kNativeGoogleAppsPrefix : Str := str "application/vnd.google-apps."

def kFolderMimeType : Str := str "application/vnd.google-apps.folder"

def DriveFileMeta.isFolder (m : DriveFileMeta) : Bool := m.mimeType = kFolderMimeType

def DriveFileMeta.isNativeGoogleFormat (m : DriveFileMeta) : Bool :=
  kNativeGoogleAppsPrefix.isPrefixOf m.mimeType && !m.isFolder

-- ================================================================ parsers

/-- The sign `strtoll` accepts, and what follows it. -/
def splitSign : Str → Bool × Str
  | 45 :: rest => (true, rest) -- '-'
  | 43 :: rest => (false, rest) -- '+'
  | s => (false, s)

/-- `strtoll` in base 10: blanks, a sign, the longest run of digits.
`none` where there is no digit or the value does not fit. -/
def strtoll (s : Str) : Option Int :=
  let signed := splitSign (s.dropWhile isSpace)
  let digits := signed.2.takeWhile isDigit
  let value : Int := if signed.1 then -(digitsValue 0 digits : Int) else digitsValue 0 digits
  if digits.isEmpty ∨ value < -2 ^ 63 ∨ 2 ^ 63 ≤ value then none else some value

/-- Drive writes a 64-bit number as a string. -/
def getInt64FromString (fields : List (Str × Json)) (key : Str) : Option Int :=
  match getString fields key with
  | some s => if s.isEmpty then none else strtoll s
  | none => none

def parseFileMetaObject (fields : List (Str × Json)) : Option DriveFileMeta :=
  match getString fields (str "id") with
  | none => none
  | some id =>
      some
        { id
          name := (getString fields (str "name")).getD []
          mimeType := (getString fields (str "mimeType")).getD []
          size := (getInt64FromString fields (str "size")).getD (-1)
          modifiedTime := (getString fields (str "modifiedTime")).getD []
          headRevisionId := (getString fields (str "headRevisionId")).getD [] }

def parseFileMeta (pj : Picojson) (body : Str) : Option DriveFileMeta :=
  (pj.parseObject body).bind parseFileMetaObject

/-- First id of a `files.generateIds` reply. -/
def parseGeneratedFileId (pj : Picojson) (body : Str) : Option Str :=
  match pj.parseObject body with
  | none => none
  | some top =>
      match Json.field top (str "ids") with
      | some (.array (.string id :: _)) => if id.isEmpty then none else some id
      | _ => none

/-- The entries of a page that are file resources. -/
def parseFileEntries : List Json → List DriveFileMeta
  | [] => []
  | .object fields :: rest =>
      match parseFileMetaObject fields with
      | some m => m :: parseFileEntries rest
      | none => parseFileEntries rest
  | _ :: rest => parseFileEntries rest

/-- A page of `files.list`: its files and the next page's token. -/
def parseFileList (pj : Picojson) (body : Str) : Option (List DriveFileMeta × Str) :=
  match pj.parseObject body with
  | none => none
  | some top =>
      let nextPageToken := (getString top (str "nextPageToken")).getD []
      match Json.field top (str "files") with
      -- An empty folder's reply may omit the key altogether.
      | none => some ([], nextPageToken)
      | some (.array entries) => some (parseFileEntries entries, nextPageToken)
      | some _ => none

-- ============================================================== serialiser

/-- One file as `List` writes it into its combined body. -/
def fileObject (m : DriveFileMeta) : Json :=
  .object
    ([(str "id", .string m.id), (str "name", .string m.name),
        (str "mimeType", .string m.mimeType)]
      ++ (if 0 ≤ m.size then [(str "size", .string (decimal m.size.toNat))] else [])
      ++ [(str "modifiedTime", .string m.modifiedTime),
        (str "headRevisionId", .string m.headRevisionId)])

/-- The fully paginated listing as one body. -/
def serializeFileList (pj : Picojson) (files : List DriveFileMeta) : Str :=
  pj.serialize (.object [(str "files", .array (files.map fileObject))])

end GDrive
