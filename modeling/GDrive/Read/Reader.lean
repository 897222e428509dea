/-
The read handle and the reads (gdrive_filesystem.cpp): `Read` at an offset,
by the block cache or by one exact range, and the sequential `Read` and
`Seek` on top of it.

A read returns the bytes it has copied into the caller's buffer. Offsets
are `idx_t` and `int64_t`; `index` and `offset` are the operations that
compute one; a result that does not fit wraps, and sets the mark `wrapped`.
-/
import GDrive.Fs.Resolve
import GDrive.Read.BlockCache

namespace GDrive

open Interaction

/-- What a `GDriveFileSystem` keeps between calls. -/
structure Fs where
  cache : PathCache := {}
  blocks : BlockCache := {}

/-- A `GDriveFileHandleImpl` opened for reading. -/
structure ReadHandle where
  path : Str
  /-- `meta`. -/
  file : DriveFileMeta
  auth : AuthContext
  position : Nat := 0
  /-- 0 reads exact ranges. -/
  blockSize : Nat
  blockKey : Str
  isExport : Bool := false
  exportBuffer : Str := []

/-- The revision is what makes an overwrite, which keeps the file's id,
miss the block cache. -/
def buildBlockKey (auth : AuthContext) (file : DriveFileMeta) : Str :=
  auth.keyPrefix ++ file.id ++ separator ++ file.headRevisionId

/-- What a read works on. -/
structure Reader where
  fs : Fs
  handle : ReadHandle
  /-- `not_found` of the read under way: its fetch met a 404. -/
  notFound : Bool := false
  /-- Some index arithmetic overflowed or divided by zero. -/
  wrapped : Bool := false

abbrev ReadCode (α : Type) := Code Client Exn Reader α

def onCache {α : Type} (c : CacheCode α) : ReadCode α :=
  Code.zoom (fun r => r.fs.cache) (fun cache r => { r with fs := { r.fs with cache } }) c

def Reader.blocks (r : Reader) : BlockCache := r.fs.blocks

def Reader.setBlocks (blocks : BlockCache) (r : Reader) : Reader :=
  { r with fs := { r.fs with blocks } }

-- ============================================================== arithmetic

/-- `static_cast<idx_t>` of an `int64_t`. -/
def castIndex (n : Int) : Nat := (n % 2 ^ 64).toNat

/-- `static_cast<int64_t>` of an `idx_t`. -/
def castOffset (n : Nat) : Int := Int.bmod n (2 ^ 64)

def markWrapped (b : Bool) : ReadCode Unit :=
  Code.when b (Code.modify fun r => { r with wrapped := true })

/-- A value computed as an `idx_t`. -/
def index (n : Int) : ReadCode Nat := do
  markWrapped (n < 0 ∨ 2 ^ 64 ≤ n)
  pure (castIndex n)

/-- A value computed as an `int64_t`. -/
def offset (n : Int) : ReadCode Int := do
  markWrapped (n < -2 ^ 63 ∨ 2 ^ 63 ≤ n)
  pure (Int.bmod n (2 ^ 64))

def divideIndex (a b : Nat) : ReadCode Nat := do
  markWrapped (b = 0)
  pure (a / b)

def kMaxOffset : Int := 2 ^ 63 - 1

-- ============================================================== the errors

def exportEndError (path : Str) : Exn :=
  .io (str "gdrive: short read past end of exported content for " ++ quoted path)

def outOfBoundsError (path : Str) (location : Nat) (nrBytes : Int) : Exn :=
  .io (str "gdrive: read range out of bounds for " ++ quoted path ++ str ": offset "
    ++ decimal location ++ str " length " ++ signedDecimal nrBytes)

def ignoredRangeError (path : Str) (size start : Nat) : Exn :=
  .io (str "gdrive: server ignored Range on " ++ quoted path ++ str " and returned "
    ++ decimal size ++ str " bytes, which does not reach offset " ++ decimal start)

def shortBlockError (path : Str) (blockIndex size within : Nat) : Exn :=
  .io (str "gdrive: short read on " ++ quoted path ++ str ": block " ++ decimal blockIndex
    ++ str " ended at " ++ decimal size ++ str ", wanted offset " ++ decimal within)

def shortReadError (path : Str) (nrBytes : Int) (location size : Nat) : Exn :=
  .io (str "gdrive: short read on " ++ quoted path ++ str ": requested "
    ++ signedDecimal nrBytes ++ str " bytes at offset " ++ decimal location ++ str ", got "
    ++ decimal size)

-- ================================================================ recovery

section Reads

variable (pj : Picojson) (rounds thread : Nat)

/-- `TryRecoverStaleHandle`: the path may name another file by now. -/
def tryRecoverStaleHandle : ReadCode Bool := do
  let r ← Code.get
  match parseGDriveUri r.handle.path with
  | .error _ => pure false
  | .ok (.fileId _) => pure false
  | .ok (.path segments) => do
      let auth := r.handle.auth
      onCache (Code.modify
        (PathCache.invalidatePrefix ⟨auth, canonicalPathOf (.path segments)⟩))
      let found ← onCache (tryResolvePath pj rounds thread auth (.path segments))
      match found with
      | none => pure false -- really gone
      | some (fresh, _) =>
          if fresh.id = r.handle.file.id then pure false
          else do
            Code.modify fun r =>
              { r with
                handle := { r.handle with file := fresh, blockKey := buildBlockKey auth fresh } }
            pure true

/-- `not_found && TryRecoverStaleHandle(h)`. -/
def recoverIf (notFound : Bool) : ReadCode Bool :=
  if notFound then tryRecoverStaleHandle pj rounds thread else pure false

-- ============================================================= block by block

/-- The fetch of one block. A 200 is the whole file whatever was asked. -/
def fetchBlock (start len : Nat) : ReadCode Str := do
  let r ← Code.get
  let first ← offset start
  let last ← offset ((start : Int) + len - 1)
  let resp ← call (.download r.handle.file.id first last)
  Code.when (!resp.ok) do
    Code.when (resp.error.kind = .notFound) (Code.modify fun r => { r with notFound := true })
    Code.throw (.drive resp.error r.handle.path)
  if resp.httpStatus = 200 ∧ 0 < start then
    if resp.body.length ≤ start then
      Code.throw (ignoredRangeError r.handle.path resp.body.length start)
    else pure ((resp.body.drop start).take len)
  else pure resp.body

/-- The loop of `ReadViaBlockCache`: `remaining` bytes from `pos` on. Every
round copies at least one, so their number bounds the rounds. -/
def readBlocks : (rounds remaining pos : Nat) → ReadCode Str
  | _, 0, _ => pure []
  | 0, _ + 1, _ => Code.cut
  | rounds + 1, remaining + 1, pos => do
      let h := (← Code.get).handle
      let blockIndex ← divideIndex pos h.blockSize
      let start ← index (blockIndex * h.blockSize)
      let block ← getBlock Reader.blocks Reader.setBlocks h.blockKey blockIndex h.blockSize
        (castIndex h.file.size) fetchBlock
      let within ← index (pos - start)
      if block.length ≤ within then
        Code.throw (shortBlockError h.path blockIndex block.length within)
      else do
        let take := min (remaining + 1) (block.length - within)
        let left ← index ((remaining + 1 : Nat) - take)
        let next ← index (pos + take)
        let rest ← readBlocks rounds left next
        pure ((block.drop within).take take ++ rest)

def readViaBlockCache (nrBytes : Int) (location : Nat) : ReadCode Str :=
  readBlocks (castIndex nrBytes) (castIndex nrBytes) location

/-- The loop around it: one retry, for a handle whose file went away. -/
def readBlocksRecovering (nrBytes : Int) (location : Nat) : ReadCode Str := do
  Code.modify fun r => { r with notFound := false }
  Code.tryCatch (readViaBlockCache nrBytes location) fun e => do
    let r ← Code.get
    let recovered ← recoverIf pj rounds thread r.notFound
    if recovered then do
      Code.modify fun r => { r with notFound := false }
      readViaBlockCache nrBytes location
    else Code.throw e

-- ============================================================= one exact range

/-- `ReadExactRangeTail`. -/
def readExactRangeTail (path : Str) (nrBytes : Int) (location : Nat) (resp : DriveResponse) :
    Except Exn Str :=
  if resp.httpStatus = 200 ∧ 0 < location ∧ resp.body.length ≤ location then
    .error (ignoredRangeError path resp.body.length location)
  else
    let src := if resp.httpStatus = 200 ∧ 0 < location then resp.body.drop location else resp.body
    if src.length < castIndex nrBytes then
      .error (shortReadError path nrBytes location src.length)
    else .ok (src.take (castIndex nrBytes))

def finishExactRange (path : Str) (nrBytes : Int) (location : Nat) (resp : DriveResponse) :
    ReadCode Str := do
  Code.when (!resp.ok) (Code.throw (.drive resp.error path))
  Code.ofExcept (readExactRangeTail path nrBytes location resp)

def readExactRange (nrBytes : Int) (location : Nat) : ReadCode Str := do
  let r ← Code.get
  let last ← offset (location + nrBytes - 1)
  let resp ← call (.download r.handle.file.id location last)
  let recovered ← recoverIf pj rounds thread (!resp.ok ∧ resp.error.kind = .notFound)
  if recovered then do
    -- One retry, against the path's new id.
    let again ← Code.get
    let resp ← call (.download again.handle.file.id location last)
    finishExactRange again.handle.path nrBytes location resp
  else finishExactRange r.handle.path nrBytes location resp

-- ================================================================= the reads

/-- A native Google format is served from the buffer its export filled. -/
def readExport (h : ReadHandle) (nrBytes : Int) (location : Nat) : Except Exn Str :=
  let avail := h.exportBuffer.length - location
  let toCopy := min (castIndex nrBytes) avail
  if toCopy < castIndex nrBytes then .error (exportEndError h.path)
  else .ok ((h.exportBuffer.drop location).take toCopy)

/-- `Read` at an offset. It does not touch the cursor. -/
def readAt (nrBytes : Int) (location : Nat) : ReadCode Str := do
  let h := (← Code.get).handle
  if nrBytes = 0 then pure []
  else if h.isExport then Code.ofExcept (readExport h nrBytes location)
  else if kMaxOffset < location ∨ nrBytes < 0 ∨ kMaxOffset - nrBytes < location then
    Code.throw (outOfBoundsError h.path location nrBytes)
  else if 0 < h.blockSize ∧ 0 < h.file.size then
    readBlocksRecovering pj rounds thread nrBytes location
  else readExactRange pj rounds thread nrBytes location

/-- The sequential `Read`, the only one to move the cursor. -/
def readNext (nrBytes : Int) : ReadCode Str := do
  let h := (← Code.get).handle
  let toRead := min (castIndex h.file.size - h.position) (castIndex nrBytes)
  if toRead = 0 then pure []
  else do
    let bytes ← readAt pj rounds thread (castOffset toRead) h.position
    let next ← index (h.position + toRead)
    Code.modify fun r => { r with handle := { r.handle with position := next } }
    pure bytes

def seek (location : Nat) : ReadCode Unit :=
  Code.modify fun r => { r with handle := { r.handle with position := location } }

end Reads

end GDrive
