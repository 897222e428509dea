/-
`GDrivePathCache` (gdrive_path_cache.cpp): path entries, which say which
file a path names, and metadata by file id, scoped to one query.

Each operation is atomic, as its lock makes it. The keys are the strings
the code builds, so what an invalidation reaches is a matter of string
prefixes. `queryGeneration` is the thread-local generation of each thread.
-/
import Mathlib.Data.List.AList
import Mathlib.Data.List.MinMax
import Mathlib.Logic.Function.Basic
import GDrive.Base.Table
import GDrive.Client.Client
import GDrive.Fs.Uri
import GDrive.Write.Handle

namespace GDrive

open Interaction

/-- What of a `GDriveAuthContext` the caches and the resolver look at. -/
structure AuthContext where
  identity : Str
  driveId : Str := []
  rootFolderId : Str := []
  deriving DecidableEq

structure CacheKey where
  auth : AuthContext
  canonicalPath : Str := []
  deriving DecidableEq

/-- The unit separator between the fields of a key. -/
def separator : Str := [31]

/-- What every key of one identity, drive and root begins with. -/
def AuthContext.keyPrefix (auth : AuthContext) : Str :=
  auth.identity ++ separator ++ auth.driveId ++ separator ++ auth.rootFolderId ++ separator

def CacheKey.toString (key : CacheKey) : Str := key.auth.keyPrefix ++ key.canonicalPath

/-- `MetadataKey`, up to the file id. -/
def AuthContext.metadataPrefix (auth : AuthContext) : Str :=
  auth.keyPrefix ++ str "meta" ++ separator

def metadataKey (auth : AuthContext) (fileId : Str) : Str := auth.metadataPrefix ++ fileId

/-- The fields of a key can be told apart: so many separators in the
identity, and none in the drive and the root. -/
structure AuthContext.FieldsApart (n : Nat) (auth : AuthContext) : Prop where
  identity : auth.identity.count 31 = n
  driveId : 31 ∉ auth.driveId
  rootFolderId : 31 ∉ auth.rootFolderId

/-- A field with a known number of separators ends at the next one. -/
theorem cancel_counted {a b x y : Str} (hcount : a.count 31 = b.count 31)
    (h : a ++ 31 :: x = b ++ 31 :: y) : a = b ∧ x = y := by
  rcases List.append_eq_append_iff.mp h with ⟨t, hb, hx⟩ | ⟨t, ha, hy⟩
  · cases t with
    | nil => exact ⟨by rw [hb, List.append_nil], (List.cons.inj hx).2⟩
    | cons c t =>
        obtain rfl : 31 = c := (List.cons.inj hx).1
        rw [hb, List.count_append, List.count_cons_self] at hcount
        omega
  · cases t with
    | nil => exact ⟨by rw [ha, List.append_nil], (List.cons.inj hy).2.symm⟩
    | cons c t =>
        obtain rfl : 31 = c := (List.cons.inj hy).1
        rw [ha, List.count_append, List.count_cons_self] at hcount
        omega

theorem AuthContext.FieldsApart.cancel {n : Nat} {auth auth' : AuthContext}
    (ha : auth.FieldsApart n) (ha' : auth'.FieldsApart n) {x y : Str}
    (h : auth.keyPrefix ++ x = auth'.keyPrefix ++ y) : auth = auth' ∧ x = y := by
  obtain ⟨i, d, r⟩ := auth
  obtain ⟨i', d', r'⟩ := auth'
  have h' : i ++ 31 :: (d ++ 31 :: (r ++ 31 :: x)) = i' ++ 31 :: (d' ++ 31 :: (r' ++ 31 :: y)) := by
    simpa [AuthContext.keyPrefix, separator] using h
  obtain ⟨hidentity, hrest⟩ := cancel_counted (ha.identity.trans ha'.identity.symm) h'
  obtain ⟨hdrive, hrest⟩ := cancel_field ha.driveId ha'.driveId hrest
  obtain ⟨hroot, hxy⟩ := cancel_field ha.rootFolderId ha'.rootFolderId hrest
  simp only at hidentity hdrive hroot
  rw [hidentity, hdrive, hroot]
  exact ⟨rfl, hxy⟩

theorem CacheKey.toString_injective {n : Nat} {key key' : CacheKey} (h : key.auth.FieldsApart n)
    (h' : key'.auth.FieldsApart n) (heq : key.toString = key'.toString) : key = key' := by
  obtain ⟨auth, path⟩ := key
  obtain ⟨auth', path'⟩ := key'
  obtain ⟨hauth, hpath⟩ := h.cancel h' heq
  simp only at hauth hpath
  rw [hauth, hpath]

structure PathEntry where
  file : DriveFileMeta
  usedAt : Nat := 0
  /-- The query generation it was listed in. -/
  freshGeneration : Nat := 0

/-- DuckDB's number for "no query is running". -/
def maximumQueryId : Nat := 2 ^ 64 - 1

structure PathCache where
  entries : AList fun _ : Str => PathEntry := ∅
  /-- 0 is unbounded. -/
  maxEntries : Nat := 0
  pathClock : Nat := 0
  metadataEntries : AList fun _ : Str => DriveFileMeta := ∅
  metadataGeneration : Nat := 0
  /-- `t_query_generation`, of each thread. -/
  queryGeneration : Nat → Nat := fun _ => 0
  /-- `GetGlobalPathCacheEntries`. -/
  gauge : Nat := 0

-- =============================================================== evictions

/-- The least recently used entry. -/
def coldest (entries : List (Σ _ : Str, PathEntry)) : Option (Σ _ : Str, PathEntry) :=
  entries.argmin fun e => e.2.usedAt

/-- The loop of `EvictPathsLocked`; every round takes one entry out. -/
def evictDownTo (max : Nat) : Nat → (AList fun _ : Str => PathEntry) →
    AList fun _ : Str => PathEntry
  | 0, entries => entries
  | rounds + 1, entries =>
      if max < entries.entries.length then
        match coldest entries.entries with
        | some victim => evictDownTo max rounds (entries.erase victim.1)
        | none => entries
      else entries

namespace PathCache

/-- `EvictPathsLocked`. -/
def evictPaths (c : PathCache) : PathCache :=
  let entries :=
    if c.maxEntries = 0 then c.entries
    else evictDownTo c.maxEntries c.entries.entries.length c.entries
  { c with entries, gauge := entries.entries.length }

def setMaxEntries (max : Nat) (c : PathCache) : PathCache := { c with maxEntries := max }.evictPaths

-- ============================================================= path entries

/-- Listed during the query that `thread` is serving. The two generations
that many queries share are never fresh. -/
def isFresh (thread : Nat) (c : PathCache) (e : PathEntry) : Bool :=
  c.queryGeneration thread ≠ 0 ∧ c.queryGeneration thread ≠ maximumQueryId ∧
    e.freshGeneration = c.queryGeneration thread

/-- `TryGet`: the file and whether it is fresh; a hit is a use. -/
def tryGet (thread : Nat) (key : CacheKey) (c : PathCache) :
    Option (DriveFileMeta × Bool) × PathCache :=
  match c.entries.lookup key.toString with
  | none => (none, c)
  | some e =>
      (some (e.file, c.isFresh thread e),
        { c with
          pathClock := c.pathClock + 1
          entries := c.entries.insert key.toString { e with usedAt := c.pathClock + 1 } })

/-- `Put`, from a live listing. -/
def put (thread : Nat) (key : CacheKey) (file : DriveFileMeta) (c : PathCache) : PathCache :=
  let entry : PathEntry :=
    { file, usedAt := c.pathClock + 1, freshGeneration := c.queryGeneration thread }
  { c with
    pathClock := c.pathClock + 1
    entries := c.entries.insert key.toString entry }.evictPaths

-- ================================================================= metadata

/-- `BeginQuery`: another generation than the last one starts over. -/
def beginQuery (thread generation : Nat) (c : PathCache) : PathCache :=
  let c := { c with queryGeneration := Function.update c.queryGeneration thread generation }
  if generation = c.metadataGeneration then c
  else { c with metadataEntries := ∅, metadataGeneration := generation }

/-- Does a key lie at or beneath `key`'s path, within its identity? -/
def isBeneath (key : CacheKey) (k : Str) : Bool :=
  k = key.toString || (key.toString ++ [47]).isPrefixOf k

/-- `InvalidatePrefix`: the path and everything beneath it, and all
metadata of the identity. The path entries of another identity cannot
match. -/
def invalidatePrefix (key : CacheKey) (c : PathCache) : PathCache :=
  { c with
    metadataEntries := keepKeys (fun k => !key.auth.metadataPrefix.isPrefixOf k) c.metadataEntries
    entries :=
      keepKeys (fun k => !(key.auth.keyPrefix.isPrefixOf k && isBeneath key k)) c.entries }

def clear (c : PathCache) : PathCache := { c with entries := ∅, metadataEntries := ∅ }

def size (c : PathCache) : Nat := c.entries.entries.length

-- =========================================================== what is left

/-- Eviction only takes entries out. -/
theorem lookup_evictDownTo {max rounds : Nat} {entries : AList fun _ : Str => PathEntry}
    {k : Str} {e : PathEntry} (h : (evictDownTo max rounds entries).lookup k = some e) :
    entries.lookup k = some e := by
  induction rounds generalizing entries with
  | zero => exact h
  | succ rounds ih =>
      unfold evictDownTo at h
      split at h
      · split at h
        · rename_i victim _
          have herase := ih h
          by_cases hk : k = victim.1
          · rw [hk, AList.lookup_erase] at herase
            cases herase
          · rwa [AList.lookup_erase_ne hk] at herase
        · exact h
      · exact h

theorem lookup_evictPaths {c : PathCache} {k : Str} {e : PathEntry}
    (h : c.evictPaths.entries.lookup k = some e) : c.entries.lookup k = some e := by
  unfold evictPaths at h
  simp only at h
  split at h
  · exact h
  · exact lookup_evictDownTo h

theorem lookup_setMaxEntries {c : PathCache} {max : Nat} {k : Str} {e : PathEntry}
    (h : (c.setMaxEntries max).entries.lookup k = some e) : c.entries.lookup k = some e :=
  lookup_evictPaths (c := { c with maxEntries := max }) h

/-- After a `Put` an entry is the one just put, or was there before. -/
theorem lookup_put {c : PathCache} {thread : Nat} {key : CacheKey} {file : DriveFileMeta}
    {k : Str} {e : PathEntry} (h : (c.put thread key file).entries.lookup k = some e) :
    (k = key.toString ∧ e.file = file ∧ e.freshGeneration = c.queryGeneration thread) ∨
      (k ≠ key.toString ∧ c.entries.lookup k = some e) := by
  have hinsert := lookup_evictPaths h
  by_cases hk : k = key.toString
  · rw [hk] at hinsert
    simp only [AList.lookup_insert, Option.some.injEq] at hinsert
    rw [← hinsert]
    exact .inl ⟨hk, rfl, rfl⟩
  · simp only [AList.lookup_insert_ne hk] at hinsert
    exact .inr ⟨hk, hinsert⟩

/-- What a `TryGet` leaves: the same files with the same stamps. -/
theorem lookup_tryGet {c : PathCache} {thread : Nat} {key : CacheKey} {k : Str} {e : PathEntry}
    (h : (c.tryGet thread key).2.entries.lookup k = some e) :
    ∃ e', c.entries.lookup k = some e' ∧ e'.file = e.file ∧
      e'.freshGeneration = e.freshGeneration := by
  unfold tryGet at h
  split at h
  · exact ⟨e, h, rfl, rfl⟩
  · rename_i e' he'
    by_cases hk : k = key.toString
    · rw [hk] at h ⊢
      simp only [AList.lookup_insert, Option.some.injEq] at h
      rw [← h]
      exact ⟨e', he', rfl, rfl⟩
    · simp only [AList.lookup_insert_ne hk] at h
      exact ⟨e, h, rfl, rfl⟩

theorem lookup_invalidatePrefix (c : PathCache) (key : CacheKey) (k : Str) :
    (c.invalidatePrefix key).entries.lookup k =
      if key.auth.keyPrefix.isPrefixOf k && isBeneath key k then none else c.entries.lookup k := by
  unfold invalidatePrefix
  rw [lookup_keepKeys]
  cases key.auth.keyPrefix.isPrefixOf k && isBeneath key k <;> rfl

theorem metadata_invalidatePrefix (c : PathCache) (key : CacheKey) (id : Str) :
    (c.invalidatePrefix key).metadataEntries.lookup (metadataKey key.auth id) = none := by
  unfold invalidatePrefix
  rw [lookup_keepKeys, if_neg]
  have hpre : key.auth.metadataPrefix.isPrefixOf (metadataKey key.auth id) = true :=
    List.isPrefixOf_iff_prefix.mpr (List.prefix_append _ _)
  rw [hpre]
  exact Bool.false_ne_true

end PathCache

-- ================================================================ as code

/-- Code over the path cache. -/
abbrev CacheCode (α : Type) := Code Client Exn PathCache α

/-- A cache operation that returns something. -/
def useCache {α : Type} (f : PathCache → α × PathCache) : CacheCode α := do
  let c ← Code.get
  Code.set (f c).2
  pure (f c).1

/-- `GetOrFetchMetadata`. The entry that other threads would wait on is
there for nobody while one operation runs at a time, so only a fetch that
found the file leaves one. -/
def getOrFetchMetadata (auth : AuthContext) (fileId : Str)
    (fetch : CacheCode (Option DriveFileMeta)) : CacheCode (Option DriveFileMeta) := do
  let c ← Code.get
  if c.metadataGeneration = 0 then fetch
  else
    match c.metadataEntries.lookup (metadataKey auth fileId) with
    | some file => pure (some file)
    | none => do
        let found ← fetch
        match found with
        | none => pure none
        | some fresh => do
            Code.modify fun c =>
              { c with
                metadataEntries := c.metadataEntries.insert (metadataKey auth fileId) fresh }
            pure (some fresh)

end GDrive
