/-
The path entries as a bounded map that forgets the least recently used one.

# The simulation

The code dates an entry by a clock and scans for the oldest one. In the
order of their clocks, newest first, the entries are the rows of an `Lru`
(`Refines`); no two clocks are equal, so the scan takes the last row, and
the loop of `EvictPathsLocked` leaves what the bound leaves of the rows
(`evictDownTo_perm`).

# The history

Histories are lists of operations, newest first. They begin with an empty
cache, whatever its bound, its clock and its generations are.
-/
import GDrive.Fs.PathCache
import GDrive.Recency.Lru

namespace GDrive

open Recency

/-- The operations that the bounded map has, with their arguments. -/
inductive CacheOp
  | put (thread : Nat) (key : CacheKey) (file : DriveFileMeta)
  | tryGet (thread : Nat) (key : CacheKey)
  | setMaxEntries (max : Nat)

/-- What the operation is to the abstract map. -/
def CacheOp.toLru : CacheOp → Recency.Op Str DriveFileMeta
  | .put _ key file => .put key.toString file
  | .tryGet _ key => .get key.toString
  | .setMaxEntries max => .resize max

/-- The file last put under a key, and the `CacheKey` it was put with. -/
def latestPut (k : Str) : List CacheOp → Option (CacheKey × DriveFileMeta)
  | [] => none
  | .put _ key file :: past => if key.toString = k then some (key, file) else latestPut k past
  | .tryGet _ _ :: past => latestPut k past
  | .setMaxEntries _ :: past => latestPut k past

namespace PathCache

def perform (c : PathCache) : CacheOp → Option (DriveFileMeta × Bool) × PathCache
  | .put thread key file => (none, c.put thread key file)
  | .tryGet thread key => c.tryGet thread key
  | .setMaxEntries max => (none, c.setMaxEntries max)

/-- The key that the operation uses: one that is put, or found. -/
def used (c : PathCache) : CacheOp → Option Str
  | .put _ key _ => some key.toString
  | .tryGet thread key => if (c.tryGet thread key).1.isSome then some key.toString else none
  | .setMaxEntries _ => none

def after (c : PathCache) : List CacheOp → PathCache
  | [] => c
  | op :: past => ((c.after past).perform op).2

def uses (c : PathCache) : List CacheOp → List (Option Str)
  | [] => []
  | op :: past => (c.after past).used op :: c.uses past

/-- An entry that was there, or is put, and is not left. -/
def Evicted (c : PathCache) (op : CacheOp) (k : Str) : Prop :=
  (k ∈ c.entries ∨ ∃ thread key file, op = .put thread key file ∧ k = key.toString) ∧
    k ∉ (c.perform op).2.entries

-- ================================================================ the eviction

/-- The order of the abstract rows. -/
def Newer (e e' : Σ _ : Str, PathEntry) : Prop := e'.2.usedAt < e.2.usedAt

/-- In their order, the last entry is the coldest one. -/
theorem coldest_eq {es entries : List (Σ _ : Str, PathEntry)} {e : Σ _ : Str, PathEntry}
    (hperm : (es ++ [e]).Perm entries) (hsorted : (es ++ [e]).Pairwise Newer) :
    coldest entries = some e := by
  have hmem : e ∈ entries := hperm.subset (by simp)
  cases hcold : coldest entries with
  | none =>
      rw [List.argmin_eq_none.mp hcold] at hmem
      cases hmem
  | some e' =>
      have hle : e'.2.usedAt ≤ e.2.usedAt := List.le_of_mem_argmin (f := fun e : Σ _ : Str, PathEntry => e.2.usedAt) hmem hcold
      have hin : e' ∈ es ++ [e] := hperm.symm.subset (List.argmin_mem hcold)
      rw [List.pairwise_append] at hsorted
      rw [List.mem_append, List.mem_singleton] at hin
      rcases hin with hin | rfl
      · have hlt : e.2.usedAt < e'.2.usedAt := hsorted.2.2 e' hin e (by simp)
        omega
      · rfl

/-- Taking the last one out. -/
theorem kerase_last {es : List (Σ _ : Str, PathEntry)} {e : Σ _ : Str, PathEntry}
    (hnodup : (es ++ [e]).NodupKeys) : (es ++ [e]).kerase e.1 = es := by
  have hnot : e.1 ∉ es.keys := by
    unfold List.NodupKeys List.keys at hnodup
    rw [List.map_append, List.nodup_append] at hnodup
    intro hin
    exact hnodup.2.2 e.1 hin e.1 (by simp) rfl
  rw [List.kerase_append_right hnot, List.kerase_cons_eq rfl, List.append_nil]

theorem evictDownTo_perm {max rounds : Nat} {entries : AList fun _ : Str => PathEntry}
    {es : List (Σ _ : Str, PathEntry)} (hperm : es.Perm entries.entries)
    (hsorted : es.Pairwise Newer) (hrounds : es.length ≤ max + rounds) :
    (es.take max).Perm (evictDownTo max rounds entries).entries := by
  induction rounds generalizing entries es with
  | zero =>
      rw [List.take_of_length_le (show es.length ≤ max from hrounds)]
      exact hperm
  | succ rounds ih =>
      unfold evictDownTo
      split
      · rename_i hlong
        rw [← hperm.length_eq] at hlong
        rcases List.eq_nil_or_concat' es with rfl | ⟨es, e, rfl⟩
        · simp at hlong
        · rw [coldest_eq hperm hsorted]
          have hlen : max ≤ es.length := by
            rw [List.length_append] at hlong
            exact Nat.le_of_lt_succ hlong
          have herase : es.Perm (entries.erase e.1).entries := by
            have hnodup := (List.perm_nodupKeys hperm).mpr entries.nodupKeys
            have hk := hperm.kerase (a := e.1) hnodup
            rwa [kerase_last hnodup] at hk
          rw [List.take_append_of_le_length hlen]
          apply ih herase ((List.pairwise_append.mp hsorted).1)
          simp only [List.length_append, List.length_cons, List.length_nil] at hrounds
          omega
      · rename_i hshort
        rw [List.take_of_length_le]
        · exact hperm
        · rw [hperm.length_eq]
          omega

-- ================================================================== refinement

/-- The row of an entry. -/
def row (e : Σ _ : Str, PathEntry) : Σ _ : Str, DriveFileMeta := ⟨e.1, e.2.file⟩

/-- The rows are the entries in the order of their clocks. -/
structure Refines (c : PathCache) (l : Lru Str DriveFileMeta) : Prop where
  bound : l.bound = c.maxEntries
  rows : ∃ es : List (Σ _ : Str, PathEntry), es.Perm c.entries.entries ∧ es.Pairwise Newer ∧ es.map row = l.rows
  clock : ∀ e ∈ c.entries.entries, e.2.usedAt ≤ c.pathClock

theorem keys_map_row (es : List (Σ _ : Str, PathEntry)) : (es.map row).keys = es.keys := by
  unfold List.keys
  rw [List.map_map]
  rfl

theorem kerase_map_row (k : Str) (es : List (Σ _ : Str, PathEntry)) :
    (es.map row).kerase k = (es.kerase k).map row := by
  induction es with
  | nil => rfl
  | cons e es ih =>
      rw [List.map_cons]
      by_cases hk : k = e.1
      · rw [List.kerase_cons_eq (s := row e) hk, List.kerase_cons_eq hk]
      · rw [List.kerase_cons_ne (s := row e) hk, List.kerase_cons_ne hk, List.map_cons, ih]

theorem dlookup_map_row (k : Str) (es : List (Σ _ : Str, PathEntry)) :
    (es.map row).dlookup k = (es.dlookup k).map fun e => e.file := by
  induction es with
  | nil => rfl
  | cons e es ih =>
      obtain ⟨k', e⟩ := e
      rw [List.map_cons]
      by_cases hk : k = k'
      · subst hk
        rw [row, List.dlookup_cons_eq, List.dlookup_cons_eq]
        rfl
      · rw [row, List.dlookup_cons_ne _ _ hk, List.dlookup_cons_ne _ _ hk, ih]

theorem Refines.lookup {c : PathCache} {l : Lru Str DriveFileMeta} (h : c.Refines l) (k : Str) :
    l.rows.dlookup k = (c.entries.lookup k).map fun e => e.file := by
  obtain ⟨es, hperm, hsorted, hrows⟩ := h.rows
  have hnodup := (List.perm_nodupKeys hperm).mpr c.entries.nodupKeys
  rw [← hrows, dlookup_map_row, AList.lookup, List.perm_dlookup k hnodup hperm]

theorem Refines.size {c : PathCache} {l : Lru Str DriveFileMeta} (h : c.Refines l) :
    l.rows.length = c.size := by
  obtain ⟨es, hperm, hsorted, hrows⟩ := h.rows
  rw [← hrows, List.length_map, hperm.length_eq]
  rfl

theorem Refines.mem_keys {c : PathCache} {l : Lru Str DriveFileMeta} (h : c.Refines l) {k : Str} :
    k ∈ l.rows.keys ↔ k ∈ c.entries := by
  obtain ⟨es, hperm, hsorted, hrows⟩ := h.rows
  rw [← hrows, keys_map_row, AList.mem_keys]
  exact (hperm.map _).mem_iff

/-- Evicting is trimming. -/
theorem Refines.evictPaths {c : PathCache} {l : Lru Str DriveFileMeta} (h : c.Refines l) :
    c.evictPaths.Refines { l with rows := trim l.bound l.rows } := by
  obtain ⟨es, hperm, hsorted, hrows⟩ := h.rows
  refine ⟨h.bound, ?_, ?_⟩
  · unfold PathCache.evictPaths trim
    rw [h.bound]
    by_cases hmax : c.maxEntries = 0
    · simp only [hmax, if_true]
      exact ⟨es, hperm, hsorted, hrows⟩
    · simp only [hmax, if_false]
      refine ⟨es.take c.maxEntries, ?_, hsorted.sublist (List.take_sublist _ _), ?_⟩
      · apply evictDownTo_perm hperm hsorted
        rw [hperm.length_eq]
        exact Nat.le_add_left _ _
      · rw [List.map_take, hrows]
  · intro e he
    apply h.clock e
    have hlookup := (AList.mem_lookup_iff (s := c.evictPaths.entries)).mpr he
    exact (AList.mem_lookup_iff (s := c.entries)).mp (lookup_evictPaths hlookup)

/-- A use moves the row to the front. -/
theorem Refines.touch {c : PathCache} {l : Lru Str DriveFileMeta} (h : c.Refines l) (k : Str)
    (e : PathEntry) (he : e.usedAt = c.pathClock + 1) :
    ({ c with pathClock := c.pathClock + 1, entries := c.entries.insert k e } : PathCache).Refines
      { l with rows := l.rows.kinsert k e.file } := by
  obtain ⟨es, hperm, hsorted, hrows⟩ := h.rows
  have hnodup := (List.perm_nodupKeys hperm).mpr c.entries.nodupKeys
  refine ⟨h.bound, ⟨es.kinsert k e, ?_, ?_, ?_⟩, ?_⟩
  · exact hperm.kinsert hnodup
  · rw [List.kinsert_def]
    apply List.Pairwise.cons
    · intro e' he'
      have hin : e' ∈ c.entries.entries := hperm.subset ((List.kerase_sublist k es).subset he')
      show e'.2.usedAt < e.usedAt
      rw [he]
      exact Nat.lt_succ_of_le (h.clock e' hin)
    · exact hsorted.sublist (List.kerase_sublist k es)
  · rw [← hrows, List.kinsert_def, List.kinsert_def, kerase_map_row]
    rfl
  · intro e' he'
    simp only [AList.entries_insert, List.mem_cons] at he'
    rcases he' with rfl | he'
    · exact Nat.le_of_eq he
    · exact Nat.le_succ_of_le (h.clock e' ((List.kerase_sublist k _).subset he'))

/-- One operation: the same answer and the same use, and the refinement is
kept. -/
theorem Refines.perform {c : PathCache} {l : Lru Str DriveFileMeta} (h : c.Refines l)
    (op : CacheOp) :
    (c.perform op).1.map Prod.fst = (l.perform op.toLru).1 ∧ c.used op = l.used op.toLru ∧
      (c.perform op).2.Refines (l.perform op.toLru).2 := by
  cases op with
  | put thread key file => exact ⟨rfl, rfl, (h.touch key.toString _ rfl).evictPaths⟩
  | tryGet thread key =>
      have hlookup := h.lookup key.toString
      cases hk : c.entries.lookup key.toString with
      | none =>
          rw [hk] at hlookup
          have hget : c.tryGet thread key = (none, c) := by
            simp only [PathCache.tryGet, hk]
          rw [CacheOp.toLru, Lru.perform_get_none hlookup, Lru.used_get_none hlookup]
          simp only [PathCache.perform, PathCache.used, hget]
          exact ⟨rfl, rfl, h⟩
      | some e =>
          rw [hk] at hlookup
          have hget : c.tryGet thread key = (some (e.file, c.isFresh thread e),
              { c with
                pathClock := c.pathClock + 1
                entries := c.entries.insert key.toString
                  { e with usedAt := c.pathClock + 1 } }) := by
            simp only [PathCache.tryGet, hk]
          rw [CacheOp.toLru, Lru.perform_get_some hlookup, Lru.used_get_some hlookup]
          simp only [PathCache.perform, PathCache.used, hget]
          exact ⟨rfl, rfl, h.touch key.toString _ rfl⟩
  | setMaxEntries max =>
      refine ⟨rfl, rfl, ?_⟩
      have hresized : ({ c with maxEntries := max } : PathCache).Refines { l with bound := max } :=
        ⟨rfl, h.rows, h.clock⟩
      exact hresized.evictPaths

-- ===================================================================== the laws

/-- The abstract map after a history. -/
def lruAfter (max : Nat) : List CacheOp → Lru Str DriveFileMeta
  | [] => { bound := max }
  | op :: past => ((lruAfter max past).perform op.toLru).2

/-- What has been put so far. -/
def puts (past : List CacheOp) : List (Σ _ : Str, DriveFileMeta) :=
  past.flatMap fun op => op.toLru.row.toList

theorem dlookup_puts (k : Str) (past : List CacheOp) :
    (puts past).dlookup k = (latestPut k past).map Prod.snd := by
  induction past with
  | nil => rfl
  | cons op past ih =>
      cases op with
      | put thread key file =>
          show ((⟨key.toString, file⟩ : Σ _ : Str, DriveFileMeta) :: puts past).dlookup k = _
          unfold latestPut
          by_cases hk : k = key.toString
          · rw [if_pos hk.symm, hk, List.dlookup_cons_eq]
            rfl
          · rw [if_neg (Ne.symm hk),
              List.dlookup_cons_ne _ (⟨key.toString, file⟩ : Σ _ : Str, DriveFileMeta) hk, ih]
      | tryGet thread key => exact ih
      | setMaxEntries max => exact ih

theorem latestPut_key {k : Str} {past : List CacheOp} {key : CacheKey} {file : DriveFileMeta}
    (h : latestPut k past = some (key, file)) : key.toString = k := by
  induction past with
  | nil => cases h
  | cons op past ih =>
      cases op with
      | put thread key' file' =>
          unfold latestPut at h
          split at h
          · rename_i hk
            cases h
            exact hk
          · exact ih h
      | tryGet thread key' => exact ih h
      | setMaxEntries max => exact ih h

/-- The cache and the abstract map after the same history. -/
theorem refines_after (c : PathCache) (past : List CacheOp) :
    (c.clear.after past).Refines (lruAfter c.maxEntries past) ∧
      Recorded (c.clear.uses past) (puts past) (lruAfter c.maxEntries past) := by
  induction past with
  | nil =>
      refine ⟨⟨rfl, ⟨[], List.Perm.refl _, List.Pairwise.nil, rfl⟩, ?_⟩, Recorded.empty _⟩
      intro e he
      cases he
  | cons op past ih =>
      obtain ⟨hrefines, hrecorded⟩ := ih
      obtain ⟨-, hused, hrefines'⟩ := hrefines.perform op
      refine ⟨hrefines', ?_⟩
      have hrecorded' := hrecorded.perform op.toLru
      rw [← hused] at hrecorded'
      exact hrecorded'

/-- What one operation does to a cache with a history of uses and puts. -/
structure ActsAsLru (c : PathCache) (op : CacheOp) (past : List CacheOp)
    (uses : List (Option Str)) : Prop where
  bounded : (c.perform op).2.maxEntries ≠ 0 → (c.perform op).2.size ≤ (c.perform op).2.maxEntries
  /-- What is evicted was used before all that is left. -/
  oldest : ∀ k, c.Evicted op k → ∀ k' ∈ (c.perform op).2.entries, lastUse k uses < lastUse k' uses
  /-- An eviction leaves a cache that is full. -/
  needed : ∀ k, c.Evicted op k →
    (c.perform op).2.maxEntries ≠ 0 ∧ (c.perform op).2.size = (c.perform op).2.maxEntries
  kept : ∀ thread key file, op = .put thread key file →
    ∃ e, (c.perform op).2.entries.lookup key.toString = some e ∧ e.file = file
  /-- Keys are told apart by their strings, so where the fields of keys can
  be, by the keys. -/
  latest : ∀ thread key file fresh, op = .tryGet thread key →
    (c.perform op).1 = some (file, fresh) →
    ∃ key', latestPut key.toString past = some (key', file) ∧
      ∀ n, key'.auth.FieldsApart n → key.auth.FieldsApart n → key' = key

theorem Refines.evicted {c : PathCache} {l : Lru Str DriveFileMeta} (h : c.Refines l)
    {op : CacheOp} {k : Str} (hk : c.Evicted op k) : Recency.Evicted l op.toLru k := by
  obtain ⟨hheld, hgone⟩ := hk
  obtain ⟨-, -, hrefines⟩ := h.perform op
  refine ⟨?_, ?_⟩
  · rcases hheld with hheld | ⟨thread, key, file, rfl, rfl⟩
    · exact .inl (h.mem_keys.mpr hheld)
    · exact .inr ⟨file, rfl⟩
  · intro hin
    exact hgone (hrefines.mem_keys.mp hin)

/-- For every sequence of `Put`, `TryGet` and `SetMaxEntries`, from an empty
cache: the cache answers as a bounded map that forgets the least recently
used row, and stays one. -/
theorem path_cache_is_lru (c : PathCache) (past : List CacheOp) (op : CacheOp) :
    (c.clear.after past).Refines (lruAfter c.maxEntries past) ∧
      ((c.clear.after past).perform op).1.map Prod.fst =
        ((lruAfter c.maxEntries past).perform op.toLru).1 ∧
      (c.clear.after (op :: past)).Refines (lruAfter c.maxEntries (op :: past)) ∧
      (c.clear.after past).ActsAsLru op past (c.clear.uses (op :: past)) := by
  obtain ⟨hrefines, hrecorded⟩ := refines_after c past
  obtain ⟨hanswer, hused, -⟩ := hrefines.perform op
  obtain ⟨hrefines', hrecorded'⟩ := refines_after c (op :: past)
  have huses : c.clear.uses (op :: past) =
      (lruAfter c.maxEntries past).used op.toLru :: c.clear.uses past := by
    rw [← hused]
    rfl
  refine ⟨hrefines, hanswer, hrefines', ?_, ?_, ?_, ?_, ?_⟩
  · intro hbound
    have hlen := hrecorded'.bounded (by rw [hrefines'.bound]; exact hbound)
    rwa [hrefines'.size, hrefines'.bound] at hlen
  · intro k hk k' hk'
    obtain ⟨-, -, holder⟩ := hrecorded.evicted (hrefines.evicted hk)
    rw [huses]
    exact holder k' (hrefines'.mem_keys.mpr hk')
  · intro k hk
    obtain ⟨hbound, hfull, -⟩ := hrecorded.evicted (hrefines.evicted hk)
    refine ⟨?_, ?_⟩
    · intro hzero
      exact hbound (hrefines'.bound.trans hzero)
    · exact hrefines'.size.symm.trans (hfull.trans hrefines'.bound)
  · intro thread key file hop
    subst hop
    have hmem := head_mem_trim (lruAfter c.maxEntries past).bound
      ⟨key.toString, file⟩ ((lruAfter c.maxEntries past).rows.kerase key.toString)
    have hlookup := (List.mem_dlookup_iff hrecorded'.nodupKeys).mpr hmem
    rw [Option.mem_def, hrefines'.lookup, Option.map_eq_some_iff] at hlookup
    exact hlookup
  · intro thread key file fresh hop hfound
    subst hop
    rw [hfound] at hanswer
    have hrow : (lruAfter c.maxEntries past).rows.dlookup key.toString = some file := by
      cases hk : (lruAfter c.maxEntries past).rows.dlookup key.toString with
      | none =>
          rw [CacheOp.toLru, Lru.perform_get_none hk] at hanswer
          cases hanswer
      | some a =>
          rw [CacheOp.toLru, Lru.perform_get_some hk] at hanswer
          exact hanswer.symm
    have hput := hrecorded.latest ⟨key.toString, file⟩ (List.of_mem_dlookup hrow)
    rw [dlookup_puts, Option.map_eq_some_iff] at hput
    obtain ⟨⟨key', file'⟩, hlatest, rfl⟩ := hput
    refine ⟨key', hlatest, ?_⟩
    intro n hkey' hkey
    exact CacheKey.toString_injective hkey' hkey (latestPut_key hlatest)

end PathCache

end GDrive
