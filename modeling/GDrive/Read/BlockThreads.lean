/-
The block cache under concurrency: any number of `GetBlock`, `SetCapacity`
and `Clear` calls, interleaved at the granularity of the lock.

# The model

Each critical section is one event, and so is each promise that is set and
each call that returns. A fetch is known by the generation of the entry it
was started for; its outcome arrives in its own time, when the entry may
have been cleared and inserted again by another call.

# The invariant

`ThreadsInv` ties the entries to the fetches: an entry is of the fetch of its
generation and key, it counts no bytes while the fetch runs, and it has no
value, so is not evicted, until the promise is set.
-/
import GDrive.Interaction.Threads
import GDrive.Read.BlockCache

namespace GDrive

open Interaction

-- ======================================================= bytes of the entries

section Bytes

/-- The byte counts of all entries. -/
def entryBytes (entries : List (Σ _ : Str, BlockEntry)) : Nat := (entries.map (·.2.bytes)).sum

theorem entryBytes_cons (x : Σ _ : Str, BlockEntry) (entries : List (Σ _ : Str, BlockEntry)) :
    entryBytes (x :: entries) = x.2.bytes + entryBytes entries := by
  simp only [entryBytes, List.map_cons, List.sum_cons]

theorem entryBytes_kerase {entries : List (Σ _ : Str, BlockEntry)} {k : Str} {e : BlockEntry}
    (he : entries.dlookup k = some e) :
    entryBytes entries = e.bytes + entryBytes (entries.kerase k) := by
  induction entries with
  | nil => cases he
  | cons x entries ih =>
      obtain ⟨k', e'⟩ := x
      by_cases hk : k = k'
      · subst hk
        rw [List.dlookup_cons_eq] at he
        cases he
        have hhead : k = (⟨k, e⟩ : Σ _ : Str, BlockEntry).1 := rfl
        rw [List.kerase_cons_eq hhead, entryBytes_cons]
      · rw [List.dlookup_cons_ne _ _ hk] at he
        have hsum := ih he
        rw [List.kerase_cons_ne hk, entryBytes_cons, entryBytes_cons]
        omega

end Bytes

namespace BlockCache

def residentBytes (c : BlockCache) : Nat := entryBytes c.blocks.entries

/-- The count is the sum of what is there. -/
def Balanced (c : BlockCache) : Prop := c.cachedBytes = c.residentBytes

variable {c : BlockCache} {k : Str} {e : BlockEntry}

theorem entryBytes_erase (he : c.blocks.lookup k = some e) :
    c.residentBytes = e.bytes + entryBytes (c.blocks.erase k).entries := entryBytes_kerase he

theorem entryBytes_insert (he : c.blocks.lookup k = some e) (e' : BlockEntry) :
    entryBytes (c.blocks.insert k e').entries + e.bytes = c.residentBytes + e'.bytes := by
  have hsum := entryBytes_erase he
  rw [AList.entries_insert, entryBytes_cons]
  change _ = _ + entryBytes (List.kerase k c.blocks.entries) at hsum
  simp only
  omega

theorem entryBytes_insert_new (he : c.blocks.lookup k = none) (e' : BlockEntry) :
    entryBytes (c.blocks.insert k e').entries = e'.bytes + c.residentBytes := by
  rw [AList.entries_insert_of_notMem (AList.lookup_eq_none.mp he), entryBytes_cons]
  rfl

/-- No subtraction takes more than is counted. -/
theorem Balanced.bytes_le (h : c.Balanced) (he : c.blocks.lookup k = some e) :
    e.bytes ≤ c.cachedBytes := by
  have hsum := entryBytes_erase he
  rw [Balanced] at h
  omega

-- ================================================================ evictions

/-- A victim is there, and its fetch has completed. -/
theorem coldestReady_spec {victim : Σ _ : Str, BlockEntry} (h : c.coldestReady = some victim) :
    c.blocks.lookup victim.1 = some victim.2 ∧ victim.2.value ≠ none := by
  obtain ⟨hmem, hready⟩ := List.mem_filter.mp (List.argmin_mem (Option.mem_def.mpr h))
  refine ⟨AList.mem_lookup_iff.mpr hmem, ?_⟩
  exact Option.isSome_iff_ne_none.mp hready

/-- An entry goes, and its bytes with it. -/
theorem Balanced.erase (h : c.Balanced) (he : c.blocks.lookup k = some e) :
    ({ c with
      cachedBytes := c.cachedBytes - e.bytes
      blocks := c.blocks.erase k } : BlockCache).Balanced := by
  have hsum := entryBytes_erase he
  rw [Balanced] at h
  show c.cachedBytes - e.bytes = entryBytes (c.blocks.erase k).entries
  omega

theorem Balanced.evictDown (h : c.Balanced) (rounds : Nat) :
    (BlockCache.evictDown rounds c).Balanced := by
  induction rounds generalizing c with
  | zero => exact h
  | succ rounds ih =>
      unfold BlockCache.evictDown
      split
      · split
        · exact h
        · rename_i victim hvictim
          exact ih (h.erase (coldestReady_spec hvictim).1)
      · exact h

theorem Balanced.evict (h : c.Balanced) : c.evict.Balanced := by
  unfold BlockCache.evict
  split
  · rfl
  · exact h.evictDown _

/-- An entry without a value is not evicted. -/
theorem evictDown_inFlight {rounds : Nat} (he : c.blocks.lookup k = some e) (hv : e.value = none) :
    (BlockCache.evictDown rounds c).blocks.lookup k = some e := by
  induction rounds generalizing c with
  | zero => exact he
  | succ rounds ih =>
      unfold BlockCache.evictDown
      split
      · split
        · exact he
        · rename_i victim hvictim
          apply ih
          obtain ⟨hlookup, hready⟩ := coldestReady_spec hvictim
          have hk : k ≠ victim.1 := by
            rintro rfl
            rw [he] at hlookup
            cases hlookup
            exact hready hv
          rw [AList.lookup_erase_ne hk]
          exact he
      · exact he

theorem evict_inFlight (hcapacity : 0 < c.capacityBytes) (he : c.blocks.lookup k = some e)
    (hv : e.value = none) : c.evict.blocks.lookup k = some e := by
  unfold BlockCache.evict
  rw [if_neg (by omega)]
  exact evictDown_inFlight he hv

theorem evictDown_rest (rounds : Nat) (c : BlockCache) :
    (BlockCache.evictDown rounds c).capacityBytes = c.capacityBytes ∧
      (BlockCache.evictDown rounds c).nextGeneration = c.nextGeneration := by
  induction rounds generalizing c with
  | zero => exact ⟨rfl, rfl⟩
  | succ rounds ih =>
      unfold BlockCache.evictDown
      split
      · split
        · exact ⟨rfl, rfl⟩
        · exact ih _
      · exact ⟨rfl, rfl⟩

theorem evict_rest (c : BlockCache) :
    c.evict.capacityBytes = c.capacityBytes ∧ c.evict.nextGeneration = c.nextGeneration := by
  unfold BlockCache.evict
  split
  · exact ⟨rfl, rfl⟩
  · exact evictDown_rest _ _

-- ====================================================== the critical sections

theorem acquire_of_some (he : c.blocks.lookup k = some e) :
    (c.acquire k).2 =
      { c with
        clock := c.clock + 1
        blocks := c.blocks.insert k { e with usedAt := c.clock + 1 } } := by
  unfold acquire
  rw [he]

theorem acquire_of_none (he : c.blocks.lookup k = none) :
    (c.acquire k).2 =
      { c with
        clock := c.clock + 1
        nextGeneration := c.nextGeneration + 1
        blocks := c.blocks.insert k
          { usedAt := c.clock + 1, generation := c.nextGeneration + 1 } } := by
  unfold acquire
  rw [he]

theorem Balanced.acquire (h : c.Balanced) (k : Str) : (c.acquire k).2.Balanced := by
  rw [Balanced] at h
  cases he : c.blocks.lookup k with
  | some e =>
      have hsum := entryBytes_insert he { e with usedAt := c.clock + 1 }
      rw [acquire_of_some he, Balanced, residentBytes]
      simp only at hsum ⊢
      omega
  | none =>
      have hsum := entryBytes_insert_new he
        { usedAt := c.clock + 1, generation := c.nextGeneration + 1 }
      rw [acquire_of_none he, Balanced, residentBytes]
      simp only at hsum ⊢
      omega

/-- The entry that a completed fetch finds. -/
def finished (k : Str) (g : Nat) (data : Str) (c : BlockCache) : BlockCache :=
  match c.blocks.lookup k with
  | some e =>
      if e.generation = g then
        { c with
          cachedBytes := c.cachedBytes + data.length
          blocks := c.blocks.insert k { e with bytes := data.length } }
      else c
  | none => c

theorem finish_eq (k : Str) (g : Nat) (data : Str) (c : BlockCache) :
    c.finish k g data = (c.finished k g data).evict := rfl

theorem Balanced.finished (h : c.Balanced) {g : Nat} (data : Str)
    (hown : ∀ e, c.blocks.lookup k = some e → e.generation = g → e.bytes = 0) :
    (c.finished k g data).Balanced := by
  unfold BlockCache.finished
  split
  · rename_i e he
    split
    · rename_i hg
      have hsum := entryBytes_insert he { e with bytes := data.length }
      have hzero := hown e he hg
      rw [Balanced] at h ⊢
      rw [residentBytes]
      simp only at hsum ⊢
      omega
    · exact h
  · exact h

/-- An entry after a fetch has completed: only its own has other bytes. -/
theorem lookup_finished {g : Nat} {data k' : Str} {e' : BlockEntry}
    (h : (c.finished k g data).blocks.lookup k' = some e') :
    ∃ e, c.blocks.lookup k' = some e ∧ e'.generation = e.generation ∧ e'.value = e.value ∧
      (e'.bytes = e.bytes ∨ (k' = k ∧ e.generation = g)) := by
  unfold finished at h
  split at h
  · rename_i e he
    split at h
    · rename_i hg
      by_cases hk : k' = k
      · rw [hk] at h ⊢
        simp only [AList.lookup_insert, Option.some.injEq] at h
        rw [← h]
        exact ⟨e, he, rfl, rfl, .inr ⟨rfl, hg⟩⟩
      · simp only [AList.lookup_insert_ne hk] at h
        exact ⟨e', h, rfl, rfl, .inl rfl⟩
    · exact ⟨e', h, rfl, rfl, .inl rfl⟩
  · exact ⟨e', h, rfl, rfl, .inl rfl⟩

/-- No entry goes when a fetch completes, before the eviction. -/
theorem finished_keeps (k : Str) (g : Nat) (data : Str) {k' : Str}
    (he : c.blocks.lookup k' = some e) :
    ∃ e', (c.finished k g data).blocks.lookup k' = some e' ∧ e'.generation = e.generation ∧
      e'.value = e.value := by
  unfold finished
  split
  · rename_i e₁ he₁
    split
    · by_cases hk : k' = k
      · rw [hk] at he ⊢
        rw [he] at he₁
        cases he₁
        exact ⟨_, AList.lookup_insert _, rfl, rfl⟩
      · exact ⟨e, by rw [AList.lookup_insert_ne hk]; exact he, rfl, rfl⟩
    · exact ⟨e, he, rfl, rfl⟩
  · exact ⟨e, he, rfl, rfl⟩

theorem finished_rest (k : Str) (g : Nat) (data : Str) (c : BlockCache) :
    (c.finished k g data).capacityBytes = c.capacityBytes ∧
      (c.finished k g data).nextGeneration = c.nextGeneration := by
  unfold finished
  split
  · split <;> exact ⟨rfl, rfl⟩
  · exact ⟨rfl, rfl⟩

theorem Balanced.deliver (h : c.Balanced) (k : Str) (g : Nat) (data : Str) :
    (c.deliver k g data).Balanced := by
  unfold BlockCache.deliver
  split
  · rename_i e he
    split
    · have hsum := entryBytes_insert he { e with value := some data }
      rw [Balanced] at h ⊢
      rw [residentBytes]
      simp only at hsum ⊢
      omega
    · exact h
  · exact h

/-- An entry after a promise was set: only its own has another value. -/
theorem lookup_deliver {g : Nat} {data k' : Str} {e' : BlockEntry}
    (h : (c.deliver k g data).blocks.lookup k' = some e') :
    ∃ e, c.blocks.lookup k' = some e ∧ e'.generation = e.generation ∧ e'.bytes = e.bytes ∧
      (e'.value = e.value ∨ (k' = k ∧ e.generation = g)) := by
  unfold deliver at h
  split at h
  · rename_i e he
    split at h
    · rename_i hg
      by_cases hk : k' = k
      · rw [hk] at h ⊢
        simp only [AList.lookup_insert, Option.some.injEq] at h
        rw [← h]
        exact ⟨e, he, rfl, rfl, .inr ⟨rfl, hg⟩⟩
      · simp only [AList.lookup_insert_ne hk] at h
        exact ⟨e', h, rfl, rfl, .inl rfl⟩
    · exact ⟨e', h, rfl, rfl, .inl rfl⟩
  · exact ⟨e', h, rfl, rfl, .inl rfl⟩

theorem deliver_keeps (k : Str) (g : Nat) (data : Str) {k' : Str}
    (he : c.blocks.lookup k' = some e) :
    ∃ e', (c.deliver k g data).blocks.lookup k' = some e' ∧ e'.generation = e.generation := by
  unfold deliver
  split
  · rename_i e₁ he₁
    split
    · by_cases hk : k' = k
      · rw [hk] at he ⊢
        rw [he] at he₁
        cases he₁
        exact ⟨_, AList.lookup_insert _, rfl⟩
      · exact ⟨e, by rw [AList.lookup_insert_ne hk]; exact he, rfl⟩
    · exact ⟨e, he, rfl⟩
  · exact ⟨e, he, rfl⟩

theorem deliver_rest (k : Str) (g : Nat) (data : Str) (c : BlockCache) :
    (c.deliver k g data).capacityBytes = c.capacityBytes ∧
      (c.deliver k g data).nextGeneration = c.nextGeneration := by
  unfold deliver
  split
  · split <;> exact ⟨rfl, rfl⟩
  · exact ⟨rfl, rfl⟩

theorem Balanced.abandon (h : c.Balanced) (k : Str) (g : Nat) : (c.abandon k g).Balanced := by
  unfold BlockCache.abandon
  split
  · rename_i e he
    split
    · exact h.erase he
    · exact h
  · exact h

theorem lookup_abandon {g : Nat} {k' : Str} {e' : BlockEntry} :
    (c.abandon k g).blocks.lookup k' = some e' ↔
      c.blocks.lookup k' = some e' ∧ ¬(k' = k ∧ e'.generation = g) := by
  unfold abandon
  split
  · rename_i e he
    split
    · rename_i hg
      by_cases hk : k' = k
      · rw [hk, he, AList.lookup_erase]
        constructor
        · exact nofun
        · intro ⟨heq, hne⟩
          cases heq
          exact absurd ⟨rfl, hg⟩ hne
      · simp only [AList.lookup_erase_ne hk]
        exact ⟨fun h => ⟨h, fun hc => hk hc.1⟩, fun h => h.1⟩
    · rename_i hg
      refine ⟨fun h => ⟨h, ?_⟩, fun h => h.1⟩
      rintro ⟨rfl, hg'⟩
      rw [he] at h
      cases h
      exact hg hg'
  · rename_i he
    refine ⟨fun h => ⟨h, ?_⟩, fun h => h.1⟩
    rintro ⟨rfl, -⟩
    rw [he] at h
    cases h

theorem abandon_rest (k : Str) (g : Nat) (c : BlockCache) :
    (c.abandon k g).capacityBytes = c.capacityBytes ∧
      (c.abandon k g).nextGeneration = c.nextGeneration := by
  unfold abandon
  split
  · split <;> exact ⟨rfl, rfl⟩
  · exact ⟨rfl, rfl⟩

end BlockCache

-- ================================================================= the threads

/-- The arguments of a `GetBlock` call. -/
structure BlockRequest where
  key : Str
  blockIndex : Nat
  blockSize : Nat
  fileSize : Nat

def BlockRequest.fullKey (q : BlockRequest) : Str := fullBlockKey q.key q.blockSize q.blockIndex

/-- A fetch, known by the generation of the entry it was started for. -/
abbrev BlockFetch (ε : Type) := Future BlockRequest (Except ε Str)

/-- A call and the fetch it waits for, its own or another's. -/
structure BlockCall (ε : Type) where
  request : BlockRequest
  generation : Nat
  result : Option (Except ε Str) := none

/-- The cache, the calls, and the fetches by their generations. -/
structure BlockThreads (ε : Type) where
  cache : BlockCache := {}
  calls : Nat → Option (BlockCall ε) := fun _ => none
  fetches : FutureTable BlockRequest (Except ε Str) := fun _ => none

/-- What happens next, in any thread. -/
inductive BlockEvent (ε : Type)
  /-- The first critical section of a call. -/
  | getBlock (call : Nat) (request : BlockRequest)
  /-- A fetch came back, and its call has been through the lock. -/
  | finished (generation : Nat) (data : Str)
  /-- A fetch threw, and its call has been through the lock. -/
  | failed (generation : Nat) (error : ε)
  /-- The promise of a fetch is set. -/
  | delivered (generation : Nat)
  /-- A call returns, or throws, what its future holds. -/
  | returned (call : Nat)
  | setCapacity (bytes : Nat)
  | clear

namespace BlockThreads

variable {ε : Type}

/-- The first critical section: an entry's future, or a new fetch. -/
def getBlock (s : BlockThreads ε) (call : Nat) (q : BlockRequest) : BlockThreads ε :=
  let cache := (s.cache.acquire q.fullKey).2
  match s.cache.blocks.lookup q.fullKey with
  | some e =>
      { s with
        cache
        calls := Function.update s.calls call (some { request := q, generation := e.generation }) }
  | none =>
      { cache
        calls := Function.update s.calls call
          (some { request := q, generation := s.cache.nextGeneration + 1 })
        fetches := Function.update s.fetches (s.cache.nextGeneration + 1) (some { request := q }) }

/-- What the entry of a fetch gets when the promise is set. A failed fetch
has none any more. -/
def deliverTo (cache : BlockCache) (q : BlockRequest) (g : Nat) : Except ε Str → BlockCache
  | .ok data => cache.deliver q.fullKey g data
  | .error _ => cache

/-- One event, where it can happen. -/
def step (s : BlockThreads ε) : BlockEvent ε → Option (BlockThreads ε)
  | .getBlock call q => if (s.calls call).isSome then none else some (s.getBlock call q)
  | .finished g data =>
      match s.fetches g with
      | some ⟨q, .running⟩ =>
          some { s with
            cache := s.cache.finish q.fullKey g data
            fetches := Function.update s.fetches g (some ⟨q, .settled (.ok data)⟩) }
      | _ => none
  | .failed g error =>
      match s.fetches g with
      | some ⟨q, .running⟩ =>
          some { s with
            cache := s.cache.abandon q.fullKey g
            fetches := Function.update s.fetches g (some ⟨q, .settled (.error error)⟩) }
      | _ => none
  | .delivered g =>
      match s.fetches g with
      | some ⟨q, .settled result⟩ =>
          some { s with
            cache := deliverTo s.cache q g result
            fetches := Function.update s.fetches g (some ⟨q, .delivered result⟩) }
      | _ => none
  | .returned call =>
      match s.calls call with
      | some ⟨q, g, none⟩ =>
          match s.fetches g with
          | some ⟨_, .delivered result⟩ =>
              some { s with calls := Function.update s.calls call (some ⟨q, g, some result⟩) }
          | _ => none
      | _ => none
  | .setCapacity bytes => some { s with cache := s.cache.setCapacity bytes }
  | .clear => some { s with cache := s.cache.clear }

/-- A run, each step of which meets `P`. -/
abbrev Runs (P : BlockThreads ε → BlockEvent ε → BlockThreads ε → Prop) :
    BlockThreads ε → BlockThreads ε → Prop :=
  Interaction.Runs step P

/-- What any interleaving of any calls leads to. -/
def Reachable (s : BlockThreads ε) : Prop := Runs (fun _ _ _ => True) {} s

-- =============================================================== the invariant

/-- An entry is of the fetch of its generation. -/
def EntryOf (fetches : Nat → Option (BlockFetch ε)) (k : Str) (e : BlockEntry) : Prop :=
  ∃ f, fetches e.generation = some f ∧ f.request.fullKey = k ∧
    (e.value ≠ none → ∃ r, f.status = .delivered r) ∧ (f.status = .running → e.bytes = 0)

structure ThreadsInv (s : BlockThreads ε) : Prop where
  balanced : s.cache.Balanced
  fetch_le : ∀ {g f}, s.fetches g = some f → g ≤ s.cache.nextGeneration
  entry : ∀ {k e}, s.cache.blocks.lookup k = some e → EntryOf s.fetches k e
  call : ∀ {c call}, s.calls c = some call →
    ∃ f, s.fetches call.generation = some f ∧ f.request.fullKey = call.request.fullKey ∧
      ∀ r, call.result = some r → f.status = .delivered r

variable {s s' : BlockThreads ε}

theorem threadsInv_start : ThreadsInv ({} : BlockThreads ε) := ⟨rfl, nofun, nofun, nofun⟩

/-- A change of the cache alone that only takes entries out. -/
theorem ThreadsInv.shrink (h : ThreadsInv s) {cache : BlockCache} (hbalanced : cache.Balanced)
    (hgeneration : cache.nextGeneration = s.cache.nextGeneration)
    (hentries : ∀ {k e}, cache.blocks.lookup k = some e → s.cache.blocks.lookup k = some e) :
    ThreadsInv { s with cache } :=
  ⟨hbalanced, fun hf => by rw [hgeneration]; exact h.fetch_le hf, fun he => h.entry (hentries he),
    h.call⟩

/-- A fetch goes on to another status, its entries with it. -/
theorem ThreadsInv.progress (h : ThreadsInv s) {g : Nat} {f : BlockFetch ε} (f' : BlockFetch ε)
    (hf : s.fetches g = some f) (hrequest : f'.request = f.request)
    (hstatus : ∀ r, f.status ≠ .delivered r) {cache : BlockCache} (hbalanced : cache.Balanced)
    (hgeneration : cache.nextGeneration = s.cache.nextGeneration)
    (hentries : ∀ {k e}, cache.blocks.lookup k = some e →
      EntryOf (Function.update s.fetches g (some f')) k e) :
    ThreadsInv { s with cache, fetches := Function.update s.fetches g (some f') } := by
  refine ⟨hbalanced, ?_, hentries, ?_⟩
  · intro g' f'' hf''
    rw [hgeneration]
    by_cases hg : g' = g
    · rw [hg]
      exact h.fetch_le hf
    · simp only [Function.update_of_ne hg] at hf''
      exact h.fetch_le hf''
  · intro c call hcall
    obtain ⟨f₀, hf₀, hkey, hresult⟩ := h.call hcall
    by_cases hg : call.generation = g
    · rw [hg, hf] at hf₀
      cases hf₀
      refine ⟨f', by rw [hg]; exact Function.update_self .., by rw [hrequest]; exact hkey, ?_⟩
      intro r hr
      exact absurd (hresult r hr) (hstatus r)
    · exact ⟨f₀, by simp only [Function.update_of_ne hg]; exact hf₀, hkey, hresult⟩

/-- The entry of a fetch that has gone on, or of another. -/
theorem EntryOf.update {fetches : Nat → Option (BlockFetch ε)} {k : Str} {e e' : BlockEntry} {g : Nat}
    {f f' : BlockFetch ε} (h : EntryOf fetches k e) (hf : fetches g = some f)
    (hrequest : f'.request = f.request) (hstatus : f'.status ≠ .running)
    (hgeneration : e'.generation = e.generation)
    (hvalue : e'.value = e.value ∨ e.generation = g)
    (hready : e.generation = g → e'.value ≠ none → ∃ r, f'.status = .delivered r)
    (hbytes : e'.bytes = e.bytes ∨ e.generation = g) :
    EntryOf (Function.update fetches g (some f')) k e' := by
  obtain ⟨f₀, hf₀, hkey, hdelivered, hzero⟩ := h
  by_cases hg : e.generation = g
  · rw [hg, hf] at hf₀
    cases hf₀
    refine ⟨f', by rw [hgeneration, hg]; exact Function.update_self .., by rw [hrequest]; exact hkey,
      hready hg, fun hrunning => absurd hrunning hstatus⟩
  · refine ⟨f₀, by rw [hgeneration, Function.update_of_ne hg]; exact hf₀, hkey, ?_, ?_⟩
    · rw [hvalue.resolve_right hg]
      exact hdelivered
    · rw [hbytes.resolve_right hg]
      exact hzero

/-- Before its promise is set a fetch's entry has no value. -/
theorem ThreadsInv.no_value (h : ThreadsInv s) {k : Str} {e : BlockEntry} {f : BlockFetch ε}
    (he : s.cache.blocks.lookup k = some e) (hf : s.fetches e.generation = some f)
    (hstatus : ∀ r, f.status ≠ .delivered r) : e.value = none := by
  obtain ⟨f₀, hf₀, -, hdelivered, -⟩ := h.entry he
  rw [hf] at hf₀
  cases hf₀
  by_contra hv
  obtain ⟨r, hr⟩ := hdelivered hv
  exact hstatus r hr

/-- While a fetch runs its entry counts no bytes. -/
theorem ThreadsInv.no_bytes (h : ThreadsInv s) {k : Str} {e : BlockEntry} {f : BlockFetch ε}
    (he : s.cache.blocks.lookup k = some e) (hf : s.fetches e.generation = some f)
    (hstatus : f.status = .running) : e.bytes = 0 := by
  obtain ⟨f₀, hf₀, -, -, hbytes⟩ := h.entry he
  rw [hf] at hf₀
  cases hf₀
  exact hbytes hstatus

-- ==================================================================== the steps

theorem getBlock_of_some (c : Nat) {q : BlockRequest} {e : BlockEntry}
    (he : s.cache.blocks.lookup q.fullKey = some e) :
    s.getBlock c q =
      { s with
        cache := (s.cache.acquire q.fullKey).2
        calls := Function.update s.calls c (some { request := q, generation := e.generation }) } := by
  unfold getBlock
  rw [he]

theorem getBlock_of_none (c : Nat) {q : BlockRequest}
    (he : s.cache.blocks.lookup q.fullKey = none) :
    s.getBlock c q =
      { cache := (s.cache.acquire q.fullKey).2
        calls := Function.update s.calls c
          (some { request := q, generation := s.cache.nextGeneration + 1 })
        fetches := Function.update s.fetches (s.cache.nextGeneration + 1)
          (some { request := q }) } := by
  unfold getBlock
  rw [he]

/-- A call that found an entry waits for that entry's fetch. -/
theorem ThreadsInv.wait (h : ThreadsInv s) (c : Nat) {q : BlockRequest} {e : BlockEntry}
    (he : s.cache.blocks.lookup q.fullKey = some e) : ThreadsInv (s.getBlock c q) := by
  have hbalanced := h.balanced.acquire q.fullKey
  rw [getBlock_of_some c he]
  rw [BlockCache.acquire_of_some he] at hbalanced ⊢
  refine ⟨hbalanced, h.fetch_le, ?_, ?_⟩
  · intro k e' he'
    by_cases hk : k = q.fullKey
    · rw [hk] at he' ⊢
      simp only [AList.lookup_insert, Option.some.injEq] at he'
      rw [← he']
      have hentry := h.entry he
      exact hentry
    · simp only [AList.lookup_insert_ne hk] at he'
      exact h.entry he'
  · intro c' call hcall
    by_cases hc : c' = c
    · rw [hc] at hcall
      simp only [Function.update_self, Option.some.injEq] at hcall
      obtain ⟨f, hf, hkey, -⟩ := h.entry he
      rw [← hcall]
      exact ⟨f, hf, hkey, nofun⟩
    · simp only [Function.update_of_ne hc] at hcall
      exact h.call hcall

/-- A call that found no entry starts a fetch. -/
theorem ThreadsInv.start (h : ThreadsInv s) (c : Nat) {q : BlockRequest}
    (he : s.cache.blocks.lookup q.fullKey = none) : ThreadsInv (s.getBlock c q) := by
  have hbalanced := h.balanced.acquire q.fullKey
  rw [getBlock_of_none c he]
  rw [BlockCache.acquire_of_none he] at hbalanced ⊢
  -- The new generation is of no earlier fetch.
  have hfresh : ∀ {g f}, s.fetches g = some f → g ≠ s.cache.nextGeneration + 1 := by
    intro g f hf
    have hle := h.fetch_le hf
    omega
  refine ⟨hbalanced, ?_, ?_, ?_⟩
  · intro g f hf
    by_cases hg : g = s.cache.nextGeneration + 1
    · exact le_of_eq hg
    · simp only [Function.update_of_ne hg] at hf
      exact le_trans (h.fetch_le hf) (Nat.le_succ _)
  · intro k e' he'
    by_cases hk : k = q.fullKey
    · rw [hk] at he' ⊢
      simp only [AList.lookup_insert, Option.some.injEq] at he'
      rw [← he']
      exact ⟨_, Function.update_self .., rfl, fun hv => absurd rfl hv, fun _ => rfl⟩
    · simp only [AList.lookup_insert_ne hk] at he'
      obtain ⟨f, hf, hrest⟩ := h.entry he'
      exact ⟨f, by simp only [Function.update_of_ne (hfresh hf)]; exact hf, hrest⟩
  · intro c' call hcall
    by_cases hc : c' = c
    · rw [hc] at hcall
      simp only [Function.update_self, Option.some.injEq] at hcall
      rw [← hcall]
      exact ⟨_, Function.update_self .., rfl, nofun⟩
    · simp only [Function.update_of_ne hc] at hcall
      obtain ⟨f, hf, hrest⟩ := h.call hcall
      exact ⟨f, by simp only [Function.update_of_ne (hfresh hf)]; exact hf, hrest⟩

theorem ThreadsInv.finish (h : ThreadsInv s) {g : Nat} {q : BlockRequest} (data : Str)
    (hf : s.fetches g = some ⟨q, .running⟩) :
    ThreadsInv { s with
      cache := s.cache.finish q.fullKey g data
      fetches := Function.update s.fetches g (some ⟨q, .settled (.ok data)⟩) } := by
  have hzero : ∀ e, s.cache.blocks.lookup q.fullKey = some e → e.generation = g → e.bytes = 0 := by
    intro e he hg
    exact h.no_bytes (f := ⟨q, .running⟩) he (by rw [hg]; exact hf) rfl
  refine h.progress ⟨q, .settled (.ok data)⟩ hf rfl nofun (h.balanced.finished data hzero).evict
    ?_ ?_
  · rw [BlockCache.finish_eq, (BlockCache.evict_rest _).2, (BlockCache.finished_rest ..).2]
  · intro k e' he'
    rw [BlockCache.finish_eq] at he'
    obtain ⟨e, he, hgeneration, hvalue, hbytes⟩ :=
      BlockCache.lookup_finished (BlockCache.lookup_evict he')
    refine (h.entry he).update hf rfl nofun hgeneration (.inl hvalue) ?_ (hbytes.imp_right (·.2))
    intro hg hv
    rw [hvalue, h.no_value (f := ⟨q, .running⟩) he (by rw [hg]; exact hf) nofun] at hv
    exact absurd rfl hv

theorem ThreadsInv.abandon (h : ThreadsInv s) {g : Nat} {q : BlockRequest} (error : ε)
    (hf : s.fetches g = some ⟨q, .running⟩) :
    ThreadsInv { s with
      cache := s.cache.abandon q.fullKey g
      fetches := Function.update s.fetches g (some ⟨q, .settled (.error error)⟩) } := by
  refine h.progress ⟨q, .settled (.error error)⟩ hf rfl nofun (h.balanced.abandon _ _)
    (BlockCache.abandon_rest ..).2 ?_
  intro k e he
  obtain ⟨he', -⟩ := BlockCache.lookup_abandon.mp he
  refine (h.entry he').update hf rfl nofun rfl (.inl rfl) ?_ (.inl rfl)
  intro hg hv
  exact absurd (h.no_value (f := ⟨q, .running⟩) he' (by rw [hg]; exact hf) nofun) hv

theorem ThreadsInv.deliver (h : ThreadsInv s) {g : Nat} {q : BlockRequest} {result : Except ε Str}
    (hf : s.fetches g = some ⟨q, .settled result⟩) :
    ThreadsInv { s with
      cache := deliverTo s.cache q g result
      fetches := Function.update s.fetches g (some ⟨q, .delivered result⟩) } := by
  cases result with
  | ok data =>
      refine h.progress ⟨q, .delivered (.ok data)⟩ hf rfl nofun (h.balanced.deliver ..)
        (BlockCache.deliver_rest ..).2 ?_
      intro k e' he'
      obtain ⟨e, he, hgeneration, hbytes, hvalue⟩ := BlockCache.lookup_deliver he'
      exact (h.entry he).update hf rfl nofun hgeneration (hvalue.imp_right (·.2))
        (fun _ _ => ⟨_, rfl⟩) (.inl hbytes)
  | error e =>
      refine h.progress ⟨q, .delivered (.error e)⟩ hf rfl nofun h.balanced rfl ?_
      intro k e' he'
      exact (h.entry he').update hf rfl nofun rfl (.inl rfl) (fun _ _ => ⟨_, rfl⟩) (.inl rfl)

theorem ThreadsInv.return (h : ThreadsInv s) {c g : Nat} {q q' : BlockRequest}
    {result : Except ε Str} (hcall : s.calls c = some ⟨q, g, none⟩)
    (hf : s.fetches g = some ⟨q', .delivered result⟩) :
    ThreadsInv { s with calls := Function.update s.calls c (some ⟨q, g, some result⟩) } := by
  refine ⟨h.balanced, h.fetch_le, h.entry, ?_⟩
  intro c' call hcall'
  by_cases hc : c' = c
  · rw [hc] at hcall'
    simp only [Function.update_self, Option.some.injEq] at hcall'
    obtain ⟨f, hf', hkey, -⟩ := h.call hcall
    rw [hf] at hf'
    cases hf'
    rw [← hcall']
    refine ⟨_, hf, hkey, ?_⟩
    intro r hr
    cases hr
    rfl
  · simp only [Function.update_of_ne hc] at hcall'
    exact h.call hcall'

/-- Every event keeps the invariant. -/
theorem ThreadsInv.step (h : ThreadsInv s) {event : BlockEvent ε} (hs : s.step event = some s') :
    ThreadsInv s' := by
  unfold BlockThreads.step at hs
  cases event with
  | getBlock c q =>
      simp only at hs
      split at hs
      · cases hs
      · cases hs
        cases he : s.cache.blocks.lookup q.fullKey with
        | some e => exact h.wait c he
        | none => exact h.start c he
  | finished g data =>
      simp only at hs
      split at hs
      · rename_i q hf
        cases hs
        exact h.finish data hf
      · cases hs
  | failed g error =>
      simp only at hs
      split at hs
      · rename_i q hf
        cases hs
        exact h.abandon error hf
      · cases hs
  | delivered g =>
      simp only at hs
      split at hs
      · rename_i q result hf
        cases hs
        exact h.deliver hf
      · cases hs
  | returned c =>
      simp only at hs
      split at hs
      · rename_i q g hcall
        split at hs
        · rename_i q' result hf
          cases hs
          exact h.return hcall hf
        · cases hs
      · cases hs
  | setCapacity bytes =>
      cases hs
      have hbalanced : { s.cache with capacityBytes := bytes }.Balanced := h.balanced
      exact h.shrink hbalanced.evict
        (BlockCache.evict_rest _).2 BlockCache.lookup_setCapacity
  | clear =>
      cases hs
      exact h.shrink rfl rfl nofun

theorem Reachable.inv (h : Reachable s) : ThreadsInv s :=
  Runs.inv (fun h hstep _ => h.step hstep) threadsInv_start h

-- ============================================================== the properties

/-- The fetch of a generation is in flight: its promise is not set, and it has
not failed. -/
def InFlight (s : BlockThreads ε) (g : Nat) (q : BlockRequest) : Prop :=
  s.fetches g = some ⟨q, .running⟩ ∨ ∃ data, s.fetches g = some ⟨q, .settled (.ok data)⟩

/-- The entry of a fetch is there. -/
def Resident (s : BlockThreads ε) (g : Nat) (q : BlockRequest) : Prop :=
  ∃ e, s.cache.blocks.lookup q.fullKey = some e ∧ e.generation = g

theorem InFlight.no_value {g : Nat} {q : BlockRequest} (hf : s.InFlight g q) (h : ThreadsInv s)
    {k : Str} {e : BlockEntry} (he : s.cache.blocks.lookup k = some e) (hg : e.generation = g) :
    e.value = none := by
  rw [← hg] at hf
  rcases hf with hf | ⟨data, hf⟩
  · exact h.no_value (f := ⟨q, .running⟩) he hf nofun
  · exact h.no_value (f := ⟨q, .settled (.ok data)⟩) he hf nofun

/-- While the capacity is positive, nothing but a `Clear` or its own failure
takes out an entry whose fetch is in flight. -/
theorem Resident.step {g : Nat} {q : BlockRequest} (hres : s.Resident g q) (h : ThreadsInv s)
    (hflight : s.InFlight g q) {event : BlockEvent ε} (hs : s.step event = some s')
    (hclear : event ≠ .clear) (hfail : ∀ e, event ≠ .failed g e)
    (hcapacity : 0 < s'.cache.capacityBytes) : s'.Resident g q := by
  obtain ⟨e, he, hg⟩ := hres
  have hv : e.value = none := hflight.no_value h he hg
  unfold BlockThreads.step at hs
  cases event with
  | getBlock c q' =>
      simp only at hs
      split at hs
      · cases hs
      · cases hs
        cases hlookup : s.cache.blocks.lookup q'.fullKey with
        | some e' =>
            rw [getBlock_of_some c hlookup, BlockCache.acquire_of_some hlookup]
            by_cases hk : q.fullKey = q'.fullKey
            · rw [hk, hlookup] at he
              cases he
              refine ⟨{ e with usedAt := s.cache.clock + 1 }, ?_, hg⟩
              rw [hk]
              exact AList.lookup_insert _
            · exact ⟨e, by rw [AList.lookup_insert_ne hk]; exact he, hg⟩
        | none =>
            rw [getBlock_of_none c hlookup, BlockCache.acquire_of_none hlookup]
            have hk : q.fullKey ≠ q'.fullKey := by
              intro hk
              rw [hk, hlookup] at he
              cases he
            exact ⟨e, by rw [AList.lookup_insert_ne hk]; exact he, hg⟩
  | finished g' data =>
      simp only at hs
      split at hs
      · rename_i q' hq
        cases hs
        obtain ⟨e', he', hg', hv'⟩ := BlockCache.finished_keeps q'.fullKey g' data he
        simp only at hcapacity
        rw [BlockCache.finish_eq, (BlockCache.evict_rest _).1] at hcapacity
        refine ⟨e', ?_, hg'.trans hg⟩
        rw [BlockCache.finish_eq]
        exact BlockCache.evict_inFlight hcapacity he' (hv'.trans hv)
      · cases hs
  | failed g' error =>
      simp only at hs
      split at hs
      · cases hs
        refine ⟨e, BlockCache.lookup_abandon.mpr ⟨he, ?_⟩, hg⟩
        intro ⟨_, hg'⟩
        rw [hg] at hg'
        exact hfail error (by rw [hg'])
      · cases hs
  | delivered g' =>
      simp only at hs
      split at hs
      · rename_i q' result hq
        cases hs
        cases result with
        | ok data =>
            obtain ⟨e', he', hg'⟩ := BlockCache.deliver_keeps q'.fullKey g' data he
            exact ⟨e', he', hg'.trans hg⟩
        | error err => exact ⟨e, he, hg⟩
      · cases hs
  | returned c =>
      simp only at hs
      split at hs
      · split at hs
        · cases hs
          exact ⟨e, he, hg⟩
        · cases hs
      · cases hs
  | setCapacity bytes =>
      cases hs
      refine ⟨e, ?_, hg⟩
      refine BlockCache.evict_inFlight (c := { s.cache with capacityBytes := bytes }) ?_ he hv
      rwa [← (BlockCache.evict_rest { s.cache with capacityBytes := bytes }).1]
  | clear => exact absurd rfl hclear

theorem advances (h : ThreadsInv s) {event : BlockEvent ε} (hs : s.step event = some s') :
    Advances s.fetches s'.fetches := by
  unfold BlockThreads.step at hs
  cases event with
  | getBlock c q =>
      simp only at hs
      split at hs
      · cases hs
      · cases hs
        cases hlookup : s.cache.blocks.lookup q.fullKey with
        | some e =>
            rw [getBlock_of_some c hlookup]
            exact .same
        | none =>
            rw [getBlock_of_none c hlookup]
            refine .start _ q ?_
            -- The new generation is of no earlier fetch.
            by_contra hsome
            obtain ⟨f, hf⟩ := Option.ne_none_iff_exists'.mp hsome
            have hle := h.fetch_le hf
            omega
  | finished g data =>
      simp only at hs
      split at hs
      · rename_i q hq
        cases hs
        exact .settle g q (.ok data) hq
      · cases hs
  | failed g error =>
      simp only at hs
      split at hs
      · rename_i q hq
        cases hs
        exact .settle g q (.error error) hq
      · cases hs
  | delivered g =>
      simp only at hs
      split at hs
      · rename_i q result hq
        cases hs
        exact .deliver g q _ result hq nofun
      · cases hs
  | returned c =>
      simp only at hs
      split at hs
      · split at hs
        · cases hs
          exact .same
        · cases hs
      · cases hs
  | setCapacity bytes =>
      cases hs
      exact .same
  | clear =>
      cases hs
      exact .same

/-- A fetch that is in flight has been so ever since it started. -/
theorem InFlight.before {g : Nat} {q : BlockRequest} (hr : s'.InFlight g q) (h : ThreadsInv s)
    {event : BlockEvent ε} (hs : s.step event = some s') {f : BlockFetch ε}
    (hf : s.fetches g = some f) : s.InFlight g q ∧ ∀ e, event ≠ .failed g e := by
  refine ⟨?_, ?_⟩
  · rcases hr with hr | ⟨data, hr⟩
    · exact .inl ((advances h hs).running hf hr)
    · exact ((advances h hs).settled hf hr).imp id fun hsettled => ⟨data, hsettled⟩
  · intro e hfailed
    unfold BlockThreads.step at hs
    rw [hfailed] at hs
    simp only at hs
    split at hs
    · cases hs
      simp only [InFlight, Function.update_self] at hr
      rcases hr with hr | ⟨data, hr⟩ <;> cases hr
    · cases hs

/-- What is asked of the events since an entry was inserted. -/
def Kept (_ : BlockThreads ε) (event : BlockEvent ε) (s' : BlockThreads ε) : Prop :=
  event ≠ .clear ∧ 0 < s'.cache.capacityBytes

theorem Resident.run
    {g : Nat} {q : BlockRequest} (h : ThreadsInv s) (hf : ∃ f, s.fetches g = some f)
    (hres : s.Resident g q) (hr : Runs Kept s s') (hflight : s'.InFlight g q) : s'.Resident g q := by
  have hboth : (∃ f, s'.fetches g = some f) ∧ (s'.InFlight g q → s'.Resident g q) := by
    clear hflight
    induction hr with
    | refl => exact ⟨hf, fun _ => hres⟩
    | tail hrun hstep ih =>
        obtain ⟨event, hs, hevent⟩ := hstep
        obtain ⟨⟨f, hf'⟩, hres'⟩ := ih
        have h' : ThreadsInv _ := Runs.inv (fun h hstep _ => h.step hstep) h hrun
        refine ⟨((advances h' hs).kept hf').imp fun _ hkept => hkept.1, ?_⟩
        intro hflight
        obtain ⟨hbefore, hfail⟩ := hflight.before h' hs hf'
        exact (hres' hbefore).step h' hbefore hs hevent.1 hfail hevent.2
  exact hboth.2 hflight

/-- The caches that the loop of `EvictLocked` runs on: after a `SetCapacity`,
and after a fetch has been accounted for. -/
def Evicting (s : BlockThreads ε) (c : BlockCache) : Prop :=
  (∃ bytes, c = { s.cache with capacityBytes := bytes }) ∨
  ∃ g q data, s.fetches g = some ⟨q, .running⟩ ∧ c = s.cache.finished q.fullKey g data

/-- The count is right, and nothing that is taken off it is more than it,
between the events and in every round of the loop. -/
structure CountsBytes (s : BlockThreads ε) : Prop where
  balanced : s.cache.Balanced
  bytes_le : ∀ {k e}, s.cache.blocks.lookup k = some e → e.bytes ≤ s.cache.cachedBytes
  evicting : ∀ {c}, s.Evicting c → ∀ rounds, (BlockCache.evictDown rounds c).Balanced ∧
    ∀ {k e}, (BlockCache.evictDown rounds c).blocks.lookup k = some e →
      e.bytes ≤ (BlockCache.evictDown rounds c).cachedBytes

/-- With a positive capacity the loop leaves every entry in flight. -/
def KeepsInFlight (s : BlockThreads ε) : Prop :=
  ∀ {c}, s.Evicting c → 0 < c.capacityBytes → ∀ {k e f}, c.blocks.lookup k = some e →
    s.fetches e.generation = some f → (∀ r, f.status ≠ .delivered r) →
    c.evict.blocks.lookup k = some e

/-- A fetch that a call starts now is the only one of its full key, for as
long as it is in flight, no `Clear` runs and the capacity is positive. -/
def SingleFlight (s : BlockThreads ε) : Prop :=
  ∀ {c q s₁}, s.step (.getBlock c q) = some s₁ → s.cache.blocks.lookup q.fullKey = none →
    ∀ {s₂}, Runs Kept s₁ s₂ →
      s₂.InFlight (s.cache.nextGeneration + 1) q →
      ∀ {c' q' s₃}, s₂.step (.getBlock c' q') = some s₃ → q'.fullKey = q.fullKey →
        s₃.fetches = s₂.fetches

/-- What a call returns or throws is the outcome of a fetch of the very block
that it asked for. -/
def AnswersOwn (s : BlockThreads ε) : Prop :=
  ∀ {c call r}, s.calls c = some call → call.result = some r →
    ∃ f, s.fetches call.generation = some f ∧ f.status = .delivered r ∧
      f.request.key = call.request.key ∧ f.request.blockSize = call.request.blockSize ∧
      f.request.blockIndex = call.request.blockIndex

/-- A failure takes out the entries of its own fetch and no other, and no
bytes. -/
def FailsClean (s : BlockThreads ε) : Prop :=
  ∀ {g error s'}, s.step (.failed g error) = some s' →
    s'.cache.cachedBytes = s.cache.cachedBytes ∧
    ∀ k e, s'.cache.blocks.lookup k = some e ↔
      s.cache.blocks.lookup k = some e ∧ e.generation ≠ g

theorem ThreadsInv.evicting (h : ThreadsInv s) {c : BlockCache} (hc : s.Evicting c) : c.Balanced := by
  rcases hc with ⟨bytes, rfl⟩ | ⟨g, q, data, hf, rfl⟩
  · exact h.balanced
  · refine h.balanced.finished data ?_
    intro e he hg
    exact h.no_bytes (f := ⟨q, .running⟩) he (by rw [hg]; exact hf) rfl

theorem ThreadsInv.countsBytes (h : ThreadsInv s) : CountsBytes s := by
  refine ⟨h.balanced, fun he => h.balanced.bytes_le he, ?_⟩
  intro c hc rounds
  have hbalanced := (h.evicting hc).evictDown rounds
  exact ⟨hbalanced, fun he => hbalanced.bytes_le he⟩

theorem ThreadsInv.keepsInFlight (h : ThreadsInv s) : KeepsInFlight s := by
  intro c hc hcapacity k e f he hf hflight
  refine BlockCache.evict_inFlight hcapacity he ?_
  rcases hc with ⟨bytes, rfl⟩ | ⟨g, q, data, -, rfl⟩
  · exact h.no_value he hf hflight
  · obtain ⟨e₀, he₀, hgeneration, hvalue, -⟩ := BlockCache.lookup_finished he
    rw [hvalue]
    exact h.no_value he₀ (by rw [← hgeneration]; exact hf) hflight

theorem ThreadsInv.singleFlight (h : ThreadsInv s) : SingleFlight s := by
  intro c q s₁ hs₁ he s₂ hrun hflight c' q' s₃ hs₃ hk
  have h₁ : ThreadsInv s₁ := h.step hs₁
  unfold BlockThreads.step at hs₁ hs₃
  simp only at hs₁ hs₃
  split at hs₁
  · cases hs₁
  · cases hs₁
    -- The entry that the first call inserted is still there.
    have hres : (s.getBlock c q).Resident (s.cache.nextGeneration + 1) q := by
      rw [getBlock_of_none c he, BlockCache.acquire_of_none he]
      exact ⟨_, AList.lookup_insert s.cache.blocks, rfl⟩
    have hf : ∃ f, (s.getBlock c q).fetches (s.cache.nextGeneration + 1) = some f := by
      rw [getBlock_of_none c he]
      exact ⟨{ request := q }, Function.update_self ..⟩
    obtain ⟨e, he₂, -⟩ := Resident.run h₁ hf hres hrun hflight
    split at hs₃
    · cases hs₃
    · cases hs₃
      rw [← hk] at he₂
      rw [getBlock_of_some c' he₂]

theorem ThreadsInv.answersOwn (h : ThreadsInv s) : AnswersOwn s := by
  intro c call r hcall hr
  obtain ⟨f, hf, hkey, hresult⟩ := h.call hcall
  refine ⟨f, hf, hresult r hr, ?_⟩
  exact fullBlockKey_injective hkey

theorem ThreadsInv.failsClean (h : ThreadsInv s) : FailsClean s := by
  intro g error s' hs
  unfold BlockThreads.step at hs
  simp only at hs
  split at hs
  · rename_i q hf
    cases hs
    refine ⟨?_, ?_⟩
    · show (s.cache.abandon q.fullKey g).cachedBytes = s.cache.cachedBytes
      unfold BlockCache.abandon
      split
      · rename_i e he
        split
        · rename_i hg
          have hzero := h.no_bytes (f := ⟨q, .running⟩) he (by rw [hg]; exact hf) rfl
          simp only
          omega
        · rfl
      · rfl
    · intro k e
      refine BlockCache.lookup_abandon.trans (and_congr_right ?_)
      intro he
      -- An entry of this fetch is under its key.
      have hown : e.generation = g → k = q.fullKey := by
        intro hg
        obtain ⟨f, hf', hkey, -⟩ := h.entry he
        rw [hg, hf] at hf'
        cases hf'
        exact hkey.symm
      exact ⟨fun hne hg => hne ⟨hown hg, hg⟩, fun hne hown' => hne hown'.2⟩
  · cases hs

/-- The block cache under every interleaving of its calls. -/
theorem block_cache_threads {s : BlockThreads ε} (hs : Reachable s) :
    CountsBytes s ∧ KeepsInFlight s ∧ SingleFlight s ∧ AnswersOwn s ∧ FailsClean s :=
  ⟨hs.inv.countsBytes, hs.inv.keepsInFlight, hs.inv.singleFlight, hs.inv.answersOwn,
    hs.inv.failsClean⟩

/-- The first block of a small file. -/
def firstBlock : BlockRequest := { key := str "k", blockIndex := 0, blockSize := 4, fileSize := 3 }

/-- A fetch, cleared away and started again by another call; then the first
one fails. -/
theorem block_cache_threads_case :
    ∃ s : BlockThreads Unit, (s.calls 1).isSome ∧ s.fetches 2 = some ⟨firstBlock, .running⟩ ∧
      (s.cache.blocks.lookup firstBlock.fullKey).isSome ∧
      CountsBytes s ∧ KeepsInFlight s ∧ SingleFlight s ∧ AnswersOwn s ∧ FailsClean s := by
  let s₁ : BlockThreads Unit := BlockThreads.getBlock {} 0 firstBlock
  let s₂ : BlockThreads Unit := { s₁ with cache := s₁.cache.clear }
  let s₃ := s₂.getBlock 1 firstBlock
  let s₄ : BlockThreads Unit :=
    { s₃ with
      cache := s₃.cache.abandon firstBlock.fullKey 1
      fetches := Function.update s₃.fetches 1 (some ⟨firstBlock, .settled (.error ())⟩) }
  have hrun : Reachable s₄ :=
    (((Relation.ReflTransGen.refl.tail ⟨.getBlock 0 firstBlock, rfl, trivial⟩).tail
      ⟨.clear, rfl, trivial⟩).tail ⟨.getBlock 1 firstBlock, rfl, trivial⟩).tail
      ⟨.failed 1 (), rfl, trivial⟩
  exact ⟨s₄, rfl, rfl, by decide +kernel, block_cache_threads hrun⟩

end BlockThreads

end GDrive
