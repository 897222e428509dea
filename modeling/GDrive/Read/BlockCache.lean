/-
`GDriveBlockCache` (gdrive_blockcache.cpp): blocks of file content, by
block key, block size and index.

The three critical sections of `GetBlock` are `acquire`, `finish` and
`abandon`; the fetch runs between them, outside the lock. An entry whose
fetch is in flight has no value yet. The value comes with the promise, which
is set after the lock is released (`deliver`), so a block is not evicted by
the call that brings it.
-/
import Mathlib.Data.List.AList
import Mathlib.Data.List.MinMax
import GDrive.Base.Str
import GDrive.Interaction.Code

namespace GDrive

open Interaction

structure BlockEntry where
  /-- Nothing while the fetch is in flight. -/
  value : Option Str := none
  bytes : Nat := 0
  usedAt : Nat := 0
  /-- Which insertion this is. -/
  generation : Nat := 0
  deriving DecidableEq

structure BlockCache where
  blocks : AList fun _ : Str => BlockEntry := ∅
  capacityBytes : Nat := 0
  cachedBytes : Nat := 0
  clock : Nat := 0
  nextGeneration : Nat := 0

/-- The key of one block. -/
def fullBlockKey (key : Str) (blockSize blockIndex : Nat) : Str :=
  key ++ [31] ++ decimal blockSize ++ [31] ++ decimal blockIndex

namespace BlockCache

/-- The least recently used entry whose fetch has completed. -/
def coldestReady (c : BlockCache) : Option (Σ _ : Str, BlockEntry) :=
  (c.blocks.entries.filter fun e => e.2.value.isSome).argmin fun e => e.2.usedAt

/-- The loop of `EvictLocked`; every round takes one entry out. -/
def evictDown : Nat → BlockCache → BlockCache
  | 0, c => c
  | rounds + 1, c =>
      if c.capacityBytes < c.cachedBytes then
        match c.coldestReady with
        | none => c
        | some victim =>
            evictDown rounds
              { c with
                cachedBytes := c.cachedBytes - victim.2.bytes
                blocks := c.blocks.erase victim.1 }
      else c

/-- `EvictLocked`. -/
def evict (c : BlockCache) : BlockCache :=
  if c.capacityBytes = 0 then { c with blocks := ∅, cachedBytes := 0 }
  else evictDown c.blocks.entries.length c

def setCapacity (bytes : Nat) (c : BlockCache) : BlockCache := { c with capacityBytes := bytes }.evict

def clear (c : BlockCache) : BlockCache := { c with blocks := ∅, cachedBytes := 0 }

/-- What the first critical section of `GetBlock` finds. -/
inductive Acquired
  | hit (value : Option Str)
  | fetch (generation : Nat)

/-- The entry of the block, or a new one in flight. -/
def acquire (fullKey : Str) (c : BlockCache) : Acquired × BlockCache :=
  match c.blocks.lookup fullKey with
  | some e =>
      (.hit e.value,
        { c with
          clock := c.clock + 1
          blocks := c.blocks.insert fullKey { e with usedAt := c.clock + 1 } })
  | none =>
      (.fetch (c.nextGeneration + 1),
        { c with
          clock := c.clock + 1
          nextGeneration := c.nextGeneration + 1
          blocks := c.blocks.insert fullKey
            { usedAt := c.clock + 1, generation := c.nextGeneration + 1 } })

/-- A fetch has completed: its bytes count if the entry is still its own. -/
def finish (fullKey : Str) (generation : Nat) (data : Str) (c : BlockCache) : BlockCache :=
  let c :=
    match c.blocks.lookup fullKey with
    | some e =>
        if e.generation = generation then
          { c with
            cachedBytes := c.cachedBytes + data.length
            blocks := c.blocks.insert fullKey { e with bytes := data.length } }
        else c
    | none => c
  c.evict

/-- `promise.set_value`: the future of the entry, if it is still there, is
ready. -/
def deliver (fullKey : Str) (generation : Nat) (data : Str) (c : BlockCache) : BlockCache :=
  match c.blocks.lookup fullKey with
  | some e =>
      if e.generation = generation then
        { c with blocks := c.blocks.insert fullKey { e with value := some data } }
      else c
  | none => c

/-- A fetch has failed: its entry goes, if it is still its own. -/
def abandon (fullKey : Str) (generation : Nat) (c : BlockCache) : BlockCache :=
  match c.blocks.lookup fullKey with
  | some e =>
      if e.generation = generation then
        { c with
          cachedBytes := c.cachedBytes - e.bytes
          blocks := c.blocks.erase fullKey }
      else c
  | none => c

end BlockCache

-- =========================================================== what is cached

/-- The separator and the digits of the two numbers tell the keys of one
file's blocks apart. -/
theorem fullBlockKey_injective {key key' : Str} {bs i bs' i' : Nat}
    (h : fullBlockKey key bs i = fullBlockKey key' bs' i') : key = key' ∧ bs = bs' ∧ i = i' := by
  have hsep : ∀ n, 31 ∉ decimal n := by
    intro n hmem
    exact absurd (isDigit_of_mem_decimal hmem) (by decide)
  have hfields : (key ++ 31 :: decimal bs) ++ 31 :: decimal i =
      (key' ++ 31 :: decimal bs') ++ 31 :: decimal i' := by
    simpa [fullBlockKey] using h
  obtain ⟨hfields, hi⟩ := cancel_last (hsep i) (hsep i') hfields
  obtain ⟨hkey, hbs⟩ := cancel_last (hsep bs) (hsep bs') hfields
  exact ⟨hkey, decimal_injective hbs, decimal_injective hi⟩

/-- Every block under `key`, except the one under `inFlight`, has come in
and is as `good` says a block of that size and index is. -/
def BlocksAre (good : Nat → Nat → Str → Prop) (key : Str) (inFlight : Option Str)
    (c : BlockCache) : Prop :=
  ∀ bs i e, some (fullBlockKey key bs i) ≠ inFlight →
    c.blocks.lookup (fullBlockKey key bs i) = some e →
    ∃ data, e.value = some data ∧ good bs i data

namespace BlockCache

/-- Eviction only takes blocks out. -/
theorem lookup_evictDown {rounds : Nat} {c : BlockCache} {k : Str} {e : BlockEntry}
    (h : (evictDown rounds c).blocks.lookup k = some e) : c.blocks.lookup k = some e := by
  induction rounds generalizing c with
  | zero => exact h
  | succ rounds ih =>
      unfold evictDown at h
      split at h
      · split at h
        · exact h
        · rename_i victim _
          have herase : (c.blocks.erase victim.1).lookup k = some e := ih h
          by_cases hk : k = victim.1
          · rw [hk, AList.lookup_erase] at herase
            cases herase
          · rwa [AList.lookup_erase_ne hk] at herase
      · exact h

theorem lookup_evict {c : BlockCache} {k : Str} {e : BlockEntry}
    (h : c.evict.blocks.lookup k = some e) : c.blocks.lookup k = some e := by
  unfold evict at h
  split at h
  · cases h
  · exact lookup_evictDown h

theorem lookup_setCapacity {c : BlockCache} {bytes : Nat} {k : Str} {e : BlockEntry}
    (h : (c.setCapacity bytes).blocks.lookup k = some e) : c.blocks.lookup k = some e :=
  lookup_evict (c := { c with capacityBytes := bytes }) h

end BlockCache

section Blocks

variable {good : Nat → Nat → Str → Prop} {key : Str} {c : BlockCache} {bs i : Nat}

/-- A hit is a block that has come in, and leaves every block as it was. -/
theorem BlocksAre.acquire_hit (h : BlocksAre good key none c) {value : Option Str}
    (hit : (c.acquire (fullBlockKey key bs i)).1 = .hit value) :
    (∃ data, value = some data ∧ good bs i data) ∧
      BlocksAre good key none (c.acquire (fullBlockKey key bs i)).2 := by
  unfold BlockCache.acquire at hit ⊢
  split at hit
  · rename_i e he
    cases hit
    refine ⟨h bs i e nofun he, ?_⟩
    intro bs' i' e' hne he'
    by_cases hk : fullBlockKey key bs' i' = fullBlockKey key bs i
    · rw [hk] at he'
      simp only [AList.lookup_insert, Option.some.injEq] at he'
      obtain ⟨-, rfl, rfl⟩ := fullBlockKey_injective hk
      rw [← he']
      exact h bs' i' e nofun he
    · simp only [AList.lookup_insert_ne hk] at he'
      exact h bs' i' e' hne he'
  · cases hit

/-- A miss leaves an entry in flight, of the insertion it was told. -/
theorem BlocksAre.acquire_fetch (h : BlocksAre good key none c) {generation : Nat}
    (miss : (c.acquire (fullBlockKey key bs i)).1 = .fetch generation) :
    (∃ e, (c.acquire (fullBlockKey key bs i)).2.blocks.lookup (fullBlockKey key bs i) = some e ∧
        e.generation = generation) ∧
      BlocksAre good key (some (fullBlockKey key bs i))
        (c.acquire (fullBlockKey key bs i)).2 := by
  unfold BlockCache.acquire at miss ⊢
  split at miss
  · cases miss
  · cases miss
    refine ⟨⟨_, AList.lookup_insert _, rfl⟩, ?_⟩
    intro bs' i' e' hne he'
    have hk : fullBlockKey key bs' i' ≠ fullBlockKey key bs i := fun heq => hne (by rw [heq])
    simp only [AList.lookup_insert_ne hk] at he'
    exact h bs' i' e' nofun he'

/-- The block that was in flight has come in, and is still its fetch's if it
was not evicted at once. -/
theorem BlocksAre.finish (h : BlocksAre good key (some (fullBlockKey key bs i)) c) {e : BlockEntry}
    (he : c.blocks.lookup (fullBlockKey key bs i) = some e) (data : Str) :
    BlocksAre good key (some (fullBlockKey key bs i))
        (c.finish (fullBlockKey key bs i) e.generation data) ∧
      ∀ e', (c.finish (fullBlockKey key bs i) e.generation data).blocks.lookup
        (fullBlockKey key bs i) = some e' → e'.generation = e.generation := by
  refine ⟨?_, ?_⟩
  · intro bs' i' e' hne he'
    have hentry := BlockCache.lookup_evict he'
    have hk : fullBlockKey key bs' i' ≠ fullBlockKey key bs i := fun heq => hne (by rw [heq])
    simp only [he, if_pos, AList.lookup_insert_ne hk] at hentry
    exact h bs' i' e' hne hentry
  · intro e' he'
    have hentry := BlockCache.lookup_evict he'
    simp only [he, if_pos, AList.lookup_insert, Option.some.injEq] at hentry
    rw [← hentry]

/-- The block that has come in can be read. -/
theorem BlocksAre.deliver (h : BlocksAre good key (some (fullBlockKey key bs i)) c)
    {generation : Nat}
    (hown : ∀ e, c.blocks.lookup (fullBlockKey key bs i) = some e → e.generation = generation)
    {data : Str} (hdata : good bs i data) :
    BlocksAre good key none (c.deliver (fullBlockKey key bs i) generation data) := by
  intro bs' i' e' _ he'
  unfold BlockCache.deliver at he'
  cases hlookup : c.blocks.lookup (fullBlockKey key bs i) with
  | none =>
      simp only [hlookup] at he'
      refine h bs' i' e' ?_ he'
      intro heq
      rw [Option.some.inj heq, hlookup] at he'
      cases he'
  | some e =>
      simp only [hlookup, hown e hlookup, if_pos] at he'
      by_cases hk : fullBlockKey key bs' i' = fullBlockKey key bs i
      · rw [hk] at he'
        simp only [AList.lookup_insert, Option.some.injEq] at he'
        obtain ⟨-, rfl, rfl⟩ := fullBlockKey_injective hk
        rw [← he']
        exact ⟨data, rfl, hdata⟩
      · simp only [AList.lookup_insert_ne hk] at he'
        exact h bs' i' e' (fun heq => hk (Option.some.inj heq)) he'

/-- The block that was in flight is gone. -/
theorem BlocksAre.abandon (h : BlocksAre good key (some (fullBlockKey key bs i)) c)
    {e : BlockEntry} (he : c.blocks.lookup (fullBlockKey key bs i) = some e) :
    BlocksAre good key none (c.abandon (fullBlockKey key bs i) e.generation) := by
  intro bs' i' e' _ he'
  unfold BlockCache.abandon at he'
  simp only [he, if_pos] at he'
  by_cases hk : fullBlockKey key bs' i' = fullBlockKey key bs i
  · rw [hk, AList.lookup_erase] at he'
    cases he'
  · rw [AList.lookup_erase_ne hk] at he'
    exact h bs' i' e' (fun heq => hk (Option.some.inj heq)) he'

end Blocks

-- =================================================================== GetBlock

/-- The start and the length of a block of a file. -/
def blockStart (blockIndex blockSize : Nat) : Nat := blockIndex * blockSize

def blockLength (blockIndex blockSize fileSize : Nat) : Nat :=
  min blockSize (fileSize - blockStart blockIndex blockSize)

/-- `GetBlock`, in a state with a block cache in it. A block that another
thread is fetching would be waited for; that is not followed here. -/
def getBlock {S : Sig} {ε σ : Type} (view : σ → BlockCache) (put : BlockCache → σ → σ)
    (key : Str) (blockIndex blockSize fileSize : Nat) (fetch : Nat → Nat → Code S ε σ Str) :
    Code S ε σ Str := do
  let fullKey := fullBlockKey key blockSize blockIndex
  let s ← Code.get
  Code.modify (put ((view s).acquire fullKey).2)
  match ((view s).acquire fullKey).1 with
  | .hit (some data) => pure data
  | .hit none => Code.cut
  | .fetch generation => do
      let data ← Code.onError
        (fetch (blockStart blockIndex blockSize) (blockLength blockIndex blockSize fileSize))
        (Code.modify fun s => put ((view s).abandon fullKey generation) s)
      Code.modify fun s => put ((view s).finish fullKey generation data) s
      Code.modify fun s => put ((view s).deliver fullKey generation data) s
      pure data

/-- The rule of `GetBlock`: the fetch has to bring a good block, or fail as
`bad` allows, and to leave the blocks and `I` alone. -/
theorem wp_getBlock {S : Sig} {ε σ W : Type} {E : Env S W} (view : σ → BlockCache)
    (put : BlockCache → σ → σ) (good : Nat → Nat → Str → Prop) (bad : ε → Prop)
    (I : σ → W → Prop) (hview : ∀ b s, view (put b s) = b)
    (hput : ∀ b s w, I s w → I (put b s) w) {key : Str} {i bs fileSize : Nat}
    {fetch : Nat → Nat → Code S ε σ Str}
    (hfetch : ∀ s w, I s w → Code.wp E (fetch (blockStart i bs) (blockLength i bs fileSize))
      (Code.outcome
        (fun data s' w' => good bs i data ∧ view s' = view s ∧ I s' w')
        (fun e s' w' => bad e ∧ view s' = view s ∧ I s' w')) s w)
    {s : σ} {w : W} (hblocks : BlocksAre good key none (view s)) (hI : I s w) :
    Code.wp E (getBlock view put key i bs fileSize fetch)
      (Code.outcome
        (fun data s' w' => good bs i data ∧ BlocksAre good key none (view s') ∧ I s' w')
        (fun e s' w' => bad e ∧ BlocksAre good key none (view s') ∧ I s' w')) s w := by
  unfold getBlock
  rw [Code.wp_bind, Code.wp_get, Code.outcome_ok, Code.wp_bind, Code.wp_modify, Code.outcome_ok]
  cases hacquire : ((view s).acquire (fullBlockKey key bs i)).1 with
  | hit value =>
      obtain ⟨⟨data, rfl, hgood⟩, hafter⟩ := hblocks.acquire_hit hacquire
      refine ⟨hgood, ?_, hput _ _ _ hI⟩
      rw [hview]
      exact hafter
  | fetch generation =>
      obtain ⟨⟨e, he, rfl⟩, hafter⟩ := hblocks.acquire_fetch hacquire
      simp only
      rw [Code.wp_bind, Code.wp_onError]
      refine Code.wp_mono (hfetch _ _ (hput _ _ _ hI)) ?_
      intro r s' w' hr
      cases r with
      | ok data =>
          obtain ⟨hgood, hsame, hI'⟩ := hr
          rw [hview] at hsame
          refine ⟨hgood, ?_, hput _ _ _ (hput _ _ _ hI')⟩
          rw [hview, hview, hsame]
          obtain ⟨hfinished, hown⟩ := hafter.finish he data
          exact hfinished.deliver hown hgood
      | error err =>
          obtain ⟨hbad, hsame, hI'⟩ := hr
          rw [hview] at hsame
          refine ⟨hbad, ?_, hput _ _ _ hI'⟩
          show BlocksAre good key none (view (put _ s'))
          rw [hview, hsame]
          exact hafter.abandon he

end GDrive
