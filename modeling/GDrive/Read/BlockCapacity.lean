/-
The capacity of the block cache, once nothing is in flight any more.

`EvictLocked` takes out what is ready, and a block becomes ready only when
its promise is set, which is after the eviction that its own completion ran.
So what no eviction can take is the bytes of the blocks that have come in and
are not ready yet (`pendingBytes`), and an eviction restores the bound just
if these fit (`within_evict`). Between two evictions nothing changes the
count but a `Clear`, so whether the bound holds at rest was decided by the
last one (`capacity_at_rest`).
-/
import GDrive.Read.BlockThreads

namespace GDrive

open Interaction

-- ========================================================== bytes of some entries

section Bytes

variable {entries : List (Σ _ : Str, BlockEntry)} {k : Str} {e : BlockEntry}

theorem entryBytes_filter_kerase (he : entries.dlookup k = some e)
    (p : (Σ _ : Str, BlockEntry) → Bool) :
    entryBytes (entries.filter p) =
      (if p ⟨k, e⟩ then e.bytes else 0) + entryBytes ((entries.kerase k).filter p) := by
  induction entries with
  | nil => cases he
  | cons x entries ih =>
      obtain ⟨k', e'⟩ := x
      by_cases hk : k = k'
      · subst hk
        rw [List.dlookup_cons_eq] at he
        cases he
        have hhead : k = (⟨k, e⟩ : Σ _ : Str, BlockEntry).1 := rfl
        rw [List.kerase_cons_eq hhead, List.filter_cons]
        split
        · rw [entryBytes_cons]
        · rw [Nat.zero_add]
      · rw [List.dlookup_cons_ne _ _ hk] at he
        have hsum := ih he
        rw [List.kerase_cons_ne hk, List.filter_cons, List.filter_cons]
        split
        · rw [entryBytes_cons, entryBytes_cons]
          omega
        · exact hsum

theorem length_filter_kerase (he : entries.dlookup k = some e)
    {p : (Σ _ : Str, BlockEntry) → Bool} (hp : p ⟨k, e⟩ = true) :
    (entries.filter p).length = ((entries.kerase k).filter p).length + 1 := by
  induction entries with
  | nil => cases he
  | cons x entries ih =>
      obtain ⟨k', e'⟩ := x
      by_cases hk : k = k'
      · subst hk
        rw [List.dlookup_cons_eq] at he
        cases he
        have hhead : k = (⟨k, e⟩ : Σ _ : Str, BlockEntry).1 := rfl
        rw [List.kerase_cons_eq hhead, List.filter_cons, if_pos hp, List.length_cons]
      · rw [List.dlookup_cons_ne _ _ hk] at he
        have hlen := ih he
        rw [List.kerase_cons_ne hk, List.filter_cons, List.filter_cons]
        split
        · rw [List.length_cons, List.length_cons, hlen]
        · exact hlen

theorem entryBytes_filter_le (p : (Σ _ : Str, BlockEntry) → Bool) :
    entryBytes (entries.filter p) ≤ entryBytes entries := by
  induction entries with
  | nil => exact Nat.le_refl _
  | cons x entries ih =>
      rw [List.filter_cons, entryBytes_cons]
      split
      · rw [entryBytes_cons]
        omega
      · omega

end Bytes

namespace BlockCache

variable {c : BlockCache} {k : Str} {e : BlockEntry}

/-- Nothing has become of the entry's future yet. -/
def isPending (e : Σ _ : Str, BlockEntry) : Bool := e.2.value.isNone

/-- The bytes that no eviction takes. -/
def pendingBytes (c : BlockCache) : Nat := entryBytes (c.blocks.entries.filter isPending)

/-- The entries that an eviction may take. -/
def readyCount (c : BlockCache) : Nat :=
  (c.blocks.entries.filter fun e => e.2.value.isSome).length

theorem readyCount_of_none (h : c.coldestReady = none) : c.readyCount = 0 := by
  unfold coldestReady at h
  rw [List.argmin_eq_none] at h
  unfold readyCount
  rw [h]
  rfl

/-- Where nothing is ready, everything is pending. -/
theorem pendingBytes_of_noneReady (h : c.readyCount = 0) : c.pendingBytes = c.residentBytes := by
  unfold pendingBytes residentBytes
  congr 1
  rw [List.filter_eq_self]
  intro x hx
  have hready := List.length_eq_zero_iff.mp h
  rw [List.filter_eq_nil_iff] at hready
  have hvalue := hready x hx
  unfold isPending
  cases hv : x.2.value with
  | none => rfl
  | some data =>
      rw [hv] at hvalue
      exact absurd rfl hvalue

theorem Balanced.pendingBytes_le (h : c.Balanced) : c.pendingBytes ≤ c.cachedBytes := by
  rw [h]
  exact entryBytes_filter_le _

/-- The loop of `EvictLocked`, given a round for every entry it may take: it
leaves the pending ones, and stops at the bound or with nothing else left. -/
theorem evictDown_bound {rounds : Nat} (h : c.Balanced) (hrounds : c.readyCount ≤ rounds) :
    (BlockCache.evictDown rounds c).pendingBytes = c.pendingBytes ∧
      ((BlockCache.evictDown rounds c).cachedBytes ≤ c.capacityBytes ∨
        (BlockCache.evictDown rounds c).cachedBytes = c.pendingBytes) := by
  induction rounds generalizing c with
  | zero =>
      refine ⟨rfl, .inr ?_⟩
      rw [pendingBytes_of_noneReady (Nat.le_zero.mp hrounds)]
      exact h
  | succ rounds ih =>
      unfold BlockCache.evictDown
      split
      · split
        · rename_i hnone
          refine ⟨rfl, .inr ?_⟩
          rw [pendingBytes_of_noneReady (readyCount_of_none hnone)]
          exact h
        · rename_i victim hvictim
          obtain ⟨hlookup, hvalue⟩ := coldestReady_spec hvictim
          have hsome := Option.isSome_iff_ne_none.mpr hvalue
          have hpending : isPending ⟨victim.1, victim.2⟩ = false := by
            unfold isPending
            rw [Option.isNone_eq_false_iff]
            exact hsome
          have hsame := entryBytes_filter_kerase hlookup isPending
          rw [hpending, if_neg Bool.false_ne_true, Nat.zero_add] at hsame
          have hcount : c.readyCount =
              ({ c with
                cachedBytes := c.cachedBytes - victim.2.bytes
                blocks := c.blocks.erase victim.1 } : BlockCache).readyCount + 1 :=
            length_filter_kerase (p := fun e => e.2.value.isSome) hlookup hsome
          obtain ⟨hkept, hbound⟩ := ih (c :=
            { c with
              cachedBytes := c.cachedBytes - victim.2.bytes
              blocks := c.blocks.erase victim.1 }) (h.erase hlookup)
            (by omega)
          unfold pendingBytes at hkept hbound ⊢
          rw [hsame]
          exact ⟨hkept, hbound⟩
      · rename_i hwithin
        exact ⟨rfl, .inl (Nat.le_of_not_lt hwithin)⟩

/-- So many bytes fit: without a capacity nothing is kept at all. -/
def Fits (capacity bytes : Nat) : Prop := capacity = 0 ∨ bytes ≤ capacity

/-- An eviction restores the bound just if the pending bytes fit. -/
theorem within_evict (h : c.Balanced) :
    c.evict.cachedBytes ≤ c.evict.capacityBytes ↔ Fits c.capacityBytes c.pendingBytes := by
  rw [(evict_rest c).1]
  unfold Fits
  by_cases hzero : c.capacityBytes = 0
  · unfold evict
    rw [if_pos hzero]
    exact ⟨fun _ => .inl hzero, fun _ => Nat.zero_le _⟩
  · have hle := h.evict.pendingBytes_le
    unfold evict at hle ⊢
    rw [if_neg hzero] at hle ⊢
    obtain ⟨hkept, hbound⟩ := evictDown_bound h
      (List.length_filter_le _ c.blocks.entries : c.readyCount ≤ c.blocks.entries.length)
    rw [hkept] at hle
    constructor
    · intro hwithin
      exact .inr (Nat.le_trans hle hwithin)
    · intro hfits
      rcases hbound with hbound | hbound
      · exact hbound
      · rw [hbound]
        exact hfits.resolve_left hzero

/-- What a completed fetch adds to the count: its bytes, if its entry is
still its own. -/
def arriving (k : Str) (g : Nat) (data : Str) (c : BlockCache) : Nat :=
  match c.blocks.lookup k with
  | some e => if e.generation = g then data.length else 0
  | none => 0

theorem pendingBytes_finished {g : Nat} {data : Str}
    (hown : ∀ e, c.blocks.lookup k = some e → e.generation = g → e.bytes = 0 ∧ e.value = none) :
    (c.finished k g data).pendingBytes = c.pendingBytes + c.arriving k g data := by
  unfold finished arriving
  cases he : c.blocks.lookup k with
  | none => rfl
  | some e =>
    simp only
    split
    · rename_i hg
      obtain ⟨hbytes, hvalue⟩ := hown e he hg
      have hpending : ∀ bytes, isPending ⟨k, { e with bytes }⟩ = true := by
        intro bytes
        unfold isPending
        rw [hvalue]
        rfl
      have hsame := entryBytes_filter_kerase he isPending
      rw [hbytes, ite_self, Nat.zero_add] at hsame
      unfold pendingBytes
      rw [AList.entries_insert, List.filter_cons, if_pos (hpending _), entryBytes_cons, hsame]
      exact Nat.add_comm _ _
    · rfl

theorem deliver_cachedBytes (k : Str) (g : Nat) (data : Str) (c : BlockCache) :
    (c.deliver k g data).cachedBytes = c.cachedBytes := by
  unfold deliver
  split
  · split <;> rfl
  · rfl

end BlockCache

-- ================================================================== the events

namespace BlockThreads

variable {ε : Type} {s s' : BlockThreads ε}

/-- The bound. -/
def Within (s : BlockThreads ε) : Prop := s.cache.cachedBytes ≤ s.cache.capacityBytes

/-- No fetch is in flight: every promise is set. -/
def AtRest (s : BlockThreads ε) : Prop :=
  ∀ g f, s.fetches g = some f → ∃ r, f.status = .delivered r

/-- The events that run `EvictLocked`. -/
def Evicts : BlockEvent ε → Prop
  | .finished _ _ | .setCapacity _ => True
  | _ => False

/-- What an eviction cannot take fits: the blocks that have come in and are
not ready, the one that comes in now with them. -/
def Fitting (s : BlockThreads ε) : BlockEvent ε → Prop
  | .finished g data => ∀ q, s.fetches g = some ⟨q, .running⟩ →
      BlockCache.Fits s.cache.capacityBytes
        (s.cache.pendingBytes + s.cache.arriving q.fullKey g data)
  | .setCapacity bytes => BlockCache.Fits bytes s.cache.pendingBytes
  | _ => True

/-- A completion restores the bound just if it is fitting. -/
theorem ThreadsInv.within_finish (h : ThreadsInv s) {g : Nat} {q : BlockRequest} (data : Str)
    (hf : s.fetches g = some ⟨q, .running⟩) :
    (s.cache.finish q.fullKey g data).cachedBytes ≤ (s.cache.finish q.fullKey g data).capacityBytes ↔
      s.Fitting (.finished g data) := by
  have hown : ∀ e, s.cache.blocks.lookup q.fullKey = some e → e.generation = g →
      e.bytes = 0 ∧ e.value = none := by
    intro e he hg
    exact ⟨h.no_bytes (f := ⟨q, .running⟩) he (by rw [hg]; exact hf) rfl,
      h.no_value (f := ⟨q, .running⟩) he (by rw [hg]; exact hf) nofun⟩
  have hbalanced := h.balanced.finished data fun e he hg => (hown e he hg).1
  rw [BlockCache.finish_eq, BlockCache.within_evict hbalanced, (BlockCache.finished_rest ..).1,
    BlockCache.pendingBytes_finished hown]
  constructor
  · intro hfits q' hq'
    rw [hf] at hq'
    cases hq'
    exact hfits
  · intro hfits
    exact hfits q hf

/-- An event that evicts leaves the bound restored just if it is fitting. -/
theorem ThreadsInv.within_evicting (h : ThreadsInv s) {event : BlockEvent ε}
    (hs : s.step event = some s') (hevicts : Evicts event) : s'.Within ↔ s.Fitting event := by
  cases event with
  | finished g data =>
      unfold BlockThreads.step at hs
      simp only at hs
      split at hs
      · rename_i q hf
        cases hs
        exact h.within_finish data hf
      · cases hs
  | setCapacity bytes =>
      cases hs
      have hbalanced : ({ s.cache with capacityBytes := bytes } : BlockCache).Balanced := h.balanced
      exact BlockCache.within_evict hbalanced
  | _ => exact absurd hevicts id

/-- Any other event but a `Clear` leaves the count and the capacity alone. -/
theorem ThreadsInv.within_other (h : ThreadsInv s) {event : BlockEvent ε}
    (hs : s.step event = some s') (hevicts : ¬Evicts event) (hclear : event ≠ .clear) :
    s'.Within ↔ s.Within := by
  have hsame : s'.cache.cachedBytes = s.cache.cachedBytes ∧
      s'.cache.capacityBytes = s.cache.capacityBytes := by
    cases event with
    | getBlock c q =>
        unfold BlockThreads.step at hs
        simp only at hs
        split at hs
        · cases hs
        · cases hs
          cases he : s.cache.blocks.lookup q.fullKey with
          | some e =>
              rw [getBlock_of_some c he, BlockCache.acquire_of_some he]
              exact ⟨rfl, rfl⟩
          | none =>
              rw [getBlock_of_none c he, BlockCache.acquire_of_none he]
              exact ⟨rfl, rfl⟩
    | failed g error =>
        refine ⟨(h.failsClean hs).1, ?_⟩
        unfold BlockThreads.step at hs
        simp only at hs
        split at hs
        · cases hs
          exact (BlockCache.abandon_rest ..).1
        · cases hs
    | delivered g =>
        unfold BlockThreads.step at hs
        simp only at hs
        split at hs
        · rename_i q result hf
          cases hs
          cases result with
          | ok data => exact ⟨BlockCache.deliver_cachedBytes .., (BlockCache.deliver_rest ..).1⟩
          | error error => exact ⟨rfl, rfl⟩
        · cases hs
    | returned c =>
        unfold BlockThreads.step at hs
        simp only at hs
        split at hs
        · split at hs
          · cases hs
            exact ⟨rfl, rfl⟩
          · cases hs
        · cases hs
    | clear => exact absurd rfl hclear
    | finished g data => exact absurd trivial hevicts
    | setCapacity bytes => exact absurd trivial hevicts
  unfold Within
  rw [hsame.1, hsame.2]

/-- The bound, in every run whose completions and changes of the capacity are
all fitting. -/
theorem within_of_fitting (hr : Runs (fun s event _ => s.Fitting event) {} s) :
    ThreadsInv s ∧ s.Within := by
  refine Interaction.Runs.inv (I := fun s => ThreadsInv s ∧ s.Within) ?_
    ⟨threadsInv_start, Nat.le_refl 0⟩ hr
  intro s event s' hinv hs hfits
  refine ⟨hinv.1.step hs, ?_⟩
  by_cases hevicts : Evicts event
  · exact (hinv.1.within_evicting hs hevicts).mpr hfits
  · by_cases hclear : event = .clear
    · subst hclear
      cases hs
      exact Nat.zero_le _
    · exact (hinv.1.within_other hs hevicts hclear).mpr hinv.2

/-- After an event that evicts the bound stays as it was left, as long as no
other one comes, nor a `Clear`. -/
theorem within_since (h : ThreadsInv s)
    (hr : Runs (fun _ event _ => ¬Evicts event ∧ event ≠ .clear) s s') :
    s'.Within ↔ s.Within := by
  have hboth : ThreadsInv s' ∧ (s'.Within ↔ s.Within) := by
    refine Interaction.Runs.inv (I := fun s' => ThreadsInv s' ∧ (s'.Within ↔ s.Within)) ?_
      ⟨h, Iff.rfl⟩ hr
    intro s₁ event s₂ hinv hs hquiet
    exact ⟨hinv.1.step hs, (hinv.1.within_other hs hquiet.1 hquiet.2).trans hinv.2⟩
  exact hboth.2

/-- The capacity is kept at rest in every run whose completions and changes
of the capacity are all fitting. And it is the last one of these before a
rest that decides: after it the bound holds just if it was fitting, however
the run goes on, until the next one or a `Clear`. -/
theorem capacity_at_rest :
    (∀ s : BlockThreads ε, Runs (fun s event _ => s.Fitting event) {} s → s.AtRest → s.Within) ∧
    ∀ (s s₁ s₂ : BlockThreads ε) (event : BlockEvent ε), Reachable s → s.step event = some s₁ →
      Evicts event → Runs (fun _ event _ => ¬Evicts event ∧ event ≠ .clear) s₁ s₂ → s₂.AtRest →
      (s₂.Within ↔ s.Fitting event) := by
  constructor
  · intro s hr _
    exact (within_of_fitting hr).2
  · intro s s₁ s₂ event hs hstep hevicts hr _
    rw [within_since (hs.inv.step hstep) hr]
    exact hs.inv.within_evicting hstep hevicts

/-- The second block of a file of twelve bytes. -/
def halfBlock (i : Nat) : BlockRequest :=
  { key := str "k", blockIndex := i, blockSize := 6, fileSize := 12 }

/-- One block that fits, read and delivered. -/
theorem capacity_at_rest_case :
    ∃ s : BlockThreads Unit, s.AtRest ∧ s.cache.cachedBytes = 6 ∧ s.Within := by
  let s₁ : BlockThreads Unit := { cache := BlockCache.setCapacity 10 {} }
  let s₂ := s₁.getBlock 0 (halfBlock 0)
  let s₃ : BlockThreads Unit :=
    { s₂ with
      cache := s₂.cache.finish (halfBlock 0).fullKey 1 (str "abcdef")
      fetches := Function.update s₂.fetches 1
        (some ⟨halfBlock 0, .settled (.ok (str "abcdef"))⟩) }
  let s₄ : BlockThreads Unit :=
    { s₃ with
      cache := s₃.cache.deliver (halfBlock 0).fullKey 1 (str "abcdef")
      fetches := Function.update s₃.fetches 1
        (some ⟨halfBlock 0, .delivered (.ok (str "abcdef"))⟩) }
  have hfits : s₂.Fitting (.finished 1 (str "abcdef")) := by
    intro q hq
    have hfetch : s₂.fetches 1 = some ⟨halfBlock 0, .running⟩ := rfl
    rw [hfetch] at hq
    cases hq
    exact .inr (by decide +kernel)
  have hrun : Runs (fun s event _ => s.Fitting event) {} s₄ :=
    (((Relation.ReflTransGen.refl.tail ⟨.setCapacity 10, rfl, .inr (Nat.zero_le _)⟩).tail
      ⟨.getBlock 0 (halfBlock 0), rfl, trivial⟩).tail
      ⟨.finished 1 (str "abcdef"), rfl, hfits⟩).tail ⟨.delivered 1, rfl, trivial⟩
  have hrest : s₄.AtRest := by
    intro g f hf
    have hle := (within_of_fitting hrun).1.fetch_le hf
    have hgeneration : s₄.cache.nextGeneration = 1 := by decide +kernel
    rw [hgeneration] at hle
    obtain rfl | rfl : g = 0 ∨ g = 1 := by omega
    · have hnone : s₄.fetches 0 = none := rfl
      rw [hnone] at hf
      cases hf
    · have hfirst : s₄.fetches 1 = some ⟨halfBlock 0, .delivered (.ok (str "abcdef"))⟩ := rfl
      rw [hfirst] at hf
      cases hf
      exact ⟨_, rfl⟩
  exact ⟨s₄, hrest, by decide +kernel, capacity_at_rest.1 s₄ hrun hrest⟩

/-- Two blocks of six bytes for a capacity of ten: both come in before either
promise is set. -/
def overlapping : List (BlockEvent Unit) :=
  [.setCapacity 10, .getBlock 0 (halfBlock 0), .getBlock 1 (halfBlock 1),
    .finished 1 (str "abcdef"), .finished 2 (str "ghijkl"), .delivered 1, .delivered 2,
    .returned 0, .returned 1]

/-- What is left when both calls have returned. -/
def overlapped : BlockThreads Unit := (overlapping.foldlM BlockThreads.step {}).getD {}

theorem overlapped_reachable : Reachable overlapped := by
  have hrun : overlapping.foldlM BlockThreads.step {} = some overlapped := rfl
  exact Interaction.Runs.of_events hrun trivial

/-- At rest, twelve bytes are cached. -/
theorem capacity_exceeded_at_rest :
    Reachable overlapped ∧ overlapped.AtRest ∧ overlapped.cache.cachedBytes = 12 ∧
      overlapped.cache.capacityBytes = 10 ∧ ¬overlapped.Within := by
  have hcached : overlapped.cache.cachedBytes = 12 := by decide +kernel
  have hcapacity : overlapped.cache.capacityBytes = 10 := by decide +kernel
  have hgeneration : overlapped.cache.nextGeneration = 2 := by decide +kernel
  refine ⟨overlapped_reachable, ?_, hcached, hcapacity, ?_⟩
  · intro g f hf
    have hle := overlapped_reachable.inv.fetch_le hf
    rw [hgeneration] at hle
    obtain rfl | rfl | rfl : g = 0 ∨ g = 1 ∨ g = 2 := by omega
    · have hnone : overlapped.fetches 0 = none := rfl
      rw [hnone] at hf
      cases hf
    · have hfirst : overlapped.fetches 1 =
          some ⟨halfBlock 0, .delivered (.ok (str "abcdef"))⟩ := rfl
      rw [hfirst] at hf
      cases hf
      exact ⟨_, rfl⟩
    · have hsecond : overlapped.fetches 2 =
          some ⟨halfBlock 1, .delivered (.ok (str "ghijkl"))⟩ := rfl
      rw [hsecond] at hf
      cases hf
      exact ⟨_, rfl⟩
  · unfold Within
    rw [hcached, hcapacity]
    decide

end BlockThreads

end GDrive
