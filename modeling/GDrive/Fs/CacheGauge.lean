/-
The gauge of the path cache (gdrive_path_cache.cpp, gdrive_client.cpp): the
number that `gdrive_stats` gives for the live size of the cache.

# A second copy of the size

`Put` and `SetMaxEntries` end in an eviction, which sets the gauge. The other
operations leave it alone, and two of them take entries out: from then on the
gauge is too high, until it is set again. So it never lies below the size
(`size_le_gauge`), and meets it exactly where nothing was taken out since it
was last set (`gauge_eq_size_iff`).

Histories are lists of operations, newest first.
-/
import GDrive.Fs.PathCache

namespace GDrive

/-- The operations on the path entries, with their arguments. -/
inductive EntryOp
  | put (thread : Nat) (key : CacheKey) (file : DriveFileMeta)
  | tryGet (thread : Nat) (key : CacheKey)
  | setMaxEntries (max : Nat)
  | invalidatePrefix (key : CacheKey)
  | clear

/-- Does the operation set the gauge? -/
def EntryOp.setsGauge : EntryOp → Bool
  | .put _ _ _ | .setMaxEntries _ => true
  | .tryGet _ _ | .invalidatePrefix _ | .clear => false

namespace PathCache

/-- A cache that has just been made, whatever its bound and its clock. -/
def fresh (c : PathCache) : PathCache := { c with entries := ∅, metadataEntries := ∅, gauge := 0 }

def apply (c : PathCache) : EntryOp → PathCache
  | .put thread key file => c.put thread key file
  | .tryGet thread key => (c.tryGet thread key).2
  | .setMaxEntries max => c.setMaxEntries max
  | .invalidatePrefix key => c.invalidatePrefix key
  | .clear => c.clear

def applyAll (c : PathCache) : List EntryOp → PathCache
  | [] => c
  | op :: past => (c.applyAll past).apply op

/-- There is no entry that the operation would take out without setting the
gauge: none that the invalidation reaches, none at all. -/
def Spares (c : PathCache) : EntryOp → Prop
  | .put _ _ _ | .tryGet _ _ | .setMaxEntries _ => True
  | .invalidatePrefix key =>
      ∀ k ∈ c.entries, (key.auth.keyPrefix.isPrefixOf k && isBeneath key k) = false
  | .clear => ∀ k, k ∉ c.entries

/-- Since the gauge was last set nothing was taken out. -/
def KeptSince (c : PathCache) : List EntryOp → Prop
  | [] => True
  | op :: past => op.setsGauge = true ∨ ((c.applyAll past).Spares op ∧ c.KeptSince past)

-- =================================================================== one step

theorem gauge_evictPaths (c : PathCache) : c.evictPaths.gauge = c.evictPaths.size := rfl

theorem gauge_of_setsGauge (c : PathCache) {op : EntryOp} (h : op.setsGauge = true) :
    (c.apply op).gauge = (c.apply op).size := by
  cases op with
  | put thread key file => exact gauge_evictPaths _
  | setMaxEntries max => exact gauge_evictPaths _
  | tryGet thread key => cases h
  | invalidatePrefix key => cases h
  | clear => cases h

theorem gauge_apply (c : PathCache) {op : EntryOp} (h : op.setsGauge = false) :
    (c.apply op).gauge = c.gauge := by
  cases op with
  | put thread key file => cases h
  | setMaxEntries max => cases h
  | tryGet thread key =>
      show (c.tryGet thread key).2.gauge = c.gauge
      unfold tryGet
      split
      · rfl
      · rfl
  | invalidatePrefix key => rfl
  | clear => rfl

/-- A hit is a use of an entry that stays. -/
theorem size_tryGet (c : PathCache) (thread : Nat) (key : CacheKey) :
    (c.tryGet thread key).2.size = c.size := by
  unfold tryGet
  split
  · rfl
  · rename_i e he
    apply length_insert_of_mem
    rw [← AList.lookup_isSome, he]
    rfl

/-- Where the gauge is not set no entry is added, and none goes exactly where
the operation spares them. -/
theorem size_apply (c : PathCache) {op : EntryOp} (h : op.setsGauge = false) :
    (c.apply op).size ≤ c.size ∧ ((c.apply op).size = c.size ↔ c.Spares op) := by
  cases op with
  | put thread key file => cases h
  | setMaxEntries max => cases h
  | tryGet thread key =>
      have hsize := c.size_tryGet thread key
      exact ⟨Nat.le_of_eq hsize, iff_of_true hsize trivial⟩
  | invalidatePrefix key =>
      refine ⟨length_keepKeys_le _ c.entries, (length_keepKeys_eq_iff _ c.entries).trans ?_⟩
      simp only [Bool.not_eq_true', Spares]
  | clear =>
      refine ⟨Nat.zero_le _, ?_⟩
      show 0 = c.entries.entries.length ↔ ∀ k, k ∉ c.entries
      rw [eq_comm, ← length_keys, List.length_eq_zero_iff, List.eq_nil_iff_forall_not_mem]
      rfl

-- ================================================================= whole histories

/-- The gauge never lies below the size, and meets it exactly where nothing
was taken out since it was set. -/
theorem gauge_of_history (c : PathCache) (hsize : c.gauge = c.size) (past : List EntryOp) :
    (c.applyAll past).size ≤ (c.applyAll past).gauge ∧
      ((c.applyAll past).gauge = (c.applyAll past).size ↔ c.KeptSince past) := by
  induction past with
  | nil => exact ⟨Nat.le_of_eq hsize.symm, iff_of_true hsize trivial⟩
  | cons op past ih =>
      show ((c.applyAll past).apply op).size ≤ ((c.applyAll past).apply op).gauge ∧
        (((c.applyAll past).apply op).gauge = ((c.applyAll past).apply op).size ↔
          op.setsGauge = true ∨ ((c.applyAll past).Spares op ∧ c.KeptSince past))
      cases hsets : op.setsGauge with
      | true =>
          have hset := gauge_of_setsGauge (c.applyAll past) hsets
          exact ⟨Nat.le_of_eq hset.symm, iff_of_true hset (.inl rfl)⟩
      | false =>
          obtain ⟨hle, hspares⟩ := size_apply (c.applyAll past) hsets
          rw [gauge_apply _ hsets, ← hspares, ← ih.2]
          refine ⟨hle.trans ih.1, ?_⟩
          constructor
          · intro heq
            have hle' := ih.1
            exact .inr ⟨by omega, by omega⟩
          · rintro (hfalse | ⟨hkept, heq⟩)
            · cases hfalse
            · rw [hkept, heq]

/-- With one cache in the process the gauge is the number of its entries
exactly where nothing was taken out since the last `Put` or `SetMaxEntries`. -/
theorem gauge_eq_size_iff (c : PathCache) (past : List EntryOp) :
    (c.fresh.applyAll past).gauge = (c.fresh.applyAll past).size ↔ c.fresh.KeptSince past :=
  (c.fresh.gauge_of_history rfl past).2

/-- An entry is put and the cache is cleared. -/
theorem gauge_outlives_clear :
    ¬∀ past, (({} : PathCache).fresh.applyAll past).gauge =
      (({} : PathCache).fresh.applyAll past).size := by
  intro h
  have hcleared := h [.clear, .put 0 ⟨{ identity := [] }, []⟩ {}]
  revert hcleared
  decide

end PathCache

end GDrive
