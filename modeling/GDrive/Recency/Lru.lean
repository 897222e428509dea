/-
A bounded map that forgets the least recently used row.

# The map

The rows stand from the most to the least recently used one, so what a
bound takes away is the end of the list. Putting a row and finding one are
uses; changing the bound is not.

# What a history says

`lastUse` dates a key by the history of uses, newest first. In every state
that a history leads to the rows are in the order of their last uses, hold
what was put last under their keys, and are no more than the bound allows
(`Recorded.perform`). So what a step takes out was used before everything
it leaves, and it leaves a map that is full (`Recorded.evicted`).
-/
import Mathlib.Data.List.Sigma

namespace Recency

variable {κ α : Type}

-- ===================================================================== trimming

/-- What a bound leaves; 0 is none. -/
def trim (bound : Nat) (rows : List (Σ _ : κ, α)) : List (Σ _ : κ, α) :=
  if bound = 0 then rows else rows.take bound

theorem trim_initial (bound : Nat) (rows : List (Σ _ : κ, α)) : trim bound rows <+: rows := by
  unfold trim
  split
  · exact List.prefix_rfl
  · exact List.take_prefix bound rows

theorem length_trim {bound : Nat} (hbound : bound ≠ 0) (rows : List (Σ _ : κ, α)) :
    (trim bound rows).length ≤ bound := by
  rw [trim, if_neg hbound]
  exact List.length_take_le bound rows

theorem trim_of_fits {bound : Nat} {rows : List (Σ _ : κ, α)}
    (h : bound ≠ 0 → rows.length ≤ bound) : trim bound rows = rows := by
  unfold trim
  split
  · rfl
  · rename_i hbound
    exact List.take_of_length_le (h hbound)

/-- The newest row stays. -/
theorem head_mem_trim (bound : Nat) (r : Σ _ : κ, α) (rows : List (Σ _ : κ, α)) :
    r ∈ trim bound (r :: rows) := by
  unfold trim
  split
  · exact List.mem_cons_self
  · rename_i hbound
    obtain ⟨n, rfl⟩ := Nat.exists_eq_succ_of_ne_zero hbound
    exact List.mem_cons_self

/-- A row that is trimmed away stood behind all that stay, and those are as
many as may be. -/
theorem trimmed {bound : Nat} {rows : List (Σ _ : κ, α)}
    (older : (Σ _ : κ, α) → (Σ _ : κ, α) → Prop)
    (hrows : rows.Pairwise fun a b => older b a) {r : Σ _ : κ, α} (hr : r ∈ rows)
    (hgone : r ∉ trim bound rows) :
    bound ≠ 0 ∧ (trim bound rows).length = bound ∧ ∀ r' ∈ trim bound rows, older r r' := by
  unfold trim at hgone ⊢
  split at hgone
  · exact absurd hr hgone
  · rename_i hbound
    rw [if_neg hbound]
    have hdrop : r ∈ rows.drop bound := by
      rw [← List.take_append_drop bound rows, List.mem_append] at hr
      exact hr.resolve_left hgone
    refine ⟨hbound, ?_, ?_⟩
    · have hlen := List.length_pos_of_mem hdrop
      rw [List.length_drop] at hlen
      rw [List.length_take]
      omega
    · intro r' hr'
      rw [← List.take_append_drop bound rows, List.pairwise_append] at hrows
      exact hrows.2.2 r' hr' r hdrop

theorem mem_keys_iff {k : κ} {rows : List (Σ _ : κ, α)} :
    k ∈ rows.keys ↔ ∃ r ∈ rows, r.1 = k := by
  unfold List.keys
  rw [List.mem_map]

theorem mem_keys_trim {k : κ} {bound : Nat} {rows : List (Σ _ : κ, α)} {f : κ → Nat}
    (hrows : rows.Pairwise fun a b => f b.1 < f a.1) (hk : k ∈ rows.keys)
    (hgone : k ∉ (trim bound rows).keys) :
    bound ≠ 0 ∧ (trim bound rows).length = bound ∧
      ∀ k' ∈ (trim bound rows).keys, f k < f k' := by
  obtain ⟨r, hr, rfl⟩ := mem_keys_iff.mp hk
  have hgone' : r ∉ trim bound rows := by
    intro hr
    exact hgone (List.mem_keys_of_mem hr)
  obtain ⟨hbound, hlen, holder⟩ := trimmed (fun a b => f a.1 < f b.1) hrows hr hgone'
  refine ⟨hbound, hlen, ?_⟩
  intro k' hk'
  obtain ⟨r', hr', rfl⟩ := mem_keys_iff.mp hk'
  exact holder r' hr'

variable [DecidableEq κ]

-- ==================================================================== histories

/-- When a key was last used, as the number of events up to then; 0 if it
never was. -/
def lastUse (k : κ) : List (Option κ) → Nat
  | [] => 0
  | used :: past => if used = some k then past.length + 1 else lastUse k past

theorem lastUse_le (k : κ) (uses : List (Option κ)) : lastUse k uses ≤ uses.length := by
  induction uses with
  | nil => exact Nat.le_refl 0
  | cons used past ih =>
      unfold lastUse
      rw [List.length_cons]
      split
      · exact Nat.le_refl _
      · omega

theorem lastUse_self (k : κ) (uses : List (Option κ)) :
    lastUse k (some k :: uses) = uses.length + 1 := by
  unfold lastUse
  rw [if_pos rfl]

theorem lastUse_of_ne {k : κ} {used : Option κ} (h : used ≠ some k) (uses : List (Option κ)) :
    lastUse k (used :: uses) = lastUse k uses := by
  rw [lastUse, if_neg h]

-- ====================================================================== the map

/-- From the most to the least recently used row, and how many may stay. A
bound of 0 is none. -/
structure Lru (κ α : Type) where
  rows : List (Σ _ : κ, α) := []
  bound : Nat := 0

inductive Op (κ α : Type)
  | put (k : κ) (a : α)
  | get (k : κ)
  | resize (bound : Nat)

/-- The row that an operation puts. -/
def Op.row : Op κ α → Option (Σ _ : κ, α)
  | .put k a => some ⟨k, a⟩
  | .get _ => none
  | .resize _ => none

namespace Lru

/-- What the operation returns, and the map it leaves. -/
def perform (l : Lru κ α) : Op κ α → Option α × Lru κ α
  | .put k a => (none, { l with rows := trim l.bound (l.rows.kinsert k a) })
  | .get k =>
      match l.rows.dlookup k with
      | none => (none, l)
      | some a => (some a, { l with rows := l.rows.kinsert k a })
  | .resize bound => (none, { rows := trim bound l.rows, bound })

/-- The key that the operation uses. -/
def used (l : Lru κ α) : Op κ α → Option κ
  | .put k _ => some k
  | .get k => if (l.rows.dlookup k).isSome then some k else none
  | .resize _ => none

theorem perform_get_none {l : Lru κ α} {k : κ} (h : l.rows.dlookup k = none) :
    l.perform (.get k) = (none, l) := by
  simp only [perform, h]

theorem perform_get_some {l : Lru κ α} {k : κ} {a : α} (h : l.rows.dlookup k = some a) :
    l.perform (.get k) = (some a, { l with rows := l.rows.kinsert k a }) := by
  simp only [perform, h]

theorem used_get_none {l : Lru κ α} {k : κ} (h : l.rows.dlookup k = none) :
    l.used (.get k) = none := by
  simp [used, h]

theorem used_get_some {l : Lru κ α} {k : κ} {a : α} (h : l.rows.dlookup k = some a) :
    l.used (.get k) = some k := by
  simp [used, h]

end Lru

-- ================================================================== the history

/-- The rows by the uses and the puts so far, both newest first. -/
structure Recorded (uses : List (Option κ)) (puts : List (Σ _ : κ, α)) (l : Lru κ α) : Prop where
  bounded : l.bound ≠ 0 → l.rows.length ≤ l.bound
  recent : l.rows.Pairwise fun a b => lastUse b.1 uses < lastUse a.1 uses
  latest : ∀ r ∈ l.rows, puts.dlookup r.1 = some r.2

/-- The empty map. -/
theorem Recorded.empty (bound : Nat) : Recorded [] [] ({ bound } : Lru κ α) where
  bounded := by
    intro _
    exact Nat.zero_le _
  recent := List.Pairwise.nil
  latest := by simp

variable {uses : List (Option κ)} {puts : List (Σ _ : κ, α)} {l : Lru κ α}

theorem Recorded.nodupKeys (h : Recorded uses puts l) : l.rows.NodupKeys := by
  unfold List.NodupKeys List.keys
  rw [List.nodup_iff_pairwise_ne, List.pairwise_map]
  apply h.recent.imp
  intro a b hlt heq
  rw [heq] at hlt
  exact Nat.lt_irrefl _ hlt

theorem Recorded.ne_of_mem_kerase (h : Recorded uses puts l) {k : κ} {r : Σ _ : κ, α}
    (hr : r ∈ l.rows.kerase k) : r.1 ≠ k := by
  intro heq
  have hmem := List.mem_keys_of_mem hr
  rw [heq] at hmem
  exact List.notMem_keys_kerase k h.nodupKeys hmem

/-- A use of another key does not change the order of the others. -/
theorem recent_kerase (h : Recorded uses puts l) (k : κ) :
    (l.rows.kerase k).Pairwise fun a b =>
      lastUse b.1 (some k :: uses) < lastUse a.1 (some k :: uses) := by
  have hne : ∀ r ∈ l.rows.kerase k, some k ≠ some r.1 := by
    intro r hr heq
    exact h.ne_of_mem_kerase hr (Option.some.inj heq).symm
  apply (h.recent.sublist (List.kerase_sublist k l.rows)).imp_of_mem
  intro a b ha hb hlt
  rwa [lastUse_of_ne (hne a ha), lastUse_of_ne (hne b hb)]

/-- The row that is used comes first. -/
theorem recent_kinsert (h : Recorded uses puts l) (k : κ) (a : α) :
    (l.rows.kinsert k a).Pairwise fun a b =>
      lastUse b.1 (some k :: uses) < lastUse a.1 (some k :: uses) := by
  rw [List.kinsert_def]
  apply List.Pairwise.cons
  · intro r hr
    have hne : some k ≠ some r.1 := by
      intro heq
      exact h.ne_of_mem_kerase hr (Option.some.inj heq).symm
    rw [lastUse_self, lastUse_of_ne hne]
    exact Nat.lt_succ_of_le (lastUse_le _ _)
  · exact recent_kerase h k

theorem length_kerase_lt {k : κ} {rows : List (Σ _ : κ, α)} (h : k ∈ rows.keys) :
    (rows.kerase k).length < rows.length := by
  have hlen : (rows.kerase k).keys.length < rows.keys.length := by
    rw [List.keys_kerase, List.length_erase_of_mem h]
    exact Nat.sub_lt (List.length_pos_of_mem h) Nat.one_pos
  unfold List.keys at hlen
  rwa [List.length_map, List.length_map] at hlen

/-- Finding a row leaves as many. -/
theorem length_kinsert_le {k : κ} {a b : α} {rows : List (Σ _ : κ, α)}
    (h : rows.dlookup k = some b) : (rows.kinsert k a).length ≤ rows.length := by
  rw [List.kinsert_def, List.length_cons]
  apply length_kerase_lt
  rw [← List.dlookup_isSome, h]
  rfl

/-- One operation, with what it adds to the history. -/
theorem Recorded.perform (h : Recorded uses puts l) (op : Op κ α) :
    Recorded (l.used op :: uses) (op.row.toList ++ puts) (l.perform op).2 := by
  cases op with
  | put k a =>
      refine ⟨?_, ?_, ?_⟩
      · intro hbound
        exact length_trim hbound _
      · exact (recent_kinsert h k a).sublist (trim_initial _ _).sublist
      · intro r hr
        have hr := (trim_initial _ _).subset hr
        rw [List.kinsert_def, List.mem_cons] at hr
        rcases hr with rfl | hr
        · simp [Op.row]
        · have hold := h.latest r ((List.kerase_sublist k l.rows).subset hr)
          exact (List.dlookup_cons_ne puts (⟨k, a⟩ : Σ _ : κ, α) (h.ne_of_mem_kerase hr)).trans hold
  | get k =>
      cases hk : l.rows.dlookup k with
      | none =>
          rw [Lru.perform_get_none hk, Lru.used_get_none hk]
          refine ⟨h.bounded, ?_, h.latest⟩
          apply h.recent.imp
          intro a b hlt
          rwa [lastUse_of_ne (by simp), lastUse_of_ne (by simp)]
      | some a =>
          rw [Lru.perform_get_some hk, Lru.used_get_some hk]
          refine ⟨?_, recent_kinsert h k a, ?_⟩
          · intro hbound
            exact Nat.le_trans (length_kinsert_le hk) (h.bounded hbound)
          · intro r hr
            simp only [List.kinsert_def, List.mem_cons] at hr
            rcases hr with rfl | hr
            · exact h.latest ⟨k, a⟩ (List.of_mem_dlookup hk)
            · exact h.latest r ((List.kerase_sublist k l.rows).subset hr)
  | resize bound =>
      refine ⟨?_, ?_, ?_⟩
      · intro hbound
        exact length_trim hbound _
      · apply (h.recent.sublist (trim_initial _ _).sublist).imp
        intro a b hlt
        rwa [Lru.used, lastUse_of_ne (by simp), lastUse_of_ne (by simp)]
      · intro r hr
        exact h.latest r ((trim_initial _ _).subset hr)

/-- A row that was there, or is put, and is not left. -/
def Evicted (l : Lru κ α) (op : Op κ α) (k : κ) : Prop :=
  (k ∈ l.rows.keys ∨ ∃ a, op.row = some ⟨k, a⟩) ∧ k ∉ (l.perform op).2.rows.keys

/-- What an operation takes out was used before all that it leaves, and it
leaves as many rows as may be. -/
theorem Recorded.evicted (h : Recorded uses puts l) {op : Op κ α} {k : κ} (hk : Evicted l op k) :
    (l.perform op).2.bound ≠ 0 ∧ (l.perform op).2.rows.length = (l.perform op).2.bound ∧
      ∀ k' ∈ (l.perform op).2.rows.keys,
        lastUse k (l.used op :: uses) < lastUse k' (l.used op :: uses) := by
  obtain ⟨hheld, hgone⟩ := hk
  cases op with
  | put k₀ a₀ =>
      apply mem_keys_trim (recent_kinsert h k₀ a₀) _ hgone
      rw [List.mem_keys_kinsert]
      rcases hheld with hheld | ⟨a, ha⟩
      · exact .inr hheld
      · cases ha
        exact .inl rfl
  | get k₀ =>
      have hin : k ∈ l.rows.keys := hheld.resolve_right (by simp [Op.row])
      cases hk₀ : l.rows.dlookup k₀ with
      | none =>
          rw [Lru.perform_get_none hk₀] at hgone
          exact absurd hin hgone
      | some a =>
          rw [Lru.perform_get_some hk₀] at hgone
          exact absurd (List.mem_keys_kinsert.mpr (.inr hin)) hgone
  | resize bound =>
      have hin : k ∈ l.rows.keys := hheld.resolve_right (by simp [Op.row])
      apply mem_keys_trim _ hin hgone
      apply h.recent.imp
      intro a b hlt
      rwa [Lru.used, lastUse_of_ne (by simp), lastUse_of_ne (by simp)]

end Recency
