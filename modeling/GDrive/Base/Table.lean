/-
Association lists cut down by a predicate on their keys, on top of
Mathlib's `AList`: what is left is exactly what the predicate keeps.
-/
import Mathlib.Data.List.AList

namespace GDrive

variable {κ α : Type} [DecidableEq κ]

theorem dlookup_filter (p : κ → Bool) (l : List (Σ _ : κ, α)) (k : κ) :
    (l.filter fun e => p e.1).dlookup k = if p k then l.dlookup k else none := by
  induction l with
  | nil => simp
  | cons e l ih =>
      obtain ⟨k', a⟩ := e
      rw [List.filter_cons]
      by_cases hk : k = k'
      · subst hk
        cases hp : p k with
        | true => simp
        | false => simp [hp, ih]
      · cases hp : p k' with
        | true => simp [hk, ih]
        | false => simp [hk, ih]

/-- The entries whose key the predicate keeps. -/
def keepKeys (p : κ → Bool) (t : AList fun _ : κ => α) : AList fun _ : κ => α :=
  ⟨t.entries.filter fun e => p e.1, List.NodupKeys.sublist List.filter_sublist t.nodupKeys⟩

theorem lookup_keepKeys (p : κ → Bool) (t : AList fun _ : κ => α) (k : κ) :
    (keepKeys p t).lookup k = if p k then t.lookup k else none :=
  dlookup_filter p t.entries k

-- ==================================================================== how many

omit [DecidableEq κ] in
theorem length_keys (t : AList fun _ : κ => α) : t.keys.length = t.entries.length :=
  List.length_map _

/-- A key that is there already takes no room. -/
theorem length_insert_of_mem {t : AList fun _ : κ => α} {k : κ} {a : α} (h : k ∈ t) :
    (t.insert k a).entries.length = t.entries.length := by
  have hmem : k ∈ t.keys := AList.mem_keys.mp h
  have hpos := List.length_pos_of_mem hmem
  rw [← length_keys, ← length_keys, AList.keys_insert, List.length_cons,
    List.length_erase_of_mem hmem]
  omega

theorem length_insert_le (t : AList fun _ : κ => α) (k : κ) (a : α) :
    (t.insert k a).entries.length ≤ t.entries.length + 1 := by
  rw [← length_keys, ← length_keys, AList.keys_insert, List.length_cons]
  exact Nat.succ_le_succ List.length_erase_le

/-- What was there is there still, under its key. -/
theorem lookup_insert_some {t : AList fun _ : κ => α} {k k' : κ} {a b : α}
    (h : t.lookup k = some a) : ∃ a', (t.insert k' b).lookup k = some a' := by
  by_cases hk : k = k'
  · subst hk
    exact ⟨b, AList.lookup_insert t⟩
  · exact ⟨a, by rw [AList.lookup_insert_ne hk, h]⟩

omit [DecidableEq κ] in
theorem length_keepKeys_le (p : κ → Bool) (t : AList fun _ : κ => α) :
    (keepKeys p t).entries.length ≤ t.entries.length :=
  List.length_filter_le _ _

omit [DecidableEq κ] in
/-- Nothing is lost exactly where every key is kept. -/
theorem length_keepKeys_eq_iff (p : κ → Bool) (t : AList fun _ : κ => α) :
    (keepKeys p t).entries.length = t.entries.length ↔ ∀ k ∈ t, p k = true := by
  show (t.entries.filter fun e => p e.1).length = _ ↔ _
  rw [List.length_filter_eq_length_iff]
  constructor
  · intro h k hk
    obtain ⟨e, he, rfl⟩ := List.mem_map.mp (AList.mem_keys.mp hk)
    exact h e he
  · intro h e he
    exact h e.1 (AList.mem_keys.mpr (List.mem_map_of_mem he))

end GDrive
