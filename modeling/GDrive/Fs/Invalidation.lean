/-
What `InvalidatePrefix` takes out, over the keys that the code builds.

The code compares strings: an entry goes if its key begins with the fields
of the invalidated key and is that key or goes on behind it with a slash.
Where the fields of the keys can be told apart and the paths are canonical,
this is the same identity, drive and root and a path at or beneath the
invalidated one (`isPrefixOf_keyPrefix`, `isBeneath_pathKey`).

But the root's path is empty, and no canonical path begins with a slash: of
what lies beneath the root nothing is taken out.
-/
import GDrive.Fs.Coherence

namespace GDrive

section Keys

variable {n : Nat} {auth auth' : AuthContext} {segments segments' : List Str}

theorem isPrefixOf_keyPrefix (ha : auth.FieldsApart n) (ha' : auth'.FieldsApart n) (rest : Str) :
    auth.keyPrefix.isPrefixOf (auth'.keyPrefix ++ rest) = decide (auth = auth') := by
  by_cases h : auth = auth'
  · rw [h, decide_eq_true rfl, List.isPrefixOf_iff_prefix]
    exact List.prefix_append _ _
  · rw [decide_eq_false h, Bool.eq_false_iff]
    intro hpre
    obtain ⟨t, ht⟩ := List.isPrefixOf_iff_prefix.mp hpre
    exact h (ha.cancel ha' ht).1

theorem isPrefixOf_metadataPrefix (ha : auth.FieldsApart n) (ha' : auth'.FieldsApart n)
    (id : Str) :
    auth.metadataPrefix.isPrefixOf (metadataKey auth' id) = decide (auth = auth') := by
  by_cases h : auth = auth'
  · rw [h, decide_eq_true rfl, List.isPrefixOf_iff_prefix]
    exact List.prefix_append _ _
  · rw [decide_eq_false h, Bool.eq_false_iff]
    intro hpre
    obtain ⟨t, ht⟩ := List.isPrefixOf_iff_prefix.mp hpre
    have hkeys : auth.keyPrefix ++ (str "meta" ++ separator ++ t) =
        auth'.keyPrefix ++ (str "meta" ++ separator ++ id) := by
      simpa [AuthContext.metadataPrefix, metadataKey] using ht
    exact h (ha.cancel ha' hkeys).1

/-- A canonical path does not begin with a slash. -/
theorem joinPath_no_leading_slash (hsegs : ∀ s ∈ segments, Segment s) :
    ¬[47] <+: joinPath segments := by
  rintro ⟨rest, hrest⟩
  have hne : segments ≠ [] := by
    intro hnil
    rw [hnil] at hrest
    cases hrest
  have hsplit := splitOn_joinPath hsegs hne
  rw [← hrest, show ([47] : Str) ++ rest = [] ++ 47 :: rest from rfl,
    List.splitOn_append_cons_self, List.splitOn_nil] at hsplit
  have hnil : ([] : Str) ∈ segments := by
    rw [← hsplit]
    exact List.mem_cons_self
  exact (hsegs [] hnil).ne_nil rfl

/-- What the code takes for "at the path or beneath it". -/
theorem isBeneath_pathKey (auth : AuthContext) (hsegs : ∀ s ∈ segments, Segment s) (hsegs' : ∀ s ∈ segments', Segment s) :
    PathCache.isBeneath ⟨auth, joinPath segments⟩ (pathKey auth segments') = true ↔
      segments' = segments ∨ (segments ≠ [] ∧ segments <+: segments') := by
  have hbelow : (CacheKey.toString ⟨auth, joinPath segments⟩ ++ [47]).isPrefixOf
      (pathKey auth segments') = true ↔ joinPath segments ++ [47] <+: joinPath segments' := by
    rw [List.isPrefixOf_iff_prefix]
    unfold pathKey CacheKey.toString
    rw [List.append_assoc, List.prefix_append_right_inj]
  unfold PathCache.isBeneath
  rw [Bool.or_eq_true, decide_eq_true_eq, hbelow]
  constructor
  · intro h
    rcases h with h | h
    · exact .inl (pathKey_injective hsegs' hsegs h)
    · have hne : segments ≠ [] := by
        intro hnil
        rw [hnil] at h
        exact joinPath_no_leading_slash hsegs' h
      obtain ⟨rest, -, rfl⟩ := (joinPath_beneath hsegs hsegs' hne).mp h
      exact .inr ⟨hne, List.prefix_append _ _⟩
  · intro h
    rcases h with rfl | ⟨hne, rest, rfl⟩
    · exact .inl rfl
    · cases rest with
      | nil =>
          rw [List.append_nil]
          exact .inl rfl
      | cons s rest =>
          refine .inr ((joinPath_beneath hsegs hsegs' hne).mpr ?_)
          exact ⟨s :: rest, List.cons_ne_nil _ _, rfl⟩

end Keys

-- ================================================================= exactness

/-- Exactly what lies at or beneath the path goes, and all metadata of the
identity, and nothing of another one. The fields of the keys have `n`
separators in the identity and none in the others. -/
structure InvalidatesExactly (n : Nat) (c : PathCache) (auth : AuthContext)
    (segments : List Str) : Prop where
  paths : ∀ {auth' segments'}, auth'.FieldsApart n → (∀ s ∈ segments', Segment s) →
    pathKey auth' segments' ∈ c.entries →
    (pathKey auth' segments' ∉ (c.invalidatePrefix ⟨auth, joinPath segments⟩).entries ↔
      auth' = auth ∧ segments <+: segments')
  metadata : ∀ id, metadataKey auth id ∉
    (c.invalidatePrefix ⟨auth, joinPath segments⟩).metadataEntries
  otherPaths : ∀ {auth'}, auth'.FieldsApart n → auth' ≠ auth → ∀ path,
    (c.invalidatePrefix ⟨auth, joinPath segments⟩).entries.lookup (CacheKey.toString ⟨auth', path⟩) =
      c.entries.lookup (CacheKey.toString ⟨auth', path⟩)
  otherMetadata : ∀ {auth'}, auth'.FieldsApart n → auth' ≠ auth → ∀ id,
    (c.invalidatePrefix ⟨auth, joinPath segments⟩).metadataEntries.lookup (metadataKey auth' id) =
      c.metadataEntries.lookup (metadataKey auth' id)

section Exactness

variable {n : Nat} {auth auth' : AuthContext} {segments segments' : List Str} {c : PathCache}

theorem mem_invalidatePrefix (ha : auth.FieldsApart n) (hsegs : ∀ s ∈ segments, Segment s)
    (ha' : auth'.FieldsApart n) (hsegs' : ∀ s ∈ segments', Segment s)
    (hmem : pathKey auth' segments' ∈ c.entries) :
    pathKey auth' segments' ∉ (c.invalidatePrefix ⟨auth, joinPath segments⟩).entries ↔
      auth' = auth ∧ (segments' = segments ∨ (segments ≠ [] ∧ segments <+: segments')) := by
  rw [← AList.lookup_eq_none, PathCache.lookup_invalidatePrefix]
  have hkey : auth.keyPrefix.isPrefixOf (pathKey auth' segments') = decide (auth = auth') :=
    isPrefixOf_keyPrefix ha ha' _
  rw [hkey]
  by_cases h : auth = auth'
  · subst h
    rw [decide_eq_true rfl, Bool.true_and, ← isBeneath_pathKey auth hsegs hsegs']
    split
    · rename_i hbeneath
      exact ⟨fun _ => ⟨rfl, hbeneath⟩, fun _ => rfl⟩
    · rename_i hbeneath
      constructor
      · intro hnone
        exact absurd hmem (AList.lookup_eq_none.mp hnone)
      · intro hgone
        exact absurd hgone.2 hbeneath
  · rw [decide_eq_false h, Bool.false_and, if_neg Bool.false_ne_true]
    constructor
    · intro hnone
      exact absurd hmem (AList.lookup_eq_none.mp hnone)
    · intro hgone
      exact absurd hgone.1.symm h

theorem invalidatePrefix_otherPaths (ha : auth.FieldsApart n) (ha' : auth'.FieldsApart n)
    (hne : auth' ≠ auth) (segments : List Str) (path : Str) :
    (c.invalidatePrefix ⟨auth, joinPath segments⟩).entries.lookup
      (CacheKey.toString ⟨auth', path⟩) = c.entries.lookup (CacheKey.toString ⟨auth', path⟩) := by
  have hkey : auth.keyPrefix.isPrefixOf (CacheKey.toString ⟨auth', path⟩) = false := by
    have h := isPrefixOf_keyPrefix ha ha' path
    rwa [decide_eq_false hne.symm] at h
  rw [PathCache.lookup_invalidatePrefix, hkey, Bool.false_and, if_neg Bool.false_ne_true]

theorem lookup_metadata_invalidatePrefix (key : CacheKey) (k : Str) :
    (c.invalidatePrefix key).metadataEntries.lookup k =
      if key.auth.metadataPrefix.isPrefixOf k then none else c.metadataEntries.lookup k := by
  unfold PathCache.invalidatePrefix
  rw [lookup_keepKeys]
  cases key.auth.metadataPrefix.isPrefixOf k <;> rfl

/-- `InvalidatePrefix` is exact unless it is the root that is invalidated,
and there if the cache has nothing beneath the root. -/
theorem invalidate_prefix_exact (ha : auth.FieldsApart n) (hsegs : ∀ s ∈ segments, Segment s) :
    InvalidatesExactly n c auth segments ↔
      (segments ≠ [] ∨ ∀ segments', (∀ s ∈ segments', Segment s) → segments' ≠ [] →
        pathKey auth segments' ∉ c.entries) := by
  constructor
  · intro h
    by_cases hroot : segments = []
    · right
      intro segments' hsegs' hne hmem
      have hgone := (h.paths ha hsegs' hmem).mpr ⟨rfl, by rw [hroot]; exact List.nil_prefix⟩
      rcases ((mem_invalidatePrefix ha hsegs ha hsegs' hmem).mp hgone).2 with heq | ⟨hne', -⟩
      · exact hne (heq.trans hroot)
      · exact hne' hroot
    · exact .inl hroot
  · intro h
    refine ⟨?_, ?_, ?_, ?_⟩
    · intro auth' segments' ha' hsegs' hmem
      rw [mem_invalidatePrefix ha hsegs ha' hsegs' hmem]
      apply and_congr_right
      intro heq
      constructor
      · intro hbeneath
        rcases hbeneath with rfl | ⟨-, hpre⟩
        · exact List.prefix_rfl
        · exact hpre
      · intro hpre
        by_cases hroot : segments = []
        · left
          rw [hroot]
          by_contra hne
          rw [heq] at hmem
          exact (h.resolve_left (not_not_intro hroot)) segments' hsegs' hne hmem
        · exact .inr ⟨hroot, hpre⟩
    · intro id
      rw [← AList.lookup_eq_none]
      exact PathCache.metadata_invalidatePrefix c ⟨auth, joinPath segments⟩ id
    · intro auth' ha' hne path
      exact invalidatePrefix_otherPaths ha ha' hne segments path
    · intro auth' ha' hne id
      rw [lookup_metadata_invalidatePrefix, isPrefixOf_metadataPrefix ha ha', decide_eq_false hne.symm,
        if_neg Bool.false_ne_true]

end Exactness

-- ================================================================== the root

/-- A secret's context, for the cases below. -/
def someAuth : AuthContext := { identity := str "secret" }

theorem someAuth_fieldsApart : someAuth.FieldsApart 0 := ⟨by decide, by decide, by decide⟩

theorem segment_a : ∀ s ∈ [str "a"], Segment s := by
  intro s hs
  rw [List.mem_singleton] at hs
  rw [hs]
  exact ⟨by decide, by decide⟩

/-- A file in the root folder, listed and cached. -/
def cacheWithFile : PathCache := ({} : PathCache).put 0 ⟨someAuth, str "a"⟩ {}

/-- Beneath the root the entry stays. -/
theorem invalidate_root_keeps : ¬∀ (c : PathCache) (auth : AuthContext) (segments : List Str),
    auth.FieldsApart 0 → (∀ s ∈ segments, Segment s) → InvalidatesExactly 0 c auth segments := by
  intro h
  have hexact := h cacheWithFile someAuth [] someAuth_fieldsApart (by simp)
  have hgone := (hexact.paths someAuth_fieldsApart
    segment_a (by decide +kernel)).mpr ⟨rfl, List.nil_prefix⟩
  exact hgone (by decide +kernel)

theorem invalidate_prefix_exact_case :
    (someAuth.FieldsApart 0 ∧ ∀ s ∈ [str "a"], Segment s) ∧
      InvalidatesExactly 0 cacheWithFile someAuth [str "a"] :=
  ⟨⟨someAuth_fieldsApart, segment_a⟩,
    (invalidate_prefix_exact someAuth_fieldsApart segment_a).mpr (.inl (by decide))⟩

end GDrive
