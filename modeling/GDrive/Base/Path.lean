/-
Slash-separated paths over byte strings.

A `Segment` can stand between two slashes; `joinPath` puts segments
together the way a walk accumulates them, one `extendPath` at a time. On
segments joining loses nothing (`joinPath_injective`), and one joined path
lies beneath another exactly when its segments extend the other's
(`joinPath_beneath`).
-/
import Mathlib.Data.List.Induction
import GDrive.Base.Str

namespace GDrive

/-- A name that can be one segment of a path. -/
structure Segment (s : Str) : Prop where
  ne_nil : s ≠ []
  no_slash : 47 ∉ s -- '/'

/-- One more segment on a path; the empty path takes no slash. -/
def extendPath (path segment : Str) : Str :=
  if path.isEmpty then segment else path ++ 47 :: segment

def joinPath (segments : List Str) : Str := segments.foldl extendPath []

@[simp] theorem joinPath_nil : joinPath [] = [] := rfl

@[simp] theorem joinPath_singleton (s : Str) : joinPath [s] = s := rfl

theorem joinPath_concat (segments : List Str) (s : Str) :
    joinPath (segments ++ [s]) = extendPath (joinPath segments) s := by
  unfold joinPath
  rw [List.foldl_append]
  rfl

theorem extendPath_of_ne_nil {path : Str} (h : path ≠ []) (s : Str) :
    extendPath path s = path ++ 47 :: s := by
  rw [extendPath, if_neg (by simpa using h)]

theorem extendPath_ne_nil (path : Str) {s : Str} (hs : s ≠ []) : extendPath path s ≠ [] := by
  unfold extendPath
  split
  · exact hs
  · exact List.append_ne_nil_of_right_ne_nil _ (List.cons_ne_nil _ _)

theorem joinPath_ne_nil {segments : List Str} (h : ∀ s ∈ segments, Segment s)
    (hne : segments ≠ []) : joinPath segments ≠ [] := by
  obtain ⟨init, s, rfl⟩ := List.eq_nil_or_concat' segments |>.resolve_left hne
  rw [joinPath_concat]
  exact extendPath_ne_nil _ (h s (by simp)).ne_nil

/-- No piece of a split contains the slash. -/
theorem no_slash_of_mem_splitOn {s piece : Str} (h : piece ∈ s.splitOn 47) : 47 ∉ piece := by
  induction s generalizing piece with
  | nil =>
      obtain rfl : piece = [] := by simpa using h
      exact List.not_mem_nil
  | cons c s ih =>
      rw [List.splitOn_cons_eq_if_modifyHead] at h
      split at h
      · rcases List.mem_cons.mp h with rfl | h
        · exact List.not_mem_nil
        · exact ih h
      · rename_i hc
        obtain ⟨head, rest, hsplit⟩ := List.exists_cons_of_ne_nil (List.splitOn_ne_nil 47 s)
        rw [hsplit, List.modifyHead_cons] at h
        rw [hsplit] at ih
        rcases List.mem_cons.mp h with rfl | h
        · rw [List.mem_cons, not_or]
          exact ⟨fun heq => hc (by simp [heq]), ih List.mem_cons_self⟩
        · exact ih (List.mem_cons_of_mem _ h)

/-- Splitting a joined path gives its segments back. -/
theorem splitOn_joinPath {segments : List Str} (h : ∀ s ∈ segments, Segment s)
    (hne : segments ≠ []) : (joinPath segments).splitOn 47 = segments := by
  induction segments using List.reverseRecOn with
  | nil => exact absurd rfl hne
  | append_singleton init s ih =>
      have hs : Segment s := h s (by simp)
      have hinit : ∀ s ∈ init, Segment s := fun s hs => h s (List.mem_append_left _ hs)
      rw [joinPath_concat]
      by_cases hnil : init = []
      · rw [hnil]
        exact List.splitOn_eq_singleton hs.no_slash
      · rw [extendPath_of_ne_nil (joinPath_ne_nil hinit hnil), List.splitOn_append_cons_self,
          ih hinit hnil, List.splitOn_eq_singleton hs.no_slash]

/-- The segments with slashes between them. -/
theorem intercalate_eq_joinPath {segments : List Str} (h : ∀ s ∈ segments, Segment s) :
    [47].intercalate segments = joinPath segments := by
  by_cases hnil : segments = []
  · rw [hnil]
    rfl
  · have hsplit : [47].intercalate ((joinPath segments).splitOn 47) = joinPath segments :=
      List.intercalate_splitOn 47
    rwa [splitOn_joinPath h hnil] at hsplit

theorem joinPath_injective {a b : List Str} (ha : ∀ s ∈ a, Segment s) (hb : ∀ s ∈ b, Segment s)
    (h : joinPath a = joinPath b) : a = b := by
  by_cases hanil : a = []
  · by_cases hbnil : b = []
    · rw [hanil, hbnil]
    · rw [hanil] at h
      exact absurd h.symm (joinPath_ne_nil hb hbnil)
  · by_cases hbnil : b = []
    · rw [hbnil] at h
      exact absurd h (joinPath_ne_nil ha hanil)
    · rw [← splitOn_joinPath ha hanil, h, splitOn_joinPath hb hbnil]

theorem joinPath_append {a c : List Str} (ha : ∀ s ∈ a, Segment s) (hc : ∀ s ∈ c, Segment s)
    (hane : a ≠ []) (hcne : c ≠ []) :
    joinPath (a ++ c) = joinPath a ++ 47 :: joinPath c := by
  induction c using List.reverseRecOn with
  | nil => exact absurd rfl hcne
  | append_singleton c s ih =>
      have hc' : ∀ s ∈ c, Segment s := fun s hs => hc s (List.mem_append_left _ hs)
      have hac : ∀ s ∈ a ++ c, Segment s := by
        intro s hs
        rcases List.mem_append.mp hs with hs | hs
        · exact ha s hs
        · exact hc' s hs
      rw [← List.append_assoc, joinPath_concat, joinPath_concat,
        extendPath_of_ne_nil (joinPath_ne_nil hac (by simp [hane]))]
      by_cases hnil : c = []
      · rw [hnil, List.append_nil]
        rfl
      · rw [ih hc' hnil, extendPath_of_ne_nil (joinPath_ne_nil hc' hnil)]
        simp

/-- A joined path beneath another: its segments go on where the other's
end. -/
theorem joinPath_beneath {a b : List Str} (ha : ∀ s ∈ a, Segment s) (hb : ∀ s ∈ b, Segment s)
    (hane : a ≠ []) :
    joinPath a ++ [47] <+: joinPath b ↔ ∃ c, c ≠ [] ∧ b = a ++ c := by
  constructor
  · rintro ⟨rest, hrest⟩
    have hbne : b ≠ [] := by
      rintro rfl
      rw [joinPath_nil] at hrest
      exact absurd hrest (by simp)
    refine ⟨rest.splitOn 47, List.splitOn_ne_nil _ _, ?_⟩
    rw [← splitOn_joinPath hb hbne, ← hrest, List.append_assoc]
    rw [show ([47] : Str) ++ rest = 47 :: rest from rfl, List.splitOn_append_cons_self,
      splitOn_joinPath ha hane]
  · rintro ⟨c, hc, rfl⟩
    have hc' : ∀ s ∈ c, Segment s := fun s hs => hb s (List.mem_append_right _ hs)
    rw [joinPath_append ha hc' hane hc]
    exact ⟨joinPath c, by simp⟩

end GDrive
