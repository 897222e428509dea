/-
`ExpandBraces` is all or nothing (`expand_braces`).

# Without a bound

`uncapped` is the expansion that no bound cuts short. What the bounds measure
of it is written down next to it: how deep the recursion goes (`braceDepth`),
and how many leaves and combinations it makes (`braceCost`). The recursion of
the code comes to `uncapped` where it stays within both, and to nothing
elsewhere (`expandBracesInto_eq`).

# Expanded once

A group closes where its braces balance, and so do its alternatives. So what
an alternative expands to has no brace left, and what stands before a group
opens none: an expansion has no group in it (`findBraces_uncapped`).
-/
import Mathlib.Algebra.Order.BigOperators.Group.List
import GDrive.Fs.GlobPattern

namespace GDrive

-- ================================================================== the lead

theorem findBraces_literal {pattern pre : Str} (h : 123 ∉ pattern) :
    findBraces pattern 0 pre [] = none := by
  induction pattern generalizing pre with
  | nil => rfl
  | cons c rest ih =>
      rw [List.mem_cons, not_or] at h
      rw [findBraces]
      · exact ih h.2
      · exact fun hc => h.1 hc.symm

/-- What is before a group stays before it. -/
theorem prefix_findBraces {pattern : Str} {depth : Nat} {pre inner : Str}
    {found : Str × Str × Str} (h : findBraces pattern depth pre inner = some found) :
    pre <+: found.1 := by
  fun_induction findBraces pattern depth pre inner with
  | case1 => cases h
  | case2 rest pre inner ih => exact ih h
  | case3 c rest pre inner _ ih => exact (List.prefix_append _ _).trans (ih h)
  | case4 rest depth pre inner ih => exact ih h
  | case5 rest pre inner =>
      cases h
      exact List.prefix_refl _
  | case6 rest depth pre inner ih => exact ih h
  | case7 c rest depth pre inner _ _ _ ih => exact ih h

theorem findBraces_lead {lead rest pre : Str} {found : Str × Str × Str} (hlead : 123 ∉ lead)
    (h : findBraces (lead ++ rest) 0 pre [] = some found) : pre ++ lead <+: found.1 := by
  induction lead generalizing pre with
  | nil =>
      rw [List.append_nil]
      exact prefix_findBraces h
  | cons c lead ih =>
      rw [List.mem_cons, not_or] at hlead
      rw [List.cons_append, findBraces] at h
      · rw [← List.singleton_append, ← List.append_assoc]
        exact ih hlead.2 h
      · exact fun hc => hlead.1 hc.symm

theorem prefix_combineWith {pre alternative : Str} {suffixes : List Str} {budget budget' : Nat}
    {out out' : List Str} (h : combineWith pre alternative suffixes budget out = some (out', budget'))
    (hout : ∀ e ∈ out, pre <+: e) : ∀ e ∈ out', pre <+: e := by
  fun_induction combineWith pre alternative suffixes budget out with
  | case1 =>
      cases h
      exact hout
  | case2 => cases h
  | case3 suffix suffixes budget out ih =>
      refine ih h ?_
      intro e he
      rcases List.mem_append.mp he with he | he
      · exact hout e he
      · rw [List.mem_singleton.mp he, List.append_assoc]
        exact List.prefix_append _ _

theorem prefix_combineAll {pre : Str} {suffixes alternatives : List Str} {budget budget' : Nat}
    {out out' : List Str} (h : combineAll pre suffixes alternatives budget out = some (out', budget'))
    (hout : ∀ e ∈ out, pre <+: e) : ∀ e ∈ out', pre <+: e := by
  fun_induction combineAll pre suffixes alternatives budget out with
  | case1 =>
      cases h
      exact hout
  | case2 => cases h
  | case3 alternative rest budget out out₁ budget₁ hcombine ih =>
      exact ih h (prefix_combineWith hcombine hout)

theorem prefix_expandAlternatives {expand : Str → Nat → Option (List Str × Nat)} {pre : Str}
    {suffixes alternatives : List Str} {budget budget' : Nat} {out out' : List Str}
    (h : expandAlternatives expand pre suffixes alternatives budget out = some (out', budget'))
    (hout : ∀ e ∈ out, pre <+: e) : ∀ e ∈ out', pre <+: e := by
  fun_induction expandAlternatives expand pre suffixes alternatives budget out with
  | case1 =>
      cases h
      exact hout
  | case2 => cases h
  | case3 => cases h
  | case4 alternative rest budget out expanded budget₁ hexpand out₁ budget₂ hcombine ih =>
      exact ih h (prefix_combineAll hcombine hout)

theorem expandBracesInto_succ (levels : Nat) (pattern : Str) (budget : Nat) :
    expandBracesInto (levels + 1) pattern budget =
      match findBraces pattern 0 [] [] with
      | none =>
          match budget with
          | 0 => none
          | budget + 1 => some ([pattern], budget)
      | some (pre, inner, suffix) =>
          match expandBracesInto levels suffix budget with
          | none => none
          | some (suffixes, budget') =>
              expandAlternatives (expandBracesInto levels) pre suffixes
                (splitAlternatives inner 0 []) budget' [] := rfl

/-- Every expansion begins with what comes before the first brace. -/
theorem prefix_expandBraces {lead rest e : Str} (hlead : 123 ∉ lead)
    (he : e ∈ expandBraces (lead ++ rest)) : lead <+: e := by
  have hinto : ∀ {levels budget : Nat} {out : List Str} {budget' : Nat},
      expandBracesInto levels (lead ++ rest) budget = some (out, budget') →
        ∀ e ∈ out, lead <+: e := by
    intro levels budget out budget' h
    cases levels with
    | zero => cases h
    | succ levels =>
        rw [expandBracesInto_succ] at h
        split at h
        · split at h
          · cases h
          · cases h
            intro e he
            rw [List.mem_singleton.mp he]
            exact List.prefix_append _ _
        · rename_i pre inner suffix hfind
          split at h
          · cases h
          · have hpre : lead <+: pre := findBraces_lead hlead hfind
            intro e he
            exact hpre.trans (prefix_expandAlternatives h nofun e he)
  unfold expandBraces at he
  split at he
  · cases he
  · cases h : expandBracesInto (kMaxBraceDepth + 1) (lead ++ rest) kMaxBraceExpansions with
    | none =>
        rw [h] at he
        cases he
    | some r =>
        rw [h] at he
        exact hinto h e he

/-- A pattern without braces is its one expansion. -/
theorem expandBraces_literal {pattern e : Str} (h : 123 ∉ pattern) (he : e ∈ expandBraces pattern) :
    e = pattern := by
  unfold expandBraces at he
  split at he
  · cases he
  · rw [expandBracesInto_succ, findBraces_literal h] at he
    simpa [kMaxBraceExpansions] using he

-- ============================================================ what is found

/-- A group that is found is in the text, closed. -/
theorem findBraces_eq {pattern pre inner : Str} {depth : Nat} {found : Str × Str × Str}
    (h : findBraces pattern depth pre inner = some found) :
    (if depth = 0 then pre ++ pattern else pre ++ 123 :: inner ++ pattern) =
      found.1 ++ 123 :: found.2.1 ++ 125 :: found.2.2 := by
  fun_induction findBraces pattern depth pre inner with
  | case1 => cases h
  | case2 rest pre inner ih => simpa using ih h
  | case3 c rest pre inner _ ih => simpa using ih h
  | case4 rest depth pre inner ih => simpa using ih h
  | case5 rest pre inner =>
      cases h
      simp
  | case6 rest depth pre inner ih => simpa using ih h
  | case7 c rest depth pre inner _ _ _ ih => simpa using ih h

theorem length_splitAlternatives {inner current alternative : Str} {depth : Int}
    (h : alternative ∈ splitAlternatives inner depth current) :
    alternative.length ≤ current.length + inner.length := by
  fun_induction splitAlternatives inner depth current with
  | case1 _ current =>
      rw [List.mem_singleton.mp h]
      exact Nat.le_add_right _ _
  | case2 depth current rest ih | case3 depth current rest ih =>
      have hle := ih h
      simp only [List.length_append, List.length_cons, List.length_nil] at hle ⊢
      omega
  | case4 current rest ih =>
      rcases List.mem_cons.mp h with rfl | h
      · exact Nat.le_add_right _ _
      · have hle := ih h
        simp only [List.length_cons, List.length_nil] at hle ⊢
        omega
  | case5 depth current c rest _ _ _ ih =>
      have hle := ih h
      simp only [List.length_append, List.length_cons, List.length_nil] at hle ⊢
      omega

section Found

variable {pattern pre inner suffix : Str}

theorem findBraces_split (h : findBraces pattern 0 [] [] = some (pre, inner, suffix)) :
    pattern = pre ++ 123 :: inner ++ 125 :: suffix := by
  have heq := findBraces_eq h
  rwa [if_pos rfl, List.nil_append] at heq

theorem suffix_lt (h : findBraces pattern 0 [] [] = some (pre, inner, suffix)) :
    suffix.length < pattern.length := by
  rw [findBraces_split h]
  simp only [List.length_append, List.length_cons]
  omega

theorem alternative_lt (h : findBraces pattern 0 [] [] = some (pre, inner, suffix))
    {alternative : Str} (halternative : alternative ∈ splitAlternatives inner 0 []) :
    alternative.length < pattern.length := by
  have hle := length_splitAlternatives halternative
  rw [findBraces_split h]
  simp only [List.length_append, List.length_cons, List.length_nil] at hle ⊢
  omega

end Found

theorem splitAlternatives_ne_nil (inner : Str) (depth : Int) (current : Str) :
    splitAlternatives inner depth current ≠ [] := by
  fun_induction splitAlternatives inner depth current with
  | case1 => exact List.cons_ne_nil _ _
  | case2 depth current rest ih | case3 depth current rest ih => exact ih
  | case4 => exact List.cons_ne_nil _ _
  | case5 depth current c rest _ _ _ ih => exact ih

-- ========================================================== without a bound

/-- Every combination of the alternatives with the suffixes, in order. -/
def combinations (pre : Str) (suffixes expanded : List Str) : List Str :=
  expanded.flatMap fun alternative => suffixes.map fun suffix => pre ++ alternative ++ suffix

/-- What a pattern expands to. -/
def uncapped (pattern : Str) : List Str :=
  match _h : findBraces pattern 0 [] [] with
  | none => [pattern]
  | some (pre, inner, suffix) =>
      (splitAlternatives inner 0 []).attach.flatMap fun alternative =>
        combinations pre (uncapped suffix) (uncapped alternative.1)
termination_by pattern.length
decreasing_by
  · exact suffix_lt _h
  · exact alternative_lt _h alternative.2

/-- How deep the recursion goes. -/
def braceDepth (pattern : Str) : Nat :=
  match _h : findBraces pattern 0 [] [] with
  | none => 0
  | some (_, inner, suffix) =>
      (splitAlternatives inner 0 []).attach.foldr
        (fun alternative deepest => max (braceDepth alternative.1) deepest) (braceDepth suffix) + 1
termination_by pattern.length
decreasing_by
  · exact alternative_lt _h alternative.2
  · exact suffix_lt _h

/-- How many leaves and combinations the recursion makes. -/
def braceCost (pattern : Str) : Nat :=
  match _h : findBraces pattern 0 [] [] with
  | none => 1
  | some (_, inner, suffix) =>
      braceCost suffix + ((splitAlternatives inner 0 []).attach.map fun alternative =>
        braceCost alternative.1 + (uncapped alternative.1).length * (uncapped suffix).length).sum
termination_by pattern.length
decreasing_by
  · exact suffix_lt _h
  · exact alternative_lt _h alternative.2

section Uncapped

variable {pattern pre inner suffix : Str}

theorem uncapped_leaf (h : findBraces pattern 0 [] [] = none) : uncapped pattern = [pattern] := by
  rw [uncapped]
  split
  · rfl
  · rename_i hsome
    cases h.symm.trans hsome

theorem uncapped_group (h : findBraces pattern 0 [] [] = some (pre, inner, suffix)) :
    uncapped pattern = (splitAlternatives inner 0 []).flatMap fun alternative =>
      combinations pre (uncapped suffix) (uncapped alternative) := by
  rw [uncapped]
  split
  · rename_i hnone
    cases h.symm.trans hnone
  · rename_i hsome
    cases h.symm.trans hsome
    rw [List.flatMap_def, List.flatMap_def]
    exact congrArg List.flatten (List.attach_map_val
      (f := fun alternative => combinations pre (uncapped suffix) (uncapped alternative)))

theorem braceDepth_leaf (h : findBraces pattern 0 [] [] = none) : braceDepth pattern = 0 := by
  rw [braceDepth]
  split
  · rfl
  · rename_i hsome
    cases h.symm.trans hsome

theorem braceDepth_group (h : findBraces pattern 0 [] [] = some (pre, inner, suffix)) (levels : Nat) :
    braceDepth pattern < levels + 1 ↔
      braceDepth suffix < levels ∧
        ∀ alternative ∈ splitAlternatives inner 0 [], braceDepth alternative < levels := by
  have hfold : ∀ l : List Str, l.foldr (fun alternative deepest =>
      max (braceDepth alternative) deepest) (braceDepth suffix) < levels ↔
        braceDepth suffix < levels ∧ ∀ alternative ∈ l, braceDepth alternative < levels := by
    intro l
    induction l with
    | nil => simp
    | cons alternative l ih =>
        rw [List.foldr_cons, max_lt_iff, ih, List.forall_mem_cons]
        tauto
  rw [braceDepth]
  split
  · rename_i hnone
    cases h.symm.trans hnone
  · rename_i hsome
    cases h.symm.trans hsome
    rw [Nat.add_lt_add_iff_right, ← hfold]
    exact iff_of_eq (congrArg (· < levels) (List.foldr_attach
      (f := fun alternative deepest => max (braceDepth alternative) deepest)))

theorem braceCost_leaf (h : findBraces pattern 0 [] [] = none) : braceCost pattern = 1 := by
  rw [braceCost]
  split
  · rfl
  · rename_i hsome
    cases h.symm.trans hsome

theorem braceCost_group (h : findBraces pattern 0 [] [] = some (pre, inner, suffix)) :
    braceCost pattern = braceCost suffix + ((splitAlternatives inner 0 []).map fun alternative =>
      braceCost alternative + (uncapped alternative).length * (uncapped suffix).length).sum := by
  rw [braceCost]
  split
  · rename_i hnone
    cases h.symm.trans hnone
  · rename_i hsome
    cases h.symm.trans hsome
    exact congrArg (fun costs => braceCost suffix + List.sum costs) (List.attach_map_val
      (f := fun alternative =>
        braceCost alternative + (uncapped alternative).length * (uncapped suffix).length))

end Uncapped

-- ============================================================ within a bound

/-- The combinations fit into the budget, or there are none. -/
theorem combineWith_eq (pre alternative : Str) (suffixes : List Str) (budget : Nat)
    (out : List Str) :
    combineWith pre alternative suffixes budget out =
      if suffixes.length ≤ budget then
        some (out ++ suffixes.map (pre ++ alternative ++ ·), budget - suffixes.length)
      else none := by
  induction suffixes generalizing budget out with
  | nil => simp [combineWith]
  | cons suffix suffixes ih =>
      cases budget with
      | zero => rfl
      | succ budget =>
          rw [combineWith, ih]
          simp

theorem combineAll_eq (pre : Str) (suffixes expanded : List Str) (budget : Nat)
    (out : List Str) :
    combineAll pre suffixes expanded budget out =
      if expanded.length * suffixes.length ≤ budget then
        some (out ++ combinations pre suffixes expanded,
          budget - expanded.length * suffixes.length)
      else none := by
  induction expanded generalizing budget out with
  | nil => simp [combineAll, combinations]
  | cons alternative expanded ih =>
      rw [combineAll, combineWith_eq, List.length_cons, Nat.succ_mul]
      by_cases hone : suffixes.length ≤ budget
      · rw [if_pos hone]
        simp only
        rw [ih]
        by_cases hall : expanded.length * suffixes.length ≤ budget - suffixes.length
        · rw [if_pos hall, if_pos (by omega)]
          simp only [combinations, List.flatMap_cons, List.append_assoc, Option.some.injEq,
            Prod.mk.injEq, true_and]
          omega
        · rw [if_neg hall, if_neg (by omega)]
      · rw [if_neg hone, if_neg (by omega)]

/-- The recursion of the code, for one pattern: within the bounds it comes to
the expansion, and what it costs is gone from the budget. -/
def Expands (expand : Str → Nat → Option (List Str × Nat)) (levels : Nat) (pattern : Str) : Prop :=
  ∀ budget, expand pattern budget =
    if braceDepth pattern < levels ∧ braceCost pattern ≤ budget then
      some (uncapped pattern, budget - braceCost pattern)
    else none

theorem expandAlternatives_eq {expand : Str → Nat → Option (List Str × Nat)} {levels : Nat}
    {pre : Str} {suffixes alternatives : List Str}
    (hexpand : ∀ alternative ∈ alternatives, Expands expand levels alternative) (budget : Nat)
    (out : List Str) :
    expandAlternatives expand pre suffixes alternatives budget out =
      if (∀ alternative ∈ alternatives, braceDepth alternative < levels) ∧
          (alternatives.map fun alternative =>
            braceCost alternative + (uncapped alternative).length * suffixes.length).sum ≤ budget then
        some (out ++ alternatives.flatMap fun alternative =>
            combinations pre suffixes (uncapped alternative),
          budget - (alternatives.map fun alternative =>
            braceCost alternative + (uncapped alternative).length * suffixes.length).sum)
      else none := by
  induction alternatives generalizing budget out with
  | nil => simp [expandAlternatives]
  | cons alternative alternatives ih =>
      rw [List.forall_mem_cons] at hexpand
      rw [expandAlternatives, hexpand.1, List.map_cons, List.sum_cons]
      by_cases hone : braceDepth alternative < levels ∧ braceCost alternative ≤ budget
      · rw [if_pos hone]
        simp only
        rw [combineAll_eq]
        by_cases hfit : (uncapped alternative).length * suffixes.length ≤
            budget - braceCost alternative
        · rw [if_pos hfit]
          simp only
          rw [ih hexpand.2]
          split
          · rename_i hrest
            rw [if_pos ⟨List.forall_mem_cons.mpr ⟨hone.1, hrest.1⟩, by omega⟩]
            simp only [List.flatMap_cons, List.append_assoc, Option.some.injEq, Prod.mk.injEq,
              true_and]
            omega
          · rename_i hrest
            rw [if_neg]
            intro ⟨hdepth, hcost⟩
            exact hrest ⟨(List.forall_mem_cons.mp hdepth).2, by omega⟩
        · rw [if_neg hfit, if_neg]
          intro ⟨_, hcost⟩
          omega
      · rw [if_neg hone, if_neg]
        intro ⟨hdepth, hcost⟩
        exact hone ⟨(List.forall_mem_cons.mp hdepth).1, by omega⟩

/-- By induction on the levels: a group asks for its suffix and its
alternatives one level down. -/
theorem expandBracesInto_eq (levels : Nat) (pattern : Str) :
    Expands (expandBracesInto levels) levels pattern := by
  induction levels generalizing pattern with
  | zero =>
      intro budget
      rw [if_neg (fun h => Nat.not_lt_zero _ h.1), expandBracesInto]
  | succ levels ih =>
      intro budget
      rw [expandBracesInto_succ]
      cases hfind : findBraces pattern 0 [] [] with
      | none =>
          rw [braceDepth_leaf hfind, braceCost_leaf hfind, uncapped_leaf hfind]
          cases budget with
          | zero => rw [if_neg (by omega)]
          | succ budget => rw [if_pos ⟨by omega, by omega⟩, Nat.add_sub_cancel]
      | some found =>
          obtain ⟨pre, inner, suffix⟩ := found
          simp only
          have hdepths := braceDepth_group hfind levels
          rw [braceCost_group hfind, uncapped_group hfind, ih suffix]
          by_cases hsuffix : braceDepth suffix < levels ∧ braceCost suffix ≤ budget
          · rw [if_pos hsuffix]
            simp only
            rw [expandAlternatives_eq fun alternative _ => ih alternative]
            split
            · rename_i hall
              rw [if_pos ⟨hdepths.mpr ⟨hsuffix.1, hall.1⟩, by omega⟩, List.nil_append, Nat.sub_sub]
            · rename_i hall
              rw [if_neg]
              rintro ⟨hdepth, hcost⟩
              exact hall ⟨(hdepths.mp hdepth).2, by omega⟩
          · rw [if_neg hsuffix, if_neg]
            rintro ⟨hdepth, hcost⟩
            exact hsuffix ⟨(hdepths.mp hdepth).1, by omega⟩

/-- A pattern that no bound rejects. -/
def WithinBounds (pattern : Str) : Prop :=
  pattern.length ≤ kMaxBracePatternLength ∧ braceDepth pattern ≤ kMaxBraceDepth ∧
    braceCost pattern ≤ kMaxBraceExpansions

theorem expandBraces_within {pattern : Str} (h : WithinBounds pattern) :
    expandBraces pattern = uncapped pattern := by
  obtain ⟨hlength, hdepth, hcost⟩ := h
  unfold expandBraces
  rw [if_neg (by omega), expandBracesInto_eq _ _ _, if_pos ⟨by omega, hcost⟩]
  rfl

theorem expandBraces_beyond {pattern : Str} (h : ¬WithinBounds pattern) :
    expandBraces pattern = [] := by
  unfold expandBraces
  split
  · rfl
  · rename_i hlength
    rw [expandBracesInto_eq _ _ _, if_neg]
    · rfl
    · intro ⟨hdepth, hcost⟩
      exact h ⟨by omega, by omega, hcost⟩

-- ================================================================== the size

section Size

variable {pattern : Str}

/-- No alternative is left out: a group has at least one, and it has an
expansion. -/
theorem uncapped_ne_nil (pattern : Str) : uncapped pattern ≠ [] := by
  induction hn : pattern.length using Nat.strong_induction_on generalizing pattern with
  | _ n ih =>
      cases hfind : findBraces pattern 0 [] [] with
      | none =>
          rw [uncapped_leaf hfind]
          exact List.cons_ne_nil _ _
      | some found =>
          obtain ⟨pre, inner, suffix⟩ := found
          have hsuffix := ih suffix.length (by rw [← hn]; exact suffix_lt hfind) suffix rfl
          obtain ⟨alternative, halternative⟩ :=
            List.exists_mem_of_ne_nil _ (splitAlternatives_ne_nil inner 0 [])
          have hone := ih alternative.length (by rw [← hn]; exact alternative_lt hfind halternative)
            alternative rfl
          obtain ⟨a, ha⟩ := List.exists_mem_of_ne_nil _ hone
          obtain ⟨s, hs⟩ := List.exists_mem_of_ne_nil _ hsuffix
          rw [uncapped_group hfind]
          refine List.ne_nil_of_mem (a := pre ++ a ++ s) ?_
          exact List.mem_flatMap.mpr ⟨alternative, halternative,
            List.mem_flatMap.mpr ⟨a, ha, List.mem_map_of_mem hs⟩⟩

/-- Every expansion is a leaf or a combination. -/
theorem length_uncapped_le (pattern : Str) : (uncapped pattern).length ≤ braceCost pattern := by
  cases hfind : findBraces pattern 0 [] [] with
  | none =>
      rw [uncapped_leaf hfind, braceCost_leaf hfind]
      rfl
  | some found =>
      obtain ⟨pre, inner, suffix⟩ := found
      rw [uncapped_group hfind, braceCost_group hfind, List.length_flatMap]
      refine Nat.le_trans (List.sum_le_sum ?_) (Nat.le_add_left _ _)
      intro alternative _
      simp only [combinations, List.length_flatMap, List.length_map, List.map_const',
        List.sum_replicate, Nat.nsmul_eq_mul]
      exact Nat.le_add_left _ _

end Size

-- =============================================================== the balance

/-- How many groups are open behind a text, where `depth` were before it and
none is closed too often. -/
def openBraces : Str → (depth : Nat) → Option Nat
  | [], depth => some depth
  | c :: rest, depth =>
      if c = 123 then openBraces rest (depth + 1)
      else if c = 125 then if depth = 0 then none else openBraces rest (depth - 1)
      else openBraces rest depth

/-- Every group in the text is closed in it. -/
def BracesBalanced (s : Str) : Prop := openBraces s 0 = some 0

theorem openBraces_append (a b : Str) (depth : Nat) :
    openBraces (a ++ b) depth = (openBraces a depth).bind (openBraces b) := by
  induction a generalizing depth with
  | nil => rfl
  | cons c a ih =>
      rw [List.cons_append, openBraces, openBraces]
      split
      · exact ih _
      · split
        · split
          · rfl
          · exact ih _
        · exact ih _

theorem openBraces_other {c : UInt8} (hopen : c ≠ 123) (hclose : c ≠ 125) (depth : Nat) :
    openBraces [c] depth = some depth := by
  rw [openBraces, if_neg hopen, if_neg hclose]
  rfl

/-- A text without braces opens none. -/
theorem openBraces_plain {s : Str} (h : 123 ∉ s ∧ 125 ∉ s) (depth : Nat) :
    openBraces s depth = some depth := by
  induction s with
  | nil => rfl
  | cons c s ih =>
      rw [List.mem_cons, not_or, List.mem_cons, not_or] at h
      rw [openBraces, if_neg (Ne.symm h.1.1), if_neg (Ne.symm h.2.1)]
      exact ih ⟨h.1.2, h.2.2⟩

/-- A text that opens no group cannot close one. -/
theorem unclosed_of_open {s : Str} {depth : Nat} (hopen : 123 ∉ s)
    (h : openBraces s 0 = some depth) : 125 ∉ s := by
  induction s with
  | nil => exact List.not_mem_nil
  | cons c s ih =>
      rw [List.mem_cons, not_or] at hopen
      rw [openBraces, if_neg (Ne.symm hopen.1)] at h
      by_cases hclose : c = 125
      · rw [if_pos hclose, if_pos rfl] at h
        cases h
      · rw [if_neg hclose] at h
        rw [List.mem_cons, not_or]
        exact ⟨Ne.symm hclose, ih hopen.2 h⟩

/-- Groups that were open before stay open. -/
theorem openBraces_add {s : Str} {depth left : Nat} (h : openBraces s depth = some left) (n : Nat) :
    openBraces s (depth + n) = some (left + n) := by
  induction s generalizing depth with
  | nil =>
      cases h
      rfl
  | cons c s ih =>
      rw [openBraces] at h ⊢
      split
      · rename_i hopen
        rw [if_pos hopen] at h
        have hshift := ih h
        rwa [Nat.add_right_comm] at hshift
      · rename_i hopen
        rw [if_neg hopen] at h
        split
        · rename_i hclose
          rw [if_pos hclose] at h
          by_cases hzero : depth = 0
          · rw [if_pos hzero] at h
            cases h
          · rw [if_neg hzero] at h
            have hshift := ih h
            rw [if_neg (by omega)]
            rwa [← Nat.sub_add_comm (by omega)] at hshift
        · rename_i hclose
          rw [if_neg hclose] at h
          exact ih h

/-- What is found inside a group is balanced. -/
theorem balanced_inner {pattern pre inner : Str} {depth : Nat} {found : Str × Str × Str}
    (h : findBraces pattern depth pre inner = some found)
    (hinner : depth ≠ 0 → openBraces inner 0 = some (depth - 1)) : BracesBalanced found.2.1 := by
  fun_induction findBraces pattern depth pre inner with
  | case1 => cases h
  | case2 rest pre inner ih => exact ih h fun _ => rfl
  | case3 c rest pre inner _ ih => exact ih h fun hne => absurd rfl hne
  | case4 rest depth pre inner ih =>
      refine ih h fun _ => ?_
      rw [openBraces_append, hinner (by omega)]
      rfl
  | case5 rest pre inner =>
      cases h
      exact hinner (by decide)
  | case6 rest depth pre inner ih =>
      refine ih h fun _ => ?_
      rw [openBraces_append, hinner (by omega)]
      rfl
  | case7 c rest depth pre inner hopen hclose hclose' ih =>
      refine ih h fun _ => ?_
      have hc : c ≠ 125 := by
        intro hc
        cases depth with
        | zero => exact hclose hc rfl
        | succ depth => exact hclose' depth hc rfl
      rw [openBraces_append, hinner (by omega)]
      exact openBraces_other hopen hc _

/-- The commas that separate stand where no group is open, so each alternative
is balanced. -/
theorem balanced_alternative {inner current : Str} {depth : Nat}
    (hinner : openBraces inner depth = some 0) (hcurrent : openBraces current 0 = some depth)
    {alternative : Str} (h : alternative ∈ splitAlternatives inner depth current) :
    BracesBalanced alternative := by
  induction inner generalizing depth current with
  | nil =>
      cases hinner
      rw [splitAlternatives, List.mem_singleton] at h
      rw [h]
      exact hcurrent
  | cons c rest ih =>
      have hsnoc : ∀ d, openBraces [c] depth = some d → openBraces (current ++ [c]) 0 = some d := by
        intro d hd
        rw [openBraces_append, hcurrent]
        exact hd
      by_cases hopen : c = 123
      · subst hopen
        have hone : openBraces rest (depth + 1) = some 0 := hinner
        exact ih hone (hsnoc _ rfl) h
      · by_cases hclose : c = 125
        · subst hclose
          cases depth with
          | zero => cases hinner
          | succ depth =>
              have hone : openBraces rest depth = some 0 := hinner
              refine ih hone (hsnoc _ rfl) ?_
              have hdepth : ((depth + 1 : Nat) : Int) - 1 = depth := by omega
              rw [splitAlternatives, hdepth] at h
              exact h
        · rw [openBraces, if_neg hopen, if_neg hclose] at hinner
          by_cases hcomma : c = 44 ∧ depth = 0
          · obtain ⟨rfl, rfl⟩ := hcomma
            rcases List.mem_cons.mp h with rfl | h
            · exact hcurrent
            · exact ih hinner rfl h
          · refine ih hinner (hsnoc _ (openBraces_other hopen hclose _)) ?_
            rw [splitAlternatives] at h
            · exact h
            · exact hopen
            · exact hclose
            · intro hd hc
              exact hcomma ⟨hc, by omega⟩

/-- Whether a group is found does not depend on what has been passed. -/
theorem findBraces_none {pattern : Str} {depth : Nat} {pre inner : Str} (pre' inner' : Str)
    (h : findBraces pattern depth pre inner = none) : findBraces pattern depth pre' inner' = none := by
  fun_induction findBraces pattern depth pre inner generalizing pre' inner' with
  | case1 => rfl
  | case2 rest pre inner ih => exact ih _ _ h
  | case3 c rest pre inner hopen ih =>
      rw [findBraces]
      · exact ih _ _ h
      · exact hopen
  | case4 rest depth pre inner ih => exact ih _ _ h
  | case5 => cases h
  | case6 rest depth pre inner ih => exact ih _ _ h
  | case7 c rest depth pre inner hopen hclose hclose' ih =>
      rw [findBraces]
      · exact ih _ _ h
      · exact hopen
      · exact hclose
      · exact hclose'

/-- Inside a group a balanced rest closes it. -/
theorem findBraces_open {pattern : Str} {depth : Nat} {pre inner : Str}
    (h : findBraces pattern (depth + 1) pre inner = none) :
    openBraces pattern (depth + 1) ≠ some 0 := by
  induction pattern generalizing depth inner with
  | nil =>
      intro hopen
      cases hopen
  | cons c rest ih =>
      rw [openBraces]
      by_cases hopen : c = 123
      · rw [if_pos hopen]
        rw [hopen] at h
        exact ih h
      · rw [if_neg hopen]
        by_cases hclose : c = 125
        · rw [if_pos hclose]
          rw [hclose] at h
          cases depth with
          | zero => cases h
          | succ depth => exact ih h
        · rw [if_neg hclose]
          rw [findBraces] at h
          · exact ih h
          · exact hopen
          · exact fun hc => absurd hc hclose
          · exact fun _ hc => absurd hc hclose

/-- A balanced text in which no group is found has no braces. -/
theorem plain_of_balanced {pattern pre : Str} (hbalanced : BracesBalanced pattern)
    (h : findBraces pattern 0 pre [] = none) : 123 ∉ pattern ∧ 125 ∉ pattern := by
  unfold BracesBalanced at hbalanced
  induction pattern generalizing pre with
  | nil => exact ⟨List.not_mem_nil, List.not_mem_nil⟩
  | cons c rest ih =>
      rw [openBraces] at hbalanced
      by_cases hopen : c = 123
      · rw [if_pos hopen] at hbalanced
        rw [hopen] at h
        exact absurd hbalanced (findBraces_open h)
      · rw [if_neg hopen] at hbalanced
        by_cases hclose : c = 125
        · rw [if_pos hclose] at hbalanced
          cases hbalanced
        · rw [if_neg hclose] at hbalanced
          rw [findBraces] at h
          · obtain ⟨h₁, h₂⟩ := ih hbalanced h
            rw [List.mem_cons, not_or, List.mem_cons, not_or]
            exact ⟨⟨Ne.symm hopen, h₁⟩, Ne.symm hclose, h₂⟩
          · exact hopen

/-- Before the first group no brace opens. -/
theorem pre_unopened {pattern pre inner : Str} {found : Str × Str × Str} {depth : Nat}
    (h : findBraces pattern depth pre inner = some found) (hpre : 123 ∉ pre) : 123 ∉ found.1 := by
  fun_induction findBraces pattern depth pre inner with
  | case1 => cases h
  | case2 rest pre inner ih => exact ih h hpre
  | case3 c rest pre inner hopen ih =>
      refine ih h ?_
      rw [List.mem_append, not_or, List.mem_singleton]
      exact ⟨hpre, fun hc => hopen hc.symm⟩
  | case4 rest depth pre inner ih => exact ih h hpre
  | case5 =>
      cases h
      exact hpre
  | case6 rest depth pre inner ih => exact ih h hpre
  | case7 c rest depth pre inner _ _ _ ih => exact ih h hpre

theorem findBraces_unopened {a : Str} (ha : 123 ∉ a) (b pre : Str) :
    findBraces (a ++ b) 0 pre [] = findBraces b 0 (pre ++ a) [] := by
  induction a generalizing pre with
  | nil => rw [List.nil_append, List.append_nil]
  | cons c a ih =>
      rw [List.mem_cons, not_or] at ha
      rw [List.cons_append, findBraces, ih ha.2, List.append_assoc, List.singleton_append]
      exact fun hc => ha.1 hc.symm

section Once

variable {pattern pre inner suffix : Str}

/-- What stands around a group in a balanced text. -/
theorem balanced_around (hbalanced : BracesBalanced pattern)
    (h : findBraces pattern 0 [] [] = some (pre, inner, suffix)) : 125 ∉ pre ∧ BracesBalanced suffix := by
  have hpre : 123 ∉ pre := pre_unopened h List.not_mem_nil
  have hinner : openBraces inner 0 = some 0 := balanced_inner h fun hne => absurd rfl hne
  have hgroup : openBraces (123 :: inner) 0 = some 1 := openBraces_add hinner 1
  unfold BracesBalanced at hbalanced ⊢
  rw [findBraces_split h, List.append_assoc, openBraces_append, Option.bind_eq_some_iff] at hbalanced
  obtain ⟨depth, hdepth, hbalanced⟩ := hbalanced
  have hclosed := unclosed_of_open hpre hdepth
  refine ⟨hclosed, ?_⟩
  rw [openBraces_plain ⟨hpre, hclosed⟩] at hdepth
  cases hdepth
  rw [openBraces_append, hgroup] at hbalanced
  exact hbalanced

theorem mem_combinations {suffixes expanded : List Str} {e : Str} :
    e ∈ combinations pre suffixes expanded ↔ ∃ a ∈ expanded, ∃ s ∈ suffixes, pre ++ a ++ s = e := by
  unfold combinations
  simp only [List.mem_flatMap, List.mem_map]

/-- What a group expands to is put together of its parts. -/
theorem mem_uncapped_group (h : findBraces pattern 0 [] [] = some (pre, inner, suffix)) {e : Str} :
    e ∈ uncapped pattern ↔ ∃ alternative ∈ splitAlternatives inner 0 [],
      ∃ a ∈ uncapped alternative, ∃ s ∈ uncapped suffix, pre ++ a ++ s = e := by
  rw [uncapped_group h, List.mem_flatMap]
  simp only [mem_combinations]

/-- A balanced pattern expands to texts without braces. -/
theorem plain_uncapped (hbalanced : BracesBalanced pattern) {e : Str} (he : e ∈ uncapped pattern) :
    123 ∉ e ∧ 125 ∉ e := by
  induction hn : pattern.length using Nat.strong_induction_on generalizing pattern e with
  | _ n ih =>
      cases hfind : findBraces pattern 0 [] [] with
      | none =>
          rw [uncapped_leaf hfind, List.mem_singleton] at he
          rw [he]
          exact plain_of_balanced hbalanced hfind
      | some found =>
          obtain ⟨pre, inner, suffix⟩ := found
          obtain ⟨hpre, hsuffix⟩ := balanced_around hbalanced hfind
          have hopen : 123 ∉ pre := pre_unopened hfind List.not_mem_nil
          have hinner : openBraces inner 0 = some 0 := balanced_inner hfind fun hne => absurd rfl hne
          obtain ⟨alternative, halternative, a, ha, s, hs, rfl⟩ := (mem_uncapped_group hfind).mp he
          have halt := alternative_lt hfind halternative
          have hlt := suffix_lt hfind
          have hplain := ih _ (by omega) (balanced_alternative hinner rfl halternative) ha rfl
          have hplain' := ih _ (by omega) hsuffix hs rfl
          simp only [List.mem_append, not_or]
          exact ⟨⟨⟨hopen, hplain.1⟩, hplain'.1⟩, ⟨hpre, hplain.2⟩, hplain'.2⟩

/-- No group is found in an expansion. -/
theorem findBraces_uncapped {e : Str} (he : e ∈ uncapped pattern) : findBraces e 0 [] [] = none := by
  induction hn : pattern.length using Nat.strong_induction_on generalizing pattern e with
  | _ n ih =>
      cases hfind : findBraces pattern 0 [] [] with
      | none =>
          rw [uncapped_leaf hfind, List.mem_singleton] at he
          rw [he]
          exact hfind
      | some found =>
          obtain ⟨pre, inner, suffix⟩ := found
          have hopen : 123 ∉ pre := pre_unopened hfind List.not_mem_nil
          have hinner : openBraces inner 0 = some 0 := balanced_inner hfind fun hne => absurd rfl hne
          obtain ⟨alternative, halternative, a, ha, s, hs, rfl⟩ := (mem_uncapped_group hfind).mp he
          obtain ⟨hplain, -⟩ := plain_uncapped (balanced_alternative hinner rfl halternative) ha
          have hlt := suffix_lt hfind
          have hunopened : 123 ∉ pre ++ a := by
            rw [List.mem_append, not_or]
            exact ⟨hopen, hplain⟩
          rw [findBraces_unopened hunopened]
          exact findBraces_none _ _ (ih _ (by omega) hs rfl)

/-- An expansion is not longer than what it is of. -/
theorem length_of_mem_uncapped {e : Str} (he : e ∈ uncapped pattern) :
    e.length ≤ pattern.length := by
  induction hn : pattern.length using Nat.strong_induction_on generalizing pattern e with
  | _ n ih =>
      cases hfind : findBraces pattern 0 [] [] with
      | none =>
          rw [uncapped_leaf hfind, List.mem_singleton] at he
          rw [he, hn]
      | some found =>
          obtain ⟨pre, inner, suffix⟩ := found
          obtain ⟨alternative, halternative, a, ha, s, hs, rfl⟩ := (mem_uncapped_group hfind).mp he
          have halt := alternative_lt hfind halternative
          have hlt := suffix_lt hfind
          have hlength := congrArg List.length (findBraces_split hfind)
          have hwithin := length_splitAlternatives halternative
          have ha' := ih _ (by omega) ha rfl
          have hs' := ih _ (by omega) hs rfl
          simp only [List.length_append, List.length_cons, List.length_nil] at hlength hwithin ⊢
          omega

end Once

-- =================================================================== the result

/-- A leaf is within every bound. -/
theorem WithinBounds.leaf {e : Str} (h : findBraces e 0 [] [] = none)
    (hlength : e.length ≤ kMaxBracePatternLength) : WithinBounds e := by
  refine ⟨hlength, ?_, ?_⟩
  · rw [braceDepth_leaf h]
    exact Nat.zero_le _
  · rw [braceCost_leaf h]
    decide

/-- All of the expansion or nothing, nothing only beyond a bound, and each text
of it expands to itself. -/
theorem expand_braces (pattern : Str) :
    (expandBraces pattern = [] ∨
        expandBraces pattern = uncapped pattern ∧ 1 ≤ (expandBraces pattern).length ∧
          (expandBraces pattern).length ≤ kMaxBraceExpansions) ∧
      (expandBraces pattern = [] ↔ kMaxBracePatternLength < pattern.length ∨
        kMaxBraceDepth < braceDepth pattern ∨ kMaxBraceExpansions < braceCost pattern) ∧
      ∀ e ∈ expandBraces pattern, expandBraces e = [e] := by
  by_cases h : WithinBounds pattern
  · rw [expandBraces_within h]
    have hne := uncapped_ne_nil pattern
    refine ⟨.inr ⟨rfl, List.length_pos_iff.mpr hne, ?_⟩, ?_, ?_⟩
    · exact (length_uncapped_le pattern).trans h.2.2
    · refine iff_of_false hne ?_
      obtain ⟨hlength, hdepth, hcost⟩ := h
      omega
    · intro e he
      have hleaf := findBraces_uncapped he
      rw [expandBraces_within (.leaf hleaf ((length_of_mem_uncapped he).trans h.1)),
        uncapped_leaf hleaf]
  · rw [expandBraces_beyond h]
    refine ⟨.inl rfl, iff_of_true rfl ?_, nofun⟩
    unfold WithinBounds at h
    omega

/-- A group in a group, and a brace that opens none. -/
theorem expand_braces_nested :
    str "\x7dacd" ∈ expandBraces (str "\x7d\x7ba\x7bb,c\x7d,\x7dd") ∧
      expandBraces (str "\x7dacd") = [str "\x7dacd"] := by
  have hmem : str "\x7dacd" ∈ expandBraces (str "\x7d\x7ba\x7bb,c\x7d,\x7dd") := by
    decide +kernel
  exact ⟨hmem, (expand_braces _).2.2 _ hmem⟩

end GDrive
