/-
What `MatchPath` says, without its memo: the segments of a pattern match the
segments of a path one by one, and `**` matches any number of them
(`matchPath_eq`).

# The memo

A table that knows nothing wrong changes no answer, and what is written into
it is right (`matchSegments_eq`). A version of the recursion that checks every
index never fails (`matchSegmentsChecked_eq`). Together they say what
`MatchPath` is (`match_path`).

# Literal segments

A segment without metacharacters matches itself only, so whatever a pattern
matches extends its literal prefix (`segmentsMatch_append`), which is why a glob
lists below the prefix and nowhere else.
-/
import Mathlib.Data.List.TakeWhile
import GDrive.Fs.GlobPattern

namespace GDrive

section Match

variable (signed : Bool)

-- ==================================================================== a path

/-- `MatchSegments` without its memo. -/
def segmentsMatch : List Str → List Str → Bool
  | [], path => path.isEmpty
  | pattern :: patterns, path =>
      if pattern = str "**" then path.tails.any (segmentsMatch patterns)
      else
        match path with
        | [] => false
        | segment :: rest => matchSegment signed pattern segment && segmentsMatch patterns rest

theorem segmentsMatch_cons (pattern : Str) (patterns path : List Str) :
    segmentsMatch signed (pattern :: patterns) path =
      if pattern = str "**" then path.tails.any (segmentsMatch signed patterns)
      else
        match path with
        | [] => false
        | segment :: rest =>
            matchSegment signed pattern segment && segmentsMatch signed patterns rest := by
  cases path <;> rfl

/-- A memo that knows nothing wrong. -/
def MatchMemo.Sound (patterns path : List Str) (memo : MatchMemo) : Prop :=
  ∀ pi si b, memo.read pi si = some b → b = segmentsMatch signed (patterns.drop pi) (path.drop si)

/-- `**` takes no segment, or one and stays. -/
theorem tails_any (f : List Str → Bool) (path : List Str) :
    path.tails.any f = (f path || match path with | [] => false | _ :: rest => rest.tails.any f) := by
  cases path with
  | nil => simp
  | cons segment rest => rw [List.tails_cons, List.any_cons]

theorem MatchMemo.read_write {memo : MatchMemo} {pi si pi' si' : Nat} {result b : Bool}
    (h : (memo.write pi si result).read pi' si' = some b) :
    (pi' = pi ∧ si' = si ∧ b = result) ∨ memo.read pi' si' = some b := by
  unfold MatchMemo.write MatchMemo.read at h
  unfold MatchMemo.read
  rw [List.getD_eq_getElem?_getD, List.getD_eq_getElem?_getD, List.getElem?_modify] at h
  rw [List.getD_eq_getElem?_getD, List.getD_eq_getElem?_getD]
  cases hrow : memo[pi']? with
  | none =>
      rw [hrow] at h
      simp at h
  | some row =>
      rw [hrow] at h
      simp only [Option.map_eq_map, Option.map_some, Option.getD_some] at h
      by_cases hpi : pi = pi'
      · rw [if_pos hpi, List.getElem?_set] at h
        by_cases hsi : si = si'
        · rw [if_pos hsi] at h
          split at h
          · cases h
            exact .inl ⟨hpi.symm, hsi.symm, rfl⟩
          · cases h
        · rw [if_neg hsi] at h
          exact .inr h
      · rw [if_neg hpi] at h
        exact .inr h

variable {patterns path : List Str} {memo : MatchMemo} {pi si : Nat}

theorem MatchMemo.Sound.write (h : memo.Sound signed patterns path) :
    (memo.write pi si (segmentsMatch signed (patterns.drop pi) (path.drop si))).Sound signed
      patterns path := by
  intro pi' si' b hb
  rcases MatchMemo.read_write hb with ⟨rfl, rfl, rfl⟩ | hold
  · rfl
  · exact h pi' si' b hold

/-- The memo changes nothing; by induction on the fuel, which is enough for
what is left of the two lists. -/
theorem matchSegments_eq {fuel : Nat} (hpi : pi ≤ patterns.length) (hsi : si ≤ path.length)
    (hfuel : patterns.length - pi + (path.length - si) < fuel)
    (hmemo : memo.Sound signed patterns path) :
    (matchSegments signed patterns path fuel pi si memo).1 =
        segmentsMatch signed (patterns.drop pi) (path.drop si) ∧
      (matchSegments signed patterns path fuel pi si memo).2.Sound signed patterns path := by
  induction fuel generalizing pi si memo with
  | zero => omega
  | succ fuel ih =>
      unfold matchSegments
      by_cases hend : pi = patterns.length
      · rw [if_pos hend, hend, List.drop_length, segmentsMatch]
        refine ⟨?_, hmemo⟩
        by_cases hlast : si = path.length
        · rw [hlast, List.drop_length]
          simp
        · have hrest : path.drop si ≠ [] := by
            rw [Ne, List.drop_eq_nil_iff]
            omega
          simp [hlast, hrest]
      · rw [if_neg hend]
        have hlt : pi < patterns.length := by omega
        cases hread : memo.read pi si with
        | some cached => exact ⟨hmemo pi si cached hread, hmemo⟩
        | none =>
            simp only
            -- What this round computes is written down as it is returned.
            generalize hr : (if patterns.getD pi [] = str "**" then _ else _ : Bool × MatchMemo) = r
            suffices h : r.1 = segmentsMatch signed (patterns.drop pi) (path.drop si) ∧
                r.2.Sound signed patterns path by
              refine ⟨h.1, ?_⟩
              rw [h.1]
              exact h.2.write signed
            have hpattern : patterns.drop pi = patterns.getD pi [] :: patterns.drop (pi + 1) := by
              rw [List.drop_eq_getElem_cons hlt, List.getD_eq_getElem?_getD,
                List.getElem?_eq_getElem hlt, Option.getD_some]
            rw [hpattern, segmentsMatch_cons, ← hr]
            by_cases hstar : patterns.getD pi [] = str "**"
            · rw [if_pos hstar, if_pos hstar, tails_any]
              have hskip := ih (show pi + 1 ≤ patterns.length by omega) hsi (by omega) hmemo
              by_cases hmatch : (matchSegments signed patterns path fuel (pi + 1) si memo).1 = true
              · rw [if_pos hmatch, ← hskip.1, hmatch, Bool.true_or]
                exact ⟨rfl, hskip.2⟩
              · rw [if_neg hmatch, ← hskip.1, Bool.eq_false_iff.mpr hmatch, Bool.false_or]
                by_cases hmore : si < path.length
                · have hstay := ih hpi (show si + 1 ≤ path.length by omega) (by omega) hskip.2
                  rw [hpattern, segmentsMatch_cons, if_pos hstar] at hstay
                  rw [if_pos hmore, List.drop_eq_getElem_cons hmore]
                  exact hstay
                · rw [if_neg hmore, List.drop_eq_nil_of_le (by omega)]
                  exact ⟨Bool.eq_false_iff.mpr hmatch, hskip.2⟩
            · rw [if_neg hstar, if_neg hstar]
              by_cases hnone : si = path.length
              · rw [if_pos hnone, hnone, List.drop_length]
                exact ⟨rfl, hmemo⟩
              · have hmore : si < path.length := by omega
                rw [if_neg hnone, List.drop_eq_getElem_cons hmore]
                have hsegment : path.getD si [] = path[si] := by
                  rw [List.getD_eq_getElem?_getD, List.getElem?_eq_getElem hmore, Option.getD_some]
                rw [hsegment]
                simp only
                by_cases hmatch : matchSegment signed (patterns.getD pi []) path[si] = true
                · rw [if_pos hmatch, hmatch, Bool.true_and]
                  exact ih (by omega) (by omega) (by omega) hmemo
                · rw [if_neg hmatch, Bool.eq_false_iff.mpr hmatch, Bool.false_and]
                  exact ⟨rfl, hmemo⟩

/-- A path divided into consecutive groups of segments, one for each segment
of a pattern: any number for `**`, and else one that matches. -/
inductive Divides : List Str → List Str → Prop
  | nil : Divides [] []
  | stars {patterns path : List Str} (group : List Str) :
      Divides patterns path → Divides (str "**" :: patterns) (group ++ path)
  | one {pattern segment : Str} {patterns path : List Str} :
      pattern ≠ str "**" → matchSegment signed pattern segment = true → Divides patterns path →
      Divides (pattern :: patterns) (segment :: path)

/-- By induction on the pattern, whose first segment says which group is
first. -/
theorem segmentsMatch_iff (patterns path : List Str) :
    segmentsMatch signed patterns path = true ↔ Divides signed patterns path := by
  induction patterns generalizing path with
  | nil =>
      rw [segmentsMatch, List.isEmpty_iff]
      constructor
      · intro h
        rw [h]
        exact .nil
      · intro h
        cases h
        rfl
  | cons pattern patterns ih =>
      rw [segmentsMatch_cons]
      by_cases hstars : pattern = str "**"
      · rw [if_pos hstars, hstars, List.any_eq_true]
        constructor
        · intro ⟨rest, hrest, hmatch⟩
          obtain ⟨group, rfl⟩ := (List.mem_tails _ _).mp hrest
          exact .stars group ((ih rest).mp hmatch)
        · intro h
          cases h with
          | stars group h => exact ⟨_, (List.mem_tails _ _).mpr ⟨group, rfl⟩, (ih _).mpr h⟩
          | one hne => exact absurd rfl hne
      · rw [if_neg hstars]
        constructor
        · intro h
          cases path with
          | nil => cases h
          | cons segment path =>
              rw [Bool.and_eq_true] at h
              exact .one hstars h.1 ((ih path).mp h.2)
        · intro h
          cases h with
          | stars => exact absurd rfl hstars
          | one _ hmatch h =>
              rw [Bool.and_eq_true]
              exact ⟨hmatch, (ih _).mpr h⟩

-- =================================================================== the bounds

/-- The cell of a table, where it has one. -/
def MatchMemo.cell (memo : MatchMemo) (pi si : Nat) : Option (Option Bool) :=
  memo[pi]?.bind fun row => row[si]?

/-- `MatchSegments` with every index checked: nothing where one is out of
bounds, or a call deeper than `fuel`. -/
def matchSegmentsChecked (patternSegments pathSegments : List Str) :
    Nat → Nat → Nat → MatchMemo → Option (Bool × MatchMemo)
  | 0, _, _, _ => none
  | fuel + 1, pi, si, memo =>
      if pi = patternSegments.length then some (decide (si = pathSegments.length), memo)
      else
        match memo.cell pi si, patternSegments[pi]? with
        | some (some cached), _ => some (cached, memo)
        | some none, some pattern =>
            let r :=
              if pattern = str "**" then
                match matchSegmentsChecked patternSegments pathSegments fuel (pi + 1) si memo with
                | none => none
                | some skip =>
                    if skip.1 then some skip
                    else if si < pathSegments.length then
                      matchSegmentsChecked patternSegments pathSegments fuel pi (si + 1) skip.2
                    else some skip
              else if si = pathSegments.length then some (false, memo)
              else
                match pathSegments[si]? with
                | none => none
                | some segment =>
                    if matchSegment signed pattern segment then
                      matchSegmentsChecked patternSegments pathSegments fuel (pi + 1) (si + 1) memo
                    else some (false, memo)
            match r with
            | none => none
            | some r =>
                match r.2.cell pi si with
                | none => none
                | some _ => some (r.1, r.2.write pi si r.1)
        | _, _ => none

/-- A table with a cell for every place in a pattern and in a path. -/
def MatchMemo.Table (patterns path : List Str) (memo : MatchMemo) : Prop :=
  ∀ pi si, pi ≤ patterns.length → si ≤ path.length → (memo.cell pi si).isSome = true

section Bounds

variable {patterns path : List Str} {memo : MatchMemo} {pi si : Nat}

theorem MatchMemo.read_of_cell {cell : Option Bool} (h : memo.cell pi si = some cell) :
    memo.read pi si = cell := by
  unfold MatchMemo.cell at h
  unfold MatchMemo.read
  obtain ⟨row, hrow, hcell⟩ := Option.bind_eq_some_iff.mp h
  rw [List.getD_eq_getElem?_getD, List.getD_eq_getElem?_getD, hrow, Option.getD_some, hcell,
    Option.getD_some]

theorem MatchMemo.Table.write (h : memo.Table patterns path) (pi si : Nat) (result : Bool) :
    (memo.write pi si result).Table patterns path := by
  intro pi' si' hpi hsi
  obtain ⟨cell, hcell⟩ := Option.isSome_iff_exists.mp (h pi' si' hpi hsi)
  obtain ⟨row, hrow, hcell'⟩ := Option.bind_eq_some_iff.mp hcell
  obtain ⟨hlt, -⟩ := List.getElem?_eq_some_iff.mp hcell'
  unfold MatchMemo.cell MatchMemo.write
  rw [List.getElem?_modify, hrow]
  simp only [Option.map_eq_map, Option.map_some, Option.bind_some]
  split
  · rw [List.getElem?_eq_getElem (by rw [List.length_set]; exact hlt)]
    rfl
  · rw [hcell']
    rfl

/-- No index is out of bounds, and the checks change nothing; by induction on
the fuel, as in `matchSegments_eq`. -/
theorem matchSegmentsChecked_eq {fuel : Nat} (hpi : pi ≤ patterns.length) (hsi : si ≤ path.length)
    (hfuel : patterns.length - pi + (path.length - si) < fuel) (hmemo : memo.Table patterns path) :
    matchSegmentsChecked signed patterns path fuel pi si memo =
        some (matchSegments signed patterns path fuel pi si memo) ∧
      (matchSegments signed patterns path fuel pi si memo).2.Table patterns path := by
  induction fuel generalizing pi si memo with
  | zero => omega
  | succ fuel ih =>
      unfold matchSegmentsChecked matchSegments
      by_cases hend : pi = patterns.length
      · rw [if_pos hend, if_pos hend]
        exact ⟨rfl, hmemo⟩
      · have hlt : pi < patterns.length := by omega
        obtain ⟨cell, hcell⟩ := Option.isSome_iff_exists.mp (hmemo pi si hpi hsi)
        rw [if_neg hend, if_neg hend, hcell, MatchMemo.read_of_cell hcell,
          List.getElem?_eq_getElem hlt]
        have hpattern : patterns.getD pi [] = patterns[pi] := by
          rw [List.getD_eq_getElem?_getD, List.getElem?_eq_getElem hlt, Option.getD_some]
        cases cell with
        | some cached => exact ⟨rfl, hmemo⟩
        | none =>
            rw [hpattern]
            simp only
            -- Both rounds come to the same, in a table that still has every cell.
            suffices h : ∀ (r : Option (Bool × MatchMemo)) (r' : Bool × MatchMemo), r = some r' →
                r'.2.Table patterns path →
                (match r with
                  | none => none
                  | some r =>
                      match r.2.cell pi si with
                      | none => none
                      | some _ => some (r.1, r.2.write pi si r.1)) =
                    some (r'.1, r'.2.write pi si r'.1) ∧
                  (r'.2.write pi si r'.1).Table patterns path by
              apply h
              · split
                · have hskip := ih (show pi + 1 ≤ patterns.length by omega) hsi (by omega) hmemo
                  rw [hskip.1]
                  simp only
                  split
                  · rfl
                  · split
                    · exact (ih hpi (by omega) (by omega) hskip.2).1
                    · rfl
                · split
                  · rfl
                  · have hmore : si < path.length := by omega
                    have hsegment : path.getD si [] = path[si] := by
                      rw [List.getD_eq_getElem?_getD, List.getElem?_eq_getElem hmore,
                        Option.getD_some]
                    rw [List.getElem?_eq_getElem hmore, hsegment]
                    simp only
                    split
                    · exact (ih (by omega) (by omega) (by omega) hmemo).1
                    · rfl
              · split
                · have hskip := ih (show pi + 1 ≤ patterns.length by omega) hsi (by omega) hmemo
                  split
                  · exact hskip.2
                  · split
                    · exact (ih hpi (by omega) (by omega) hskip.2).2
                    · exact hskip.2
                · split
                  · exact hmemo
                  · split
                    · exact (ih (by omega) (by omega) (by omega) hmemo).2
                    · exact hmemo
            intro r r' hr htable
            obtain ⟨cell, hcell⟩ := Option.isSome_iff_exists.mp (htable pi si hpi hsi)
            rw [hr]
            simp only
            rw [hcell]
            exact ⟨rfl, htable.write _ _ _⟩

end Bounds

/-- A table without an answer in it. -/
def freshMemo (patterns path : List Str) : MatchMemo :=
  List.replicate (patterns.length + 1) (List.replicate (path.length + 1) none)

theorem freshMemo_table (patterns path : List Str) : (freshMemo patterns path).Table patterns path := by
  intro pi si hpi hsi
  unfold MatchMemo.cell freshMemo
  rw [List.getElem?_replicate, if_pos (by omega), Option.bind_some, List.getElem?_replicate,
    if_pos (by omega)]
  rfl

theorem freshMemo_sound (patterns path : List Str) :
    (freshMemo patterns path).Sound signed patterns path := by
  intro pi si b hb
  unfold MatchMemo.read freshMemo at hb
  simp only [List.getD_eq_getElem?_getD, List.getElem?_replicate] at hb
  split at hb
  · rw [Option.getD_some, List.getElem?_replicate] at hb
    split at hb
    · cases hb
    · cases hb
  · cases hb

theorem matchPath_eq (pattern path : Str) :
    matchPath signed pattern path = segmentsMatch signed (pattern.splitOn 47) (path.splitOn 47) := by
  exact (matchSegments_eq signed (Nat.zero_le _) (Nat.zero_le _) (by omega)
    (freshMemo_sound signed _ _)).1

/-- `MatchPath` says whether the segments of a path can be divided along a
pattern. No index is out of bounds, and whatever the table already knows, every
call says what the pattern and the path say from its place on. -/
theorem match_path (pattern path : Str) :
    (matchPath signed pattern path = true ↔
        Divides signed (pattern.splitOn 47) (path.splitOn 47)) ∧
      (∃ memo, matchSegmentsChecked signed (pattern.splitOn 47) (path.splitOn 47)
          ((pattern.splitOn 47).length + (path.splitOn 47).length + 1) 0 0
          (freshMemo (pattern.splitOn 47) (path.splitOn 47)) =
        some (matchPath signed pattern path, memo)) ∧
      ∀ (patterns segments : List Str) (memo : MatchMemo), memo.Table patterns segments →
        memo.Sound signed patterns segments →
        ∀ pi ≤ patterns.length, ∀ si ≤ segments.length,
          ∀ fuel, patterns.length - pi + (segments.length - si) < fuel →
          ∃ answer memo', matchSegmentsChecked signed patterns segments fuel pi si memo =
              some (answer, memo') ∧
            memo'.Table patterns segments ∧ memo'.Sound signed patterns segments ∧
            (answer = true ↔ Divides signed (patterns.drop pi) (segments.drop si)) := by
  refine ⟨?_, ?_, ?_⟩
  · rw [matchPath_eq]
    exact segmentsMatch_iff signed _ _
  · have hchecked := matchSegmentsChecked_eq signed (Nat.zero_le _) (Nat.zero_le _)
      (show _ < (pattern.splitOn 47).length + (path.splitOn 47).length + 1 by omega)
      (freshMemo_table (pattern.splitOn 47) (path.splitOn 47))
    exact ⟨_, hchecked.1⟩
  · intro patterns segments memo htable hsound pi hpi si hsi fuel hfuel
    obtain ⟨hchecked, htable'⟩ := matchSegmentsChecked_eq signed hpi hsi hfuel htable
    obtain ⟨hanswer, hsound'⟩ := matchSegments_eq signed hpi hsi hfuel hsound
    refine ⟨_, _, hchecked, htable', hsound', ?_⟩
    rw [hanswer]
    exact segmentsMatch_iff signed _ _

/-- `a/**/b` and `a/b`, and the call for what is behind the two `a`. -/
theorem match_path_stars :
    (matchPath true (str "a/**/b") (str "a/b") = true ↔
        Divides true ((str "a/**/b").splitOn 47) ((str "a/b").splitOn 47)) ∧
      ∃ answer memo', matchSegmentsChecked true [str "a", str "**", str "b"] [str "a", str "b"] 4 1 1
          (freshMemo [str "a", str "**", str "b"] [str "a", str "b"]) = some (answer, memo') ∧
        memo'.Table [str "a", str "**", str "b"] [str "a", str "b"] ∧
        memo'.Sound true [str "a", str "**", str "b"] [str "a", str "b"] ∧
        (answer = true ↔ Divides true [str "**", str "b"] [str "b"]) :=
  ⟨(match_path true _ _).1,
    (match_path true [] []).2.2 _ _ _ (freshMemo_table _ _) (freshMemo_sound _ _ _) 1 (by decide) 1
      (by decide) 4 (by decide)⟩

-- =========================================================== literal segments

variable {signed}

/-- A segment without metacharacters matches itself. -/
theorem matchLoop_literal {pattern name : Str} {fuel : Nat}
    (h : hasGlobMetacharacters pattern = false) (hfuel : name.length < fuel) :
    matchLoop signed fuel pattern name none = some (decide (pattern = name)) := by
  induction name generalizing pattern fuel with
  | nil =>
      obtain ⟨fuel, rfl⟩ := Nat.exists_eq_add_of_lt hfuel
      cases pattern with
      | nil => rfl
      | cons p pattern =>
          simp only [hasGlobMetacharacters, List.any_cons, Bool.or_eq_false_iff] at h
          have hp : (p == 42) = false := h.1.1.1.1
          simp [matchLoop, hp]
  | cons c name ih =>
      obtain ⟨fuel, rfl⟩ : ∃ k, fuel = k + 1 := ⟨fuel - 1, by omega⟩
      cases pattern with
      | nil => rfl
      | cons p pattern =>
          simp only [hasGlobMetacharacters, List.any_cons, Bool.or_eq_false_iff] at h
          obtain ⟨⟨⟨⟨hstar, hquery⟩, hclass⟩, -⟩, hrest⟩ := h
          have hbyte : matchByte signed (p :: pattern) c = (c == p, pattern) := by
            unfold matchByte
            split
            · rename_i heq
              cases heq
            · rename_i heq
              cases heq
              cases hquery
            · rename_i heq
              cases heq
              cases hclass
            · rename_i heq
              cases heq
              rfl
          have hhead : (p :: pattern).head? ≠ some 42 := by
            intro heq
            rw [List.head?_cons, Option.some.injEq] at heq
            rw [heq] at hstar
            cases hstar
          unfold matchLoop
          rw [if_neg hhead, hbyte]
          by_cases hc : c = p
          · subst hc
            simp only [beq_self_eq_true, if_true]
            rw [ih hrest (by simpa using hfuel)]
            simp
          · have hne : (c == p) = false := by simpa using hc
            rw [hne, if_neg Bool.false_ne_true]
            simp [Ne.symm hc]

theorem matchSegment_literal {pattern : Str} (h : hasGlobMetacharacters pattern = false)
    (name : Str) : matchSegment signed pattern name = decide (pattern = name) := by
  unfold matchSegment
  have hfuel : name.length < matchFuel pattern name := by
    have hpos : 0 < (pattern.length + 2) * (name.length + 2) := Nat.mul_pos (by omega) (by omega)
    exact lt_of_lt_of_le (by omega) (Nat.le_mul_of_pos_left (name.length + 2) hpos)
  rw [matchLoop_literal h hfuel, Option.getD_some]

theorem ne_stars_of_literal {pattern : Str} (h : hasGlobMetacharacters pattern = false) :
    pattern ≠ str "**" := by
  rintro rfl
  cases h

/-- What matches has the pattern's literal segments first. -/
theorem segmentsMatch_append {literal tail path : List Str}
    (h : ∀ s ∈ literal, hasGlobMetacharacters s = false) :
    segmentsMatch signed (literal ++ tail) path = true ↔
      ∃ rest, path = literal ++ rest ∧ segmentsMatch signed tail rest = true := by
  induction literal generalizing path with
  | nil => simp
  | cons s literal ih =>
      rw [List.forall_mem_cons] at h
      rw [List.cons_append, segmentsMatch_cons, if_neg (ne_stars_of_literal h.1)]
      cases path with
      | nil => simp
      | cons segment path =>
          simp only [Bool.and_eq_true, matchSegment_literal h.1, decide_eq_true_eq, ih h.2]
          constructor
          · intro ⟨hs, rest, hpath, hrest⟩
            exact ⟨rest, by rw [hs, hpath, List.cons_append], hrest⟩
          · intro ⟨rest, hpath, hrest⟩
            rw [List.cons_append, List.cons.injEq] at hpath
            exact ⟨hpath.1.symm, rest, hpath.2, hrest⟩

/-- One segment that is not `**` matches one segment. -/
theorem length_of_segmentsMatch {pattern : Str} {path : List Str} (hne : pattern ≠ str "**")
    (h : segmentsMatch signed [pattern] path = true) : path.length = 1 := by
  rw [segmentsMatch_cons, if_neg hne] at h
  match path with
  | [] => cases h
  | [_] => rfl
  | _ :: _ :: _ => simp [segmentsMatch] at h

/-- All segments literal: only the path itself. -/
theorem segmentsMatch_literal {literal path : List Str}
    (h : ∀ s ∈ literal, hasGlobMetacharacters s = false) :
    segmentsMatch signed literal path = true ↔ path = literal := by
  have hall : segmentsMatch signed (literal ++ []) path = true ↔ _ := segmentsMatch_append h
  rw [List.append_nil] at hall
  rw [hall]
  constructor
  · intro ⟨rest, hpath, hrest⟩
    have hnil : rest = [] := by simpa [segmentsMatch] using hrest
    rw [hpath, hnil, List.append_nil]
  · intro hpath
    exact ⟨[], by rw [hpath, List.append_nil], rfl⟩

end Match

-- ==================================================================== splits

theorem hasGlobMetacharacters_append (a b : Str) :
    hasGlobMetacharacters (a ++ b) = (hasGlobMetacharacters a || hasGlobMetacharacters b) :=
  List.any_append

/-- A slash is no metacharacter. -/
theorem literal_intercalate {segments : List Str}
    (h : ∀ s ∈ segments, hasGlobMetacharacters s = false) :
    hasGlobMetacharacters ([47].intercalate segments) = false := by
  induction segments with
  | nil => rfl
  | cons s rest ih =>
      rw [List.forall_mem_cons] at h
      cases rest with
      | nil =>
          rw [List.intercalate_singleton]
          exact h.1
      | cons s' rest =>
          rw [List.intercalate_cons_cons, hasGlobMetacharacters_append,
            hasGlobMetacharacters_append, h.1, ih h.2]
          rfl

/-- And no piece of a literal text has one. -/
theorem literal_of_intercalate {segments : List Str}
    (h : hasGlobMetacharacters ([47].intercalate segments) = false) :
    ∀ s ∈ segments, hasGlobMetacharacters s = false := by
  induction segments with
  | nil => nofun
  | cons s rest ih =>
      rw [List.forall_mem_cons]
      cases rest with
      | nil =>
          rw [List.intercalate_singleton] at h
          exact ⟨h, nofun⟩
      | cons s' rest =>
          rw [List.intercalate_cons_cons, hasGlobMetacharacters_append,
            hasGlobMetacharacters_append, Bool.or_eq_false_iff, Bool.or_eq_false_iff] at h
          exact ⟨h.1.1, ih h.2⟩

theorem intercalate_prefix (a b : List Str) :
    [47].intercalate a <+: [47].intercalate (a ++ b) := by
  induction a with
  | nil => exact List.nil_prefix
  | cons s rest ih =>
      cases rest with
      | nil =>
          cases b with
          | nil => exact List.prefix_refl _
          | cons t b =>
              rw [List.intercalate_singleton, List.singleton_append, List.intercalate_cons_cons,
                List.append_assoc]
              exact List.prefix_append _ _
      | cons s' rest =>
          rw [List.cons_append, List.cons_append, List.intercalate_cons_cons,
            List.intercalate_cons_cons, List.prefix_append_right_inj]
          exact ih

/-- A pattern is its literal segments and a tail, which is one segment other
than `**` where one listing will do. -/
theorem splitGlob_spec {pattern : Str} (h : hasGlobMetacharacters pattern = true) :
    ∃ literal tail, pattern.splitOn 47 = literal ++ tail ∧ tail ≠ [] ∧
      (∀ s ∈ literal, hasGlobMetacharacters s = false) ∧
      (splitGlob pattern).literalPrefix = [47].intercalate literal ∧
      ((splitGlob pattern).recursive = false → ∃ s, tail = [s] ∧ s ≠ str "**") := by
  have htail : (pattern.splitOn 47).dropWhile (!hasGlobMetacharacters ·) ≠ [] := by
    intro hnil
    rw [List.dropWhile_eq_nil_iff] at hnil
    have hliteral : hasGlobMetacharacters ([47].intercalate (pattern.splitOn 47)) = false :=
      literal_intercalate fun s hs => by simpa using hnil s hs
    rw [List.intercalate_splitOn, h] at hliteral
    cases hliteral
  refine ⟨(pattern.splitOn 47).takeWhile (!hasGlobMetacharacters ·),
    (pattern.splitOn 47).dropWhile (!hasGlobMetacharacters ·),
    List.takeWhile_append_dropWhile.symm, htail, ?_, ?_, ?_⟩
  · intro s hs
    simpa using List.mem_takeWhile_imp hs
  · unfold splitGlob
    rw [h, if_neg (by simp)]
  · intro hone
    unfold splitGlob at hone
    rw [h, if_neg (by simp)] at hone
    simp only [Bool.or_eq_false_iff, decide_eq_false_iff_not] at hone
    obtain ⟨hlength, hstars⟩ := hone
    match hsplit : (pattern.splitOn 47).dropWhile (!hasGlobMetacharacters ·) with
    | [] => exact absurd hsplit htail
    | [s] =>
        refine ⟨s, rfl, ?_⟩
        rw [hsplit, List.intercalate_singleton] at hstars
        intro hs
        rw [hs] at hstars
        exact absurd hstars (by decide)
    | _ :: _ :: _ =>
        rw [hsplit] at hlength
        simp at hlength

theorem literalPrefix_begins {pattern : Str} (h : hasGlobMetacharacters pattern = true) :
    (splitGlob pattern).literalPrefix <+: pattern := by
  obtain ⟨literal, tail, hsplit, -, -, hbegins, -⟩ := splitGlob_spec h
  have hpattern : [47].intercalate (pattern.splitOn 47) = pattern := List.intercalate_splitOn 47
  rw [hsplit] at hpattern
  rw [hbegins, ← hpattern]
  exact intercalate_prefix literal tail

end GDrive
