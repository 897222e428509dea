/-
What `MatchSegment` says: the name can be divided along the tokens of the
pattern (`match_segment`).

# The tokens

`*` is any run of bytes, `?` any byte, a closed class one byte in it, and
whatever else stands in the pattern is itself, an unclosed `[` too. A class
closes at the first `]` that is not the first of its body, so its body is
known before it is read, and a `-` at either end of it joins nothing
(`classItems`).

# The loop

`MatchSegmentImpl` reads a token where it needs one. Read all at once they
make its loop the greedy matcher (`matchLoop_eq`), which ends and decides.
-/
import Mathlib.Data.List.TakeWhile
import Mathlib.Tactic.Linarith
import GDrive.Fs.GlobPattern
import GDrive.Wildcard.Greedy

namespace GDrive

open Wildcard

-- ================================================================== the tokens

/-- What the body of a class is made of. -/
inductive ClassItem
  | member (x : UInt8)
  | range (lo hi : UInt8)

/-- The items of a body: `x-y` wherever all three are there. -/
def classItems : Str → List ClassItem
  | x :: 45 :: y :: rest => .range x y :: classItems rest
  | x :: rest => .member x :: classItems rest
  | [] => []

/-- What stands before the next `]`, and behind it. -/
def closeClass : Str → Option (Str × Str)
  | [] => none
  | 93 :: rest => some ([], rest)
  | x :: rest => (closeClass rest).map fun r => (x :: r.1, r.2)

/-- The body of a class, which is not empty, and what follows the class. -/
def classBody : Str → Option (Str × Str)
  | [] => none
  | x :: rest => (closeClass rest).map fun r => (x :: r.1, r.2)

/-- What one byte is matched with. -/
inductive Token
  | any
  | cls (negated : Bool) (items : List ClassItem)
  | byte (b : UInt8)

/-- The class that begins behind a `[`, and what follows it. -/
def classToken : Str → Option (Token × Str)
  | 33 :: rest | 94 :: rest => -- '!', '^'
      (classBody rest).map fun r => (.cls true (classItems r.1), r.2)
  | rest => (classBody rest).map fun r => (.cls false (classItems r.1), r.2)

/-- The first token of a pattern, and the pattern behind it; `*` is none. -/
def firstToken : Str → Option (Option Token × Str)
  | [] => none
  | 42 :: rest => some (none, rest)
  | 63 :: rest => some (some .any, rest)
  | 91 :: rest =>
      match classToken rest with
      | some (token, rest) => some (some token, rest)
      | none => some (some (.byte 91), rest)
  | b :: rest => some (some (.byte b), rest)

theorem closeClass_lt {s body rest : Str} (h : closeClass s = some (body, rest)) :
    rest.length < s.length := by
  fun_induction closeClass s generalizing body with
  | case1 => cases h
  | case2 =>
      cases h
      exact Nat.lt_succ_self _
  | case3 x rest' _ ih =>
      obtain ⟨⟨body', rest''⟩, hclose, heq⟩ := Option.map_eq_some_iff.mp h
      cases heq
      exact Nat.lt_succ_of_lt (ih hclose)

theorem classBody_lt {s body rest : Str} (h : classBody s = some (body, rest)) :
    rest.length < s.length := by
  match s with
  | [] => cases h
  | x :: s =>
      obtain ⟨⟨body', rest'⟩, hclose, heq⟩ := Option.map_eq_some_iff.mp h
      cases heq
      exact Nat.lt_succ_of_lt (closeClass_lt hclose)

theorem classToken_lt {s rest : Str} {token : Token} (h : classToken s = some (token, rest)) :
    rest.length < s.length := by
  unfold classToken at h
  split at h
  all_goals
    obtain ⟨⟨body, rest'⟩, hbody, heq⟩ := Option.map_eq_some_iff.mp h
    cases heq
    have hlt := classBody_lt hbody
    simp only [List.length_cons]
    omega

theorem firstToken_lt {s rest : Str} {token : Option Token}
    (h : firstToken s = some (token, rest)) : rest.length < s.length := by
  unfold firstToken at h
  split at h
  · cases h
  · cases h
    exact Nat.lt_succ_self _
  · cases h
    exact Nat.lt_succ_self _
  · split at h
    · rename_i hclass
      cases h
      exact Nat.lt_succ_of_lt (classToken_lt hclass)
    · cases h
      exact Nat.lt_succ_self _
  · cases h
    exact Nat.lt_succ_self _

/-- The tokens of a pattern. -/
def tokens (pattern : Str) : List (Option Token) :=
  match _h : firstToken pattern with
  | none => []
  | some (token, rest) => token :: tokens rest
termination_by pattern.length
decreasing_by exact firstToken_lt _h

theorem tokens_of_none {pattern : Str} (h : firstToken pattern = none) : tokens pattern = [] := by
  rw [tokens]
  split
  · rfl
  · rename_i hsome
    cases h.symm.trans hsome

theorem tokens_of_some {pattern rest : Str} {token : Option Token}
    (h : firstToken pattern = some (token, rest)) : tokens pattern = token :: tokens rest := by
  rw [tokens]
  split
  · rename_i hnone
    rw [h] at hnone
    cases hnone
  · rename_i hsome
    rw [h] at hsome
    cases hsome
    rfl

theorem length_tokens (pattern : Str) : (tokens pattern).length ≤ pattern.length := by
  induction hn : pattern.length using Nat.strong_induction_on generalizing pattern with
  | _ n ih =>
      cases h : firstToken pattern with
      | none =>
          rw [tokens_of_none h]
          exact Nat.zero_le _
      | some r =>
          obtain ⟨token, rest⟩ := r
          have hlt := firstToken_lt h
          have hrest := ih rest.length (by omega) rest rfl
          rw [tokens_of_some h, List.length_cons]
          omega

/-- Nothing but a `*` is the token `none`. -/
theorem firstToken_star {pattern rest : Str} :
    firstToken pattern = some (none, rest) ↔ pattern = 42 :: rest := by
  constructor
  · intro h
    unfold firstToken at h
    split at h
    · cases h
    · cases h
      rfl
    · cases h
    · split at h <;> cases h
    · cases h
  · intro h
    rw [h]
    rfl

-- ================================================================= a single byte

section Bytes

variable (signed : Bool)

/-- Is the byte the item's, or between its ends? -/
def ClassItem.has : ClassItem → UInt8 → Bool
  | .member x, c => x == c
  | .range lo hi, c => charLe signed lo c && charLe signed c hi

def Token.takes : Token → UInt8 → Bool
  | .any, _ => true
  | .cls negated items, c => (items.any (·.has signed c)) != negated
  | .byte b, c => c == b

variable {signed}

-- ================================================================ reading a class

theorem closeClass_spec {s body rest : Str} (h : closeClass s = some (body, rest)) :
    s = body ++ 93 :: rest ∧ 93 ∉ body := by
  fun_induction closeClass s generalizing body with
  | case1 => cases h
  | case2 =>
      cases h
      exact ⟨rfl, List.not_mem_nil⟩
  | case3 x rest' hx ih =>
      obtain ⟨⟨body', rest''⟩, hclose, heq⟩ := Option.map_eq_some_iff.mp h
      cases heq
      obtain ⟨hs, hbody⟩ := ih hclose
      refine ⟨by rw [hs]; rfl, ?_⟩
      rw [List.mem_cons, not_or]
      exact ⟨fun heq => hx heq.symm, hbody⟩

theorem closeClass_cons {x : UInt8} (hx : x ≠ 93) (s : Str) :
    closeClass (x :: s) = (closeClass s).map fun r => (x :: r.1, r.2) := by
  rw [closeClass]
  exact hx

theorem classItems_cons {x : UInt8} {s : Str} (h : ∀ y rest, s ≠ 45 :: y :: rest) :
    classItems (x :: s) = .member x :: classItems s := by
  rw [classItems]
  intro y rest heq
  exact h y rest heq

variable {c x z : UInt8} {first found : Bool} {s rest : Str}

theorem matchClassBody_close :
    matchClassBody signed c false found (93 :: s) = some (found, s) := by
  match s with
  | [] => rfl
  | [y] => rfl
  | y :: z :: rest => rfl

theorem matchClassBody_range (hx : ¬(x = 93 ∧ first = false)) (hz : z ≠ 93) :
    matchClassBody signed c first found (x :: 45 :: z :: rest) =
      matchClassBody signed c false
        (found || (charLe signed x c && charLe signed c z)) rest := by
  rw [matchClassBody, if_neg hx, if_pos ⟨rfl, hz⟩]

theorem matchClassBody_member (hx : ¬(x = 93 ∧ first = false))
    (hs : ∀ z rest, s = 45 :: z :: rest → z = 93) :
    matchClassBody signed c first found (x :: s) =
      matchClassBody signed c false (found || x == c) s := by
  match s with
  | [] =>
      conv_lhs => rw [matchClassBody, if_neg hx]
      rfl
  | [y] => conv_lhs => rw [matchClassBody, if_neg hx]
  | y :: z :: rest =>
      conv_lhs => rw [matchClassBody, if_neg hx]
      rw [if_neg]
      intro ⟨hy, hz⟩
      exact hz (hs z rest (by rw [hy]))

/-- An item that closes nothing, and the items behind it. -/
theorem matchClassBody_item (hx : ¬(x = 93 ∧ first = false))
    (hbehind : ∀ found t, t.length ≤ s.length → matchClassBody signed c false found t =
      (closeClass t).map fun r => (found || (classItems r.1).any (·.has signed c), r.2)) :
    matchClassBody signed c first found (x :: s) =
      (closeClass s).map fun r => (found || (classItems (x :: r.1)).any (·.has signed c), r.2) := by
  by_cases hrange : ∃ z rest, s = 45 :: z :: rest ∧ z ≠ 93
  · obtain ⟨z, rest, rfl, hz⟩ := hrange
    rw [matchClassBody_range hx hz, hbehind _ rest (by simp only [List.length_cons]; omega),
      closeClass_cons (by decide), closeClass_cons hz, Option.map_map, Option.map_map]
    congr 1
    funext r
    simp [classItems, ClassItem.has, Bool.or_assoc]
  · have hdash : ∀ z rest, s = 45 :: z :: rest → z = 93 := by
      intro z rest hs
      by_contra hz
      exact hrange ⟨z, rest, hs, hz⟩
    rw [matchClassBody_member hx hdash, hbehind _ s le_rfl]
    refine Option.map_congr ?_
    intro ⟨body, rest⟩ hclose
    obtain ⟨hs, hbody⟩ := closeClass_spec hclose
    -- A `-` at the end of the body joins nothing.
    have hitems : classItems (x :: body) = .member x :: classItems body := by
      apply classItems_cons
      intro y body' heq
      rw [heq] at hs hbody
      refine hbody ?_
      rw [← hdash y _ hs]
      exact List.mem_cons_of_mem _ List.mem_cons_self
    show (_, rest) = (found || (classItems (x :: body)).any (·.has signed c), rest)
    rw [hitems, List.any_cons, Bool.or_assoc]
    rfl

/-- A body behind its first item, read item by item. -/
theorem matchClassBody_closing (found : Bool) (s : Str) :
    matchClassBody signed c false found s =
      (closeClass s).map fun r => (found || (classItems r.1).any (·.has signed c), r.2) := by
  induction hn : s.length using Nat.strong_induction_on generalizing found s with
  | _ n ih =>
      match s with
      | [] => rfl
      | x :: s =>
          rw [List.length_cons] at hn
          by_cases hx : x = 93
          · rw [hx, matchClassBody_close]
            show some (found, s) = some (found || false, s)
            rw [Bool.or_false]
          · rw [matchClassBody_item (fun h => hx h.1)
              (fun found t ht => ih t.length (by omega) found t rfl), closeClass_cons hx,
              Option.map_map]
            rfl

theorem matchClassBody_eq (c : UInt8) (s : Str) :
    matchClassBody signed c true false s =
      (classBody s).map fun r => ((classItems r.1).any (·.has signed c), r.2) := by
  match s with
  | [] => rfl
  | x :: s =>
      rw [matchClassBody_item (fun h => Bool.noConfusion h.2)
        (fun found t _ => matchClassBody_closing found t), classBody, Option.map_map]
      simp [Function.comp_def]

theorem tryMatchClass_eq (s : Str) (c : UInt8) :
    tryMatchClass signed s c = (classToken s).map fun r => (r.1.takes signed c, r.2) := by
  unfold tryMatchClass
  split
  · rw [matchClassBody_eq, Option.map_map, classToken, Option.map_map]
    simp [Function.comp_def, Token.takes]
  · rw [matchClassBody_eq, Option.map_map, classToken, Option.map_map]
    simp [Function.comp_def, Token.takes]
  · rename_i hbang hcaret
    rw [matchClassBody_eq, classToken, Option.map_map]
    · simp [Function.comp_def, Token.takes]
    · exact hbang
    · exact hcaret

/-- Matching the first byte is asking the first token. -/
theorem matchByte_eq {pattern rest : Str} {token : Token} (c : UInt8)
    (h : firstToken pattern = some (some token, rest)) :
    matchByte signed pattern c = (token.takes signed c, rest) := by
  unfold firstToken at h
  split at h
  · cases h
  · cases h
  · cases h
    rfl
  · rename_i behind
    rw [matchByte, tryMatchClass_eq]
    split at h
    · rename_i hclass
      cases h
      rw [hclass]
      rfl
    · rename_i hclass
      cases h
      rw [hclass]
      rfl
  · rename_i hquery hclass
    cases h
    rw [matchByte]
    · rfl
    · exact hquery
    · exact hclass

-- ===================================================================== the loop

theorem tokens_dropWhile (pattern : Str) :
    tokens (pattern.dropWhile (· == 42)) = (tokens pattern).dropWhile (·.isNone) := by
  induction pattern with
  | nil => rw [List.dropWhile_nil, tokens_of_none rfl, List.dropWhile_nil]
  | cons b pattern ih =>
      by_cases hb : b = 42
      · rw [hb, List.dropWhile_cons_of_pos rfl, ih, tokens_of_some (firstToken_star.mpr rfl),
          List.dropWhile_cons_of_pos rfl]
      · rw [List.dropWhile_cons_of_neg (by simpa using hb)]
        cases h : firstToken (b :: pattern) with
        | none => rw [tokens_of_none h, List.dropWhile_nil]
        | some r =>
            obtain ⟨token, rest⟩ := r
            have hsome : ¬token.isNone = true := by
              cases token with
              | none => exact absurd (List.cons.inj (firstToken_star.mp h)).1 hb
              | some token => exact Bool.false_ne_true
            rw [tokens_of_some h, List.dropWhile_cons_of_neg hsome]

theorem tokens_eq_nil {pattern : Str} : tokens pattern = [] ↔ pattern = [] := by
  constructor
  · intro h
    match pattern with
    | [] => rfl
    | b :: pattern =>
        cases hfirst : firstToken (b :: pattern) with
        | none =>
            unfold firstToken at hfirst
            split at hfirst
            · rename_i heq
              exact heq
            · cases hfirst
            · cases hfirst
            · split at hfirst <;> cases hfirst
            · cases hfirst
        | some r =>
            obtain ⟨token, rest⟩ := r
            rw [tokens_of_some hfirst] at h
            cases h
  · intro h
    rw [h]
    exact tokens_of_none rfl

theorem all_stars (pattern : Str) :
    (tokens pattern).all (·.isNone) = pattern.all (· == 42) := by
  have hdrop := tokens_dropWhile pattern
  rw [Bool.eq_iff_iff, List.all_eq_true, List.all_eq_true, ← List.dropWhile_eq_nil_iff,
    ← List.dropWhile_eq_nil_iff, ← hdrop]
  exact tokens_eq_nil

theorem matchLoop_cons (fuel : Nat) (pattern name : Str) (star : Option (Str × Str)) :
    matchLoop signed (fuel + 1) pattern (c :: name) star =
      if pattern.head? = some 42 then
        if (pattern.dropWhile (· == 42)).isEmpty then some true
        else
          matchLoop signed fuel (pattern.dropWhile (· == 42)) (c :: name)
            (some (pattern.dropWhile (· == 42), c :: name))
      else if (matchByte signed pattern c).1 then
        matchLoop signed fuel (matchByte signed pattern c).2 name star
      else
        match star with
        | none => some false
        | some (behind, start) =>
            matchLoop signed fuel behind (start.drop 1) (some (behind, start.drop 1)) := by
  cases star <;> rfl

/-- The loop of `MatchSegmentImpl` is the greedy matcher on the tokens. -/
theorem matchLoop_eq (fuel : Nat) (pattern name : Str) (star : Option (Str × Str)) :
    matchLoop signed fuel pattern name star =
      greedy (Token.takes signed) fuel (tokens pattern) name
        (star.map fun r => (tokens r.1, r.2)) := by
  induction fuel generalizing pattern name star with
  | zero => rfl
  | succ fuel ih =>
      match name with
      | [] =>
          rw [matchLoop, greedy, all_stars]
      | c :: name =>
          rw [matchLoop_cons]
          cases hfirst : firstToken pattern with
          | none =>
              have hnil : pattern = [] := tokens_eq_nil.mp (tokens_of_none hfirst)
              rw [hnil, tokens_of_none rfl, greedy_of_nil]
              cases star with
              | none => rfl
              | some last => exact ih _ _ _
          | some r =>
              obtain ⟨token, rest⟩ := r
              cases token with
              | none =>
                  have hstar := firstToken_star.mp hfirst
                  rw [hstar, List.head?_cons, if_pos rfl, tokens_of_some (firstToken_star.mpr rfl),
                    greedy, List.dropWhile_cons_of_pos rfl, ← tokens_dropWhile]
                  simp only [List.isEmpty_iff, tokens_eq_nil]
                  split
                  · rfl
                  · exact ih _ _ _
              | some token =>
                  have hhead : pattern.head? ≠ some 42 := by
                    intro hhead
                    obtain ⟨rest', hrest'⟩ := List.head?_eq_some_iff.mp hhead
                    rw [firstToken_star.mpr hrest'] at hfirst
                    cases hfirst
                  rw [if_neg hhead, matchByte_eq c hfirst, tokens_of_some hfirst]
                  simp only
                  by_cases htakes : token.takes signed c = true
                  · rw [if_pos htakes, greedy_of_takes _ _ htakes]
                    exact ih _ _ _
                  · rw [if_neg htakes, greedy_of_not _ _ htakes]
                    cases star with
                    | none => rfl
                    | some last => exact ih _ _ _

end Bytes

/-- `MatchSegment` says whether the name can be divided along the tokens of the
pattern, and its loop ends. -/
theorem match_segment (signed : Bool) (pattern name : Str) :
    (∀ more, matchLoop signed (matchFuel pattern name + more) pattern name none =
        some (matchSegment signed pattern name)) ∧
      (matchSegment signed pattern name = true ↔
        Splits (Token.takes signed) (tokens pattern) name) := by
  have hends : ∀ more, ∃ answer,
      matchLoop signed (matchFuel pattern name + more) pattern name none = some answer ∧
        (answer = true ↔ Splits (Token.takes signed) (tokens pattern) name) := by
    intro more
    have hpassed : Passed pattern.length name.length (tokens pattern) name none :=
      ⟨length_tokens pattern, le_rfl, nofun⟩
    have hfuel : pattern.length * ((name.length + 1) * (name.length + 1)) +
        name.length * (name.length + 1) + name.length < matchFuel pattern name + more := by
      unfold matchFuel
      nlinarith [Nat.zero_le pattern.length, Nat.zero_le name.length]
    obtain ⟨answer, hanswer, hiff⟩ := greedy_eq_some le_rfl hpassed hfuel
    refine ⟨answer, ?_, ?_⟩
    · rw [matchLoop_eq]
      exact hanswer
    · rw [hiff]
      exact or_iff_left later_none
  obtain ⟨answer, hanswer, hiff⟩ := hends 0
  have hsegment : matchSegment signed pattern name = answer := by
    rw [Nat.add_zero] at hanswer
    rw [matchSegment, hanswer, Option.getD_some]
  refine ⟨?_, by rw [hsegment, hiff]⟩
  intro more
  obtain ⟨answer', hanswer', hiff'⟩ := hends more
  rw [hanswer', hsegment, Bool.eq_iff_iff.mpr (hiff'.trans hiff.symm)]

end GDrive
