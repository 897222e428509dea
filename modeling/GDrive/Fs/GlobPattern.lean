/-
Glob patterns (gdrive_glob.cpp): matching one name, matching a path,
splitting off the literal prefix, expanding braces.

`signed` says whether the platform's `char` is signed, which a range of a
character class depends on.
-/
import GDrive.Base.Path

namespace GDrive

-- =============================================================== one segment

section Match

variable (signed : Bool)

/-- `a <= b` on the platform's `char`. -/
def charLe (a b : UInt8) : Bool :=
  if signed then a.toInt8 ≤ b.toInt8 else a ≤ b

/-- The body of a class, from behind `[` and its negation: is `c` a member,
and what follows the closing bracket. Nothing when it is not closed. -/
def matchClassBody (c : UInt8) : (first found : Bool) → Str → Option (Bool × Str)
  | _, _, [] => none
  | first, found, [x] => if x = 93 ∧ first = false then some (found, []) else none -- ']'
  | first, found, [x, y] =>
      if x = 93 ∧ first = false then some (found, [y])
      else matchClassBody c false (found || x == c) [y]
  | first, found, x :: y :: z :: rest =>
      if x = 93 ∧ first = false then some (found, y :: z :: rest)
      else if y = 45 ∧ z ≠ 93 then -- '-', a range
        matchClassBody c false (found || (charLe signed x c && charLe signed c z)) rest
      else matchClassBody c false (found || x == c) (y :: z :: rest)

/-- `TryMatchClass`. -/
def tryMatchClass (pattern : Str) (c : UInt8) : Option (Bool × Str) :=
  match pattern with
  | 33 :: body | 94 :: body => -- '!', '^'
      (matchClassBody signed c true false body).map fun r => (!r.1, r.2)
  | body => matchClassBody signed c true false body

/-- Does the first byte match, and the pattern behind it. -/
def matchByte (pattern : Str) (c : UInt8) : Bool × Str :=
  match pattern with
  | [] => (false, [])
  | 63 :: rest => (true, rest) -- '?'
  | 91 :: rest => -- '['; one that is not closed stands for itself
      match tryMatchClass signed rest c with
      | some r => r
      | none => (c == 91, rest)
  | p :: rest => (c == p, rest)

/-- The loop of `MatchSegmentImpl`, a round of it for each unit of fuel.
`star` is what follows the last `*`, and the part of the name it starts
from. -/
def matchLoop : Nat → Str → Str → Option (Str × Str) → Option Bool
  | 0, _, _, _ => none
  | _ + 1, pattern, [], _ => some (pattern.all (· == 42))
  | fuel + 1, pattern, c :: name, star =>
      if pattern.head? = some 42 then -- '*'
        let rest := pattern.dropWhile (· == 42)
        if rest.isEmpty then some true
        else matchLoop fuel rest (c :: name) (some (rest, c :: name))
      else if (matchByte signed pattern c).1 then
        matchLoop fuel (matchByte signed pattern c).2 name star
      else
        match star with
        | none => some false
        | some (starPattern, starName) =>
            -- The last star takes one more byte.
            matchLoop fuel starPattern (starName.drop 1) (some (starPattern, starName.drop 1))

/-- Rounds enough: every star, every place it may start from, every byte. -/
def matchFuel (pattern name : Str) : Nat :=
  (pattern.length + 2) * (name.length + 2) * (name.length + 2)

def matchSegment (pattern name : Str) : Bool :=
  (matchLoop signed (matchFuel pattern name) pattern name none).getD false

-- =================================================================== a path

/-- The memo of `MatchSegments`, by pattern and path segment. -/
abbrev MatchMemo := List (List (Option Bool))

def MatchMemo.read (memo : MatchMemo) (pi si : Nat) : Option Bool := (memo.getD pi []).getD si none

def MatchMemo.write (memo : MatchMemo) (pi si : Nat) (result : Bool) : MatchMemo :=
  memo.modify pi fun row => row.set si (some result)

/-- `MatchSegments`, as deep as `fuel`; a call moves on in one of the
lists. -/
def matchSegments (patternSegments pathSegments : List Str) :
    Nat → Nat → Nat → MatchMemo → Bool × MatchMemo
  | 0, _, _, memo => (false, memo)
  | fuel + 1, pi, si, memo =>
      if pi = patternSegments.length then (decide (si = pathSegments.length), memo)
      else
        match memo.read pi si with
        | some cached => (cached, memo)
        | none =>
            let r :=
              if patternSegments.getD pi [] = str "**" then
                let skip := matchSegments patternSegments pathSegments fuel (pi + 1) si memo
                if skip.1 then skip
                else if si < pathSegments.length then
                  matchSegments patternSegments pathSegments fuel pi (si + 1) skip.2
                else skip
              else if si = pathSegments.length then (false, memo)
              else if matchSegment signed (patternSegments.getD pi []) (pathSegments.getD si []) then
                matchSegments patternSegments pathSegments fuel (pi + 1) (si + 1) memo
              else (false, memo)
            (r.1, r.2.write pi si r.1)

def matchPath (pattern path : Str) : Bool :=
  let patternSegments := pattern.splitOn 47
  let pathSegments := path.splitOn 47
  (matchSegments signed patternSegments pathSegments
    (patternSegments.length + pathSegments.length + 1) 0 0
    (List.replicate (patternSegments.length + 1)
      (List.replicate (pathSegments.length + 1) none))).1

end Match

-- ==================================================================== splits

def hasGlobMetacharacters (pattern : Str) : Bool :=
  pattern.any fun c => c == 42 || c == 63 || c == 91 || c == 123

structure GlobSplit where
  literalPrefix : Str
  patternTail : Str := []
  recursive : Bool := false

/-- The segments before the first with a metacharacter, and the rest. -/
def splitGlob (pattern : Str) : GlobSplit :=
  if !hasGlobMetacharacters pattern then { literalPrefix := pattern }
  else
    let segments := pattern.splitOn 47
    let literal := segments.takeWhile (!hasGlobMetacharacters ·)
    let tail := segments.dropWhile (!hasGlobMetacharacters ·)
    { literalPrefix := [47].intercalate literal
      patternTail := [47].intercalate tail
      recursive :=
        decide (1 < tail.length) || containsText ([47].intercalate tail) (str "**") }

-- ==================================================================== braces

def kMaxBracePatternLength : Nat := 4096

def kMaxBraceExpansions : Nat := 1024

def kMaxBraceDepth : Nat := 64

/-- The first balanced top-level group: what stands before, in and behind
it. -/
def findBraces : Str → (depth : Nat) → (pre inner : Str) → Option (Str × Str × Str)
  | [], _, _, _ => none
  | 123 :: rest, 0, pre, _ => findBraces rest 1 pre []
  | c :: rest, 0, pre, inner => findBraces rest 0 (pre ++ [c]) inner
  | 123 :: rest, depth + 1, pre, inner => findBraces rest (depth + 2) pre (inner ++ [123])
  | 125 :: rest, 1, pre, inner => some (pre, inner, rest)
  | 125 :: rest, depth + 2, pre, inner => findBraces rest (depth + 1) pre (inner ++ [125])
  | c :: rest, depth + 1, pre, inner => findBraces rest (depth + 1) pre (inner ++ [c])

/-- The alternatives of a group: cut at its top-level commas. -/
def splitAlternatives : Str → (depth : Int) → (current : Str) → List Str
  | [], _, current => [current]
  | 123 :: rest, depth, current => splitAlternatives rest (depth + 1) (current ++ [123])
  | 125 :: rest, depth, current => splitAlternatives rest (depth - 1) (current ++ [125])
  | 44 :: rest, 0, current => current :: splitAlternatives rest 0 []
  | c :: rest, depth, current => splitAlternatives rest depth (current ++ [c])

/-- Every combination of one alternative with the suffixes, within the
budget. -/
def combineWith (pre alternative : Str) : List Str → Nat → List Str → Option (List Str × Nat)
  | [], budget, out => some (out, budget)
  | _ :: _, 0, _ => none
  | suffix :: suffixes, budget + 1, out =>
      combineWith pre alternative suffixes budget (out ++ [pre ++ alternative ++ suffix])

def combineAll (pre : Str) (suffixes : List Str) :
    List Str → Nat → List Str → Option (List Str × Nat)
  | [], budget, out => some (out, budget)
  | alternative :: rest, budget, out =>
      match combineWith pre alternative suffixes budget out with
      | none => none
      | some (out', budget') => combineAll pre suffixes rest budget' out'

/-- The alternatives of a group, each expanded by `expand` and combined. -/
def expandAlternatives (expand : Str → Nat → Option (List Str × Nat)) (pre : Str)
    (suffixes : List Str) : List Str → Nat → List Str → Option (List Str × Nat)
  | [], budget, out => some (out, budget)
  | alternative :: rest, budget, out =>
      match expand alternative budget with
      | none => none
      | some (expanded, budget') =>
          match combineAll pre suffixes expanded budget' out with
          | none => none
          | some (out', budget'') =>
              expandAlternatives expand pre suffixes rest budget'' out'

/-- `ExpandBracesInto`, with `levels` of recursion left: the expansions and
the budget left, or nothing when a bound is passed. -/
def expandBracesInto : Nat → Str → Nat → Option (List Str × Nat)
  | 0, _, _ => none
  | levels + 1, pattern, budget =>
      match findBraces pattern 0 [] [] with
      | none =>
          match budget with
          | 0 => none
          | budget + 1 => some ([pattern], budget)
      | some (pre, inner, suffix) =>
          match expandBracesInto levels suffix budget with
          | none => none
          | some (suffixes, budget') =>
              expandAlternatives (expandBracesInto levels) pre suffixes
                (splitAlternatives inner 0 []) budget' []

/-- Empty where a bound is passed, never otherwise. -/
def expandBraces (pattern : Str) : List Str :=
  if pattern.length > kMaxBracePatternLength then []
  else ((expandBracesInto (kMaxBraceDepth + 1) pattern kMaxBraceExpansions).map (·.1)).getD []

end GDrive
