/-
Matching a list against a pattern with wildcards: what it means, and the
greedy matcher that goes back to the last star only.

# The meaning

A pattern is a list of tokens; `none` takes any run of elements, `some t`
takes one that `t` accepts. `Splits` says that a list can be divided along a
pattern.

# The matcher

`greedy` keeps the last star it has passed. A mismatch gives that star one
element more and starts again behind it; earlier stars keep what they have.
This is enough because the tokens between two stars take one element each. Had
the earlier star more, then the later one would begin further on, and it may
take what lies between instead (`splits_later`).

The matcher ends: a new star shortens the pattern that is left, a step back
shortens what the star starts from, a match shortens the list
(`greedy_eq_some`).
-/
import Mathlib.Algebra.Order.Ring.Nat
import Mathlib.Data.List.Infix
import Mathlib.Tactic.Ring

namespace Wildcard

variable {τ α : Type}

-- ================================================================= the meaning

/-- A list divided along a pattern: a run for each `none`, one element for
each token. -/
inductive Splits (takes : τ → α → Bool) : List (Option τ) → List α → Prop
  | nil : Splits takes [] []
  | star {ts : List (Option τ)} {s : List α} (run : List α) :
      Splits takes ts s → Splits takes (none :: ts) (run ++ s)
  | one {t : τ} {c : α} {ts : List (Option τ)} {s : List α} :
      takes t c = true → Splits takes ts s → Splits takes (some t :: ts) (c :: s)

variable {takes : τ → α → Bool} {ts rest : List (Option τ)} {t : τ} {c : α} {s u : List α}

theorem splits_star : Splits takes (none :: ts) s ↔ ∃ s', s' <:+ s ∧ Splits takes ts s' := by
  constructor
  · intro h
    cases h with
    | star run h => exact ⟨_, List.suffix_append _ _, h⟩
  · intro ⟨s', ⟨run, hrun⟩, h⟩
    rw [← hrun]
    exact .star run h

theorem splits_one : Splits takes (some t :: ts) (c :: s) ↔ takes t c = true ∧ Splits takes ts s := by
  constructor
  · intro h
    cases h with
    | one htakes h => exact ⟨htakes, h⟩
  · intro ⟨htakes, h⟩
    exact .one htakes h

theorem splits_nil_left : Splits takes [] s ↔ s = [] := by
  constructor
  · intro h
    cases h
    rfl
  · intro h
    rw [h]
    exact .nil

theorem splits_nil_right : Splits takes ts [] ↔ ts.all (·.isNone) = true := by
  induction ts with
  | nil => simp [splits_nil_left]
  | cons t ts ih =>
      cases t with
      | none =>
          rw [splits_star, List.all_cons, Option.isNone_none, Bool.true_and, ← ih]
          constructor
          · intro ⟨s', hs', h⟩
            rw [List.suffix_nil] at hs'
            rwa [hs'] at h
          · intro h
            exact ⟨[], List.suffix_refl _, h⟩
      | some t =>
          rw [List.all_cons, Option.isNone_some, Bool.false_and]
          constructor
          · intro h
            cases h
          · intro h
            cases h

/-- Stars in a row are one star. -/
theorem splits_stars :
    Splits takes (none :: ts) s ↔ Splits takes (none :: ts.dropWhile (·.isNone)) s := by
  induction ts with
  | nil => rfl
  | cons t ts ih =>
      cases t with
      | none =>
          rw [List.dropWhile_cons_of_pos rfl, ← ih, splits_star]
          constructor
          · intro ⟨s', hs', h⟩
            obtain ⟨s'', hs'', h'⟩ := splits_star.mp h
            exact splits_star.mpr ⟨s'', hs''.trans hs', h'⟩
          · intro h
            exact ⟨s, List.suffix_refl _, h⟩
      | some t => rw [List.dropWhile_cons_of_neg (by simp)]

/-- Tokens take one element each. -/
theorem splits_append {mid : List (Option τ)} (hmid : ∀ t ∈ mid, t.isSome = true)
    (h : Splits takes (mid ++ ts) s) :
    ∃ m s', s = m ++ s' ∧ m.length = mid.length ∧ Splits takes ts s' := by
  induction mid generalizing s with
  | nil => exact ⟨[], s, rfl, rfl, h⟩
  | cons t mid ih =>
      rw [List.forall_mem_cons] at hmid
      rw [List.cons_append] at h
      cases h with
      | star => cases hmid.1
      | @one t c _ s htakes h =>
          obtain ⟨m, s', rfl, hlength, hrest⟩ := ih hmid.2 h
          exact ⟨c :: m, s', rfl, by simp [hlength], hrest⟩

/-- What a pattern with a star in it divides when its tokens before the star
begin later is divided from the star on as well. -/
theorem splits_later {mid : List (Option τ)} {m s' : List α}
    (hmid : ∀ t ∈ mid, t.isSome = true) (hlength : mid.length = m.length) (hs' : s' <:+ m ++ s)
    (hlater : s'.length < (m ++ s).length) (h : Splits takes (mid ++ none :: ts) s') :
    Splits takes (none :: ts) s := by
  obtain ⟨m', r, rfl, hm', hr⟩ := splits_append hmid h
  obtain ⟨s'', hs'', hrest⟩ := splits_star.mp hr
  refine splits_star.mpr ⟨s'', ?_, hrest⟩
  have hsuffix : s'' <:+ m ++ s := (hs''.trans (List.suffix_append _ _)).trans hs'
  refine List.suffix_of_suffix_length_le hsuffix (List.suffix_append _ _) ?_
  have hle := hs''.length_le
  simp only [List.length_append] at hlater
  omega

-- ================================================================= the matcher

/-- The greedy matcher, a round of it for each unit of fuel. `star` is what
follows the last star, and the part of the list it starts from. -/
def greedy (takes : τ → α → Bool) :
    Nat → List (Option τ) → List α → Option (List (Option τ) × List α) → Option Bool
  | 0, _, _, _ => none
  | _ + 1, ts, [], _ => some (ts.all (·.isNone))
  | fuel + 1, none :: ts, c :: s, _ =>
      if (ts.dropWhile (·.isNone)).isEmpty then some true
      else
        greedy takes fuel (ts.dropWhile (·.isNone)) (c :: s)
          (some (ts.dropWhile (·.isNone), c :: s))
  | fuel + 1, some t :: ts, c :: s, star =>
      if takes t c then greedy takes fuel ts s star
      else
        match star with
        | none => some false
        | some (behind, start) => greedy takes fuel behind (start.drop 1) (some (behind, start.drop 1))
  | fuel + 1, [], _ :: _, star =>
      match star with
      | none => some false
      | some (behind, start) => greedy takes fuel behind (start.drop 1) (some (behind, start.drop 1))

theorem greedy_of_nil (fuel : Nat) (star : Option (List (Option τ) × List α)) :
    greedy takes (fuel + 1) [] (c :: s) star =
      match star with
      | none => some false
      | some (behind, start) =>
          greedy takes fuel behind (start.drop 1) (some (behind, start.drop 1)) := by
  cases star <;> rfl

theorem greedy_of_not (fuel : Nat) (star : Option (List (Option τ) × List α))
    (htakes : ¬takes t c = true) :
    greedy takes (fuel + 1) (some t :: ts) (c :: s) star =
      match star with
      | none => some false
      | some (behind, start) =>
          greedy takes fuel behind (start.drop 1) (some (behind, start.drop 1)) := by
  cases star <;> simp [greedy, htakes]

theorem greedy_of_takes (fuel : Nat) (star : Option (List (Option τ) × List α))
    (htakes : takes t c = true) :
    greedy takes (fuel + 1) (some t :: ts) (c :: s) star = greedy takes fuel ts s star := by
  cases star <;> simp [greedy, htakes]

/-- The last star may still take more. -/
def Later (takes : τ → α → Bool) (star : Option (List (Option τ) × List α)) : Prop :=
  ∃ behind start, star = some (behind, start) ∧
    ∃ s', s' <:+ start ∧ s'.length < start.length ∧ Splits takes behind s'

/-- What the matcher knows of its last star: the tokens passed since have
taken one element each. The bounds are for the measure. -/
def Passed (a b : Nat) (ts : List (Option τ)) (s : List α)
    (star : Option (List (Option τ) × List α)) : Prop :=
  ts.length ≤ a ∧ s.length ≤ b ∧ ∀ behind start, star = some (behind, start) →
    behind.length ≤ a ∧ start.length ≤ b ∧ ∃ mid m, behind = mid ++ ts ∧
      (∀ t ∈ mid, t.isSome = true) ∧ start = m ++ s ∧ mid.length = m.length

/-- Behind a star nothing has been passed yet. -/
theorem Passed.begins {a : Nat} (hts : ts.length ≤ a) : Passed a s.length ts s (some (ts, s)) := by
  refine ⟨hts, le_rfl, ?_⟩
  intro behind start h
  cases h
  exact ⟨hts, le_rfl, [], [], rfl, nofun, rfl, rfl⟩

/-- A token takes an element. -/
theorem Passed.step {a b : Nat} {star : Option (List (Option τ) × List α)}
    (h : Passed a b (some t :: ts) (c :: s) star) : Passed a b ts s star := by
  obtain ⟨hts, hs, hstar⟩ := h
  rw [List.length_cons] at hts hs
  refine ⟨by omega, by omega, ?_⟩
  intro behind start hlast
  obtain ⟨hbehind, hstart, mid, m, hmid, hsome, hm, hlength⟩ := hstar _ _ hlast
  refine ⟨hbehind, hstart, mid ++ [some t], m ++ [c], ?_, ?_, ?_, ?_⟩
  · rw [hmid]
    simp
  · intro t' ht'
    rcases List.mem_append.mp ht' with ht' | ht'
    · exact hsome t' ht'
    · rw [List.mem_singleton.mp ht']
      rfl
  · rw [hm]
    simp
  · rw [List.length_append, List.length_append, hlength]
    rfl

theorem later_none : ¬Later takes none := by
  intro ⟨_, _, h, _⟩
  cases h

/-- A step back leaves the star all it could still take. -/
theorem later_some {behind : List (Option τ)} (hu : u ≠ []) :
    Later takes (some (behind, u)) ↔
      Splits takes behind (u.drop 1) ∨ Later takes (some (behind, u.drop 1)) := by
  obtain ⟨c, u, rfl⟩ := List.exists_cons_of_ne_nil hu
  rw [List.drop_one, List.tail_cons]
  constructor
  · intro ⟨_, _, heq, s', hs', hlt, h⟩
    cases heq
    rcases List.suffix_cons_iff.mp hs' with rfl | hs'
    · exact absurd hlt (lt_irrefl _)
    · rcases Nat.lt_or_ge s'.length u.length with hshort | hlong
      · exact .inr ⟨_, _, rfl, s', hs', hshort, h⟩
      · rw [hs'.eq_of_length_le hlong] at h
        exact .inl h
  · intro h
    rcases h with h | ⟨_, _, heq, s', hs', hlt, h⟩
    · exact ⟨_, _, rfl, u, List.suffix_cons _ _, by simp, h⟩
    · cases heq
      refine ⟨_, _, rfl, s', hs'.trans (List.suffix_cons _ _), ?_, h⟩
      rw [List.length_cons]
      omega

/-- A new star has no use for what an earlier one could still take. -/
theorem Later.splits {a b : Nat} {star : Option (List (Option τ) × List α)}
    (hpassed : Passed a b (none :: ts) s star) (h : Later takes star) :
    Splits takes (none :: ts) s := by
  obtain ⟨behind, start, rfl, s', hs', hlt, hsplits⟩ := h
  obtain ⟨-, -, hstar⟩ := hpassed
  obtain ⟨-, -, mid, m, rfl, hmid, rfl, hlength⟩ := hstar _ _ rfl
  exact splits_later hmid hlength hs' hlt hsplits

/-- At the end of the list no star can still take more. -/
theorem Passed.not_later {a b : Nat} {star : Option (List (Option τ) × List α)}
    (hpassed : Passed a b ts [] star) : ¬Later takes star := by
  intro ⟨behind, start, hstar, s', hs', hlt, hsplits⟩
  obtain ⟨-, -, hpassed⟩ := hpassed
  obtain ⟨-, -, mid, m, rfl, hmid, rfl, hlength⟩ := hpassed _ _ hstar
  obtain ⟨m', r, rfl, hm', -⟩ := splits_append hmid hsplits
  rw [List.append_nil, List.length_append] at hlt
  omega

/-- The matcher ends, and says whether the list can be divided from here on,
or could be if the last star took more. -/
theorem greedy_eq_some {fuel a b n : Nat} {star : Option (List (Option τ) × List α)} (hb : b ≤ n)
    (hpassed : Passed a b ts s star)
    (hfuel : a * ((n + 1) * (n + 1)) + b * (n + 1) + s.length < fuel) :
    ∃ answer, greedy takes fuel ts s star = some answer ∧
      (answer = true ↔ Splits takes ts s ∨ Later takes star) := by
  induction fuel generalizing a b ts s star with
  | zero => omega
  | succ fuel ih =>
      -- A mismatch, whatever the pattern: back to the last star.
      have hback : ∀ (c : α) (s₁ : List α), s = c :: s₁ → ¬Splits takes ts s →
          ∃ answer, (match star with
            | none => some false
            | some (behind, start) =>
                greedy takes fuel behind (start.drop 1) (some (behind, start.drop 1))) =
              some answer ∧ (answer = true ↔ Splits takes ts s ∨ Later takes star) := by
        intro c s₁ hs hno
        cases star with
        | none => exact ⟨false, rfl, by simp [hno, later_none]⟩
        | some last =>
            obtain ⟨behind, start⟩ := last
            obtain ⟨-, -, hstar⟩ := hpassed
            obtain ⟨hbehind, hfrom, mid, m, -, -, hrest, -⟩ := hstar _ _ rfl
            have hne : start ≠ [] := by
              rw [hrest, hs]
              simp
            have hlength : (start.drop 1).length + 1 = start.length := by
              have hpos := List.length_pos_iff.mpr hne
              rw [List.length_drop]
              omega
            have hcost : ((start.drop 1).length + 1) * (n + 1) ≤ b * (n + 1) :=
              Nat.mul_le_mul_right _ (by omega)
            rw [Nat.add_mul, one_mul] at hcost
            have hnew : Passed a (start.drop 1).length behind (start.drop 1)
                (some (behind, start.drop 1)) := Passed.begins hbehind
            obtain ⟨answer, hanswer, hiff⟩ := ih (by omega) hnew (by omega)
            refine ⟨answer, hanswer, ?_⟩
            rw [hiff, later_some hne]
            simp [hno]
      match s, ts with
      | [], ts =>
          refine ⟨ts.all (·.isNone), by rw [greedy], ?_⟩
          have hend : Splits takes ts ([] : List α) ↔ ts.all (·.isNone) = true := splits_nil_right
          rw [← hend]
          exact ⟨.inl, fun h => h.resolve_right hpassed.not_later⟩
      | c :: s, [] =>
          rw [greedy_of_nil]
          refine hback c s rfl ?_
          rw [splits_nil_left]
          exact List.cons_ne_nil _ _
      | c :: s, some t :: ts =>
          by_cases htakes : takes t c = true
          · rw [greedy_of_takes fuel star htakes]
            rw [List.length_cons] at hfuel
            obtain ⟨answer, hanswer, hiff⟩ := ih hb hpassed.step (by omega)
            refine ⟨answer, hanswer, ?_⟩
            rw [hiff, splits_one]
            simp [htakes]
          · rw [greedy_of_not fuel star htakes]
            refine hback c s rfl ?_
            rw [splits_one]
            exact fun h => htakes h.1
      | c :: s, none :: ts =>
          rw [greedy]
          have hlater : Splits takes (none :: ts) (c :: s) ∨ Later takes star ↔
              Splits takes (none :: ts) (c :: s) :=
            ⟨fun h => h.elim id fun h => h.splits hpassed, .inl⟩
          by_cases hempty : (ts.dropWhile (·.isNone)).isEmpty = true
          · rw [if_pos hempty]
            refine ⟨true, rfl, iff_of_true rfl (.inl ?_)⟩
            rw [splits_stars, List.isEmpty_iff.mp hempty]
            exact splits_star.mpr ⟨[], List.nil_suffix, .nil⟩
          · rw [if_neg hempty]
            obtain ⟨hts, hs, -⟩ := hpassed
            have hdrop : (ts.dropWhile (·.isNone)).length ≤ a - 1 := by
              have hle := (List.dropWhile_sublist (fun t : Option τ => t.isNone) (l := ts)).length_le
              rw [List.length_cons] at hts
              omega
            have hpos : 1 ≤ a := by
              rw [List.length_cons] at hts
              omega
            have hcost : (c :: s).length * (n + 1) ≤ b * (n + 1) := Nat.mul_le_mul_right _ hs
            have hless : (a - 1) * ((n + 1) * (n + 1)) + (n + 1) * (n + 1) =
                a * ((n + 1) * (n + 1)) := by
              rw [← Nat.succ_mul, Nat.succ_eq_add_one, Nat.sub_add_cancel hpos]
            have hgrow : 1 ≤ (n + 1) * (n + 1) := Nat.mul_pos (by omega) (by omega)
            have hnew : Passed (a - 1) (c :: s).length (ts.dropWhile (·.isNone)) (c :: s)
                (some (ts.dropWhile (·.isNone), c :: s)) := Passed.begins hdrop
            obtain ⟨answer, hanswer, hiff⟩ := ih (by omega) hnew (by omega)
            refine ⟨answer, hanswer, ?_⟩
            rw [hiff, hlater, splits_stars, splits_star]
            constructor
            · intro h
              rcases h with h | ⟨_, _, heq, s', hs', -, h⟩
              · exact ⟨_, List.suffix_refl _, h⟩
              · cases heq
                exact ⟨s', hs', h⟩
            · intro ⟨s', hs', h⟩
              rcases Nat.lt_or_ge s'.length (c :: s).length with hshort | hlong
              · exact .inr ⟨_, _, rfl, s', hs', hshort, h⟩
              · rw [hs'.eq_of_length_le hlong] at h
                exact .inl h

end Wildcard
