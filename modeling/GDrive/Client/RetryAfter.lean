/-
The Retry-After header on its way to `SleepBackoff` (gdrive_errors.cpp,
gdrive_client.cpp).

The number of seconds is read as a `long`, which stops at its largest value,
and cast to an `int`, which keeps the low 32 bits. From 2^31 on what is kept
is a smaller number, or a negative one, unless the low 32 bits happen to be
those of the largest `int` (`least_kept_iff`).
-/
import GDrive.Client.Errors

namespace GDrive

def kInitialBackoffMs : Int := 500

def kMaxBackoffMs : Int := 20000

/-- The delay that `SleepBackoff` computes, in milliseconds. `jitter` is
what a random factor near 1 makes of the backoff. -/
def sleepBackoff (jitter : Int → Int) (attempt : Nat) (retryAfterSeconds : Int) : Int :=
  let doubled := Int.bmod (kInitialBackoffMs * 2 ^ (attempt - 1)) (2 ^ 64)
  let base := if kMaxBackoffMs < doubled ∨ doubled ≤ 0 then kMaxBackoffMs else doubled
  let delayMs := jitter base
  let retryAfterMs := retryAfterSeconds * 1000
  if delayMs < retryAfterMs then retryAfterMs else delayMs

theorem le_sleepBackoff (jitter : Int → Int) (attempt : Nat) (retryAfterSeconds : Int) :
    retryAfterSeconds * 1000 ≤ sleepBackoff jitter attempt retryAfterSeconds := by
  unfold sleepBackoff
  simp only
  split <;> omega

/-- The largest `int`. -/
def intMax : Int := 2 ^ 31 - 1

-- ================================================================== the header

/-- Decimal digits that denote `n`, and blanks around them. -/
def SecondsForm (header : Str) (n : Nat) : Prop :=
  ∃ before digits behind, header = before ++ digits ++ behind ∧ before.all isBlank = true ∧
    behind.all isBlank = true ∧ digits ≠ [] ∧ digits.all isDigit = true ∧ digitsValue 0 digits = n

theorem isBlank_of_isDigit {c : UInt8} (h : isDigit c = true) : isBlank c = false := by
  rw [Bool.eq_false_iff]
  intro hblank
  unfold isBlank at hblank
  rw [Bool.or_eq_true, beq_iff_eq, beq_iff_eq] at hblank
  rcases hblank with rfl | rfl
  · exact absurd h (by decide)
  · exact absurd h (by decide)

/-- Trimming stops at the first letter that is no blank. -/
theorem dropWhile_blanks {before rest : Str} {c : UInt8} (hbefore : before.all isBlank = true)
    (hc : isBlank c = false) : (before ++ c :: rest).dropWhile isBlank = c :: rest := by
  rw [List.dropWhile_append_of_pos (List.all_eq_true.mp hbefore),
    List.dropWhile_cons_of_neg (by rw [hc]; exact Bool.false_ne_true)]

theorem trimBlanks_secondsForm {before digits behind : Str} (hbefore : before.all isBlank = true)
    (hbehind : behind.all isBlank = true) (hne : digits ≠ []) (hdigits : digits.all isDigit = true) :
    trimBlanks (before ++ digits ++ behind) = digits := by
  have hdigit : ∀ c ∈ digits, isBlank c = false := by
    intro c hc
    exact isBlank_of_isDigit (List.all_eq_true.mp hdigits c hc)
  obtain ⟨c, rest, hcons⟩ := List.exists_cons_of_ne_nil hne
  obtain ⟨d, init, hlast⟩ := List.exists_cons_of_ne_nil (List.reverse_ne_nil_iff.mpr hne)
  have hleft : (before ++ digits ++ behind).dropWhile isBlank = digits ++ behind := by
    rw [List.append_assoc, hcons, List.cons_append]
    exact dropWhile_blanks hbefore (hdigit c (by simp [hcons]))
  have hright : (digits ++ behind).reverse.dropWhile isBlank = digits.reverse := by
    rw [List.reverse_append, hlast]
    apply dropWhile_blanks
    · rw [List.all_reverse]
      exact hbehind
    · apply hdigit
      rw [← List.mem_reverse, hlast]
      exact List.mem_cons_self
  unfold trimBlanks
  rw [hleft, hright, List.reverse_reverse]

/-- What trimming takes away are blanks. -/
theorem exists_blanks (header : Str) : ∃ before behind,
    header = before ++ trimBlanks header ++ behind ∧ before.all isBlank = true ∧
      behind.all isBlank = true := by
  refine ⟨header.takeWhile isBlank,
    ((header.dropWhile isBlank).reverse.takeWhile isBlank).reverse, ?_, ?_, ?_⟩
  · unfold trimBlanks
    rw [List.append_assoc, ← List.reverse_append, List.takeWhile_append_dropWhile,
      List.reverse_reverse, List.takeWhile_append_dropWhile]
  · exact List.all_takeWhile
  · rw [List.all_reverse]
    exact List.all_takeWhile

/-- The value kept of `n`. -/
def keptSeconds (n : Nat) : Int := Int.bmod (min n (2 ^ 63 - 1) : Nat) (2 ^ 32)

theorem parseRetryAfterSeconds_eq {header : Str} {n : Nat} (h : SecondsForm header n) :
    parseRetryAfterSeconds header = keptSeconds n := by
  obtain ⟨before, digits, behind, rfl, hbefore, hbehind, hne, hdigits, rfl⟩ := h
  unfold parseRetryAfterSeconds
  simp only
  rw [trimBlanks_secondsForm hbefore hbehind hne hdigits, hdigits, if_neg (by simp [hne])]
  rfl

theorem parseRetryAfterSeconds_other {header : Str} (h : ¬∃ n, SecondsForm header n) :
    parseRetryAfterSeconds header = 0 := by
  unfold parseRetryAfterSeconds
  simp only
  rw [if_pos]
  by_contra hform
  simp only [Bool.or_eq_true, List.isEmpty_iff, Bool.not_eq_true', not_or,
    Bool.not_eq_false] at hform
  obtain ⟨before, behind, heq, hbefore, hbehind⟩ := exists_blanks header
  exact h ⟨_, before, trimBlanks header, behind, heq, hbefore, hbehind, hform.1, hform.2, rfl⟩

/-- When what is kept is not less than what was asked for, up to the largest
`int`. -/
theorem least_kept_iff (n : Nat) :
    min (n : Int) intMax ≤ keptSeconds n ↔
      n < 2 ^ 31 ∨ (n < 2 ^ 63 ∧ n % 2 ^ 32 = 2 ^ 31 - 1) := by
  unfold keptSeconds intMax
  rw [Int.bmod_def]
  split <;> omega

theorem keptSeconds_nonneg {n : Nat} (h : min (n : Int) intMax ≤ keptSeconds n) :
    0 ≤ keptSeconds n := by
  unfold intMax at h
  omega

-- ============================================================ what is waited for

/-- The seconds of a reply are not undercut, by the classification or by the
delay before the next attempt, and there are none without the header. -/
def NeverUndercut (pj : Picojson) (httpStatus : Nat) (body header : Str) : Prop :=
  let seconds := (classifyDriveError pj httpStatus body header).retryAfterSeconds
  (∀ n, SecondsForm header n →
    0 ≤ seconds ∧ min (n : Int) intMax ≤ seconds ∧
      ∀ jitter attempt, min (n : Int) intMax * 1000 ≤ sleepBackoff jitter attempt seconds) ∧
    ((¬∃ n, SecondsForm header n) → seconds = 0)

/-- For every reply and every header. -/
theorem retry_after_not_undercut (pj : Picojson) (httpStatus : Nat) (body header : Str) :
    NeverUndercut pj httpStatus body header ↔
      ∀ n, SecondsForm header n → n < 2 ^ 31 ∨ (n < 2 ^ 63 ∧ n % 2 ^ 32 = 2 ^ 31 - 1) := by
  unfold NeverUndercut classifyDriveError
  simp only
  constructor
  · intro h n hn
    rw [← least_kept_iff, ← parseRetryAfterSeconds_eq hn]
    exact (h.1 n hn).2.1
  · intro h
    refine ⟨?_, parseRetryAfterSeconds_other⟩
    intro n hn
    have hleast := (least_kept_iff n).mpr (h n hn)
    rw [parseRetryAfterSeconds_eq hn]
    refine ⟨keptSeconds_nonneg hleast, hleast, ?_⟩
    intro jitter attempt
    have hdelay := le_sleepBackoff jitter attempt (keptSeconds n)
    omega

/-- 2^32 seconds are none. -/
theorem retry_after_wraps : ¬∀ (pj : Picojson) (httpStatus : Nat) (body header : Str),
    NeverUndercut pj httpStatus body header := by
  intro h
  have hform : SecondsForm (str "4294967296") 4294967296 :=
    ⟨[], str "4294967296", [], by decide, rfl, rfl, by decide, by decide, by decide⟩
  have hkept := ((h noJson 429 [] (str "4294967296")).1 _ hform).2.1
  have hzero : (classifyDriveError noJson 429 [] (str "4294967296")).retryAfterSeconds = 0 := by
    decide
  rw [hzero] at hkept
  exact absurd hkept (by decide)

end GDrive
