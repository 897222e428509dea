/-
The token policy on the code's own numbers (gdrive_token_policy.cpp): signed
64-bit times, whose sums saturate.

# Two levels

`TokenThreads` reckons with integers. Here the same functions are on words,
and no sum or difference they form leaves the range of a word
(`saturatingAdd_toInt`), so the words say what the integers say
(`tokenIsFresh_toInt`). That the integers with their ceiling say what the rule
without one says is a matter of order alone: what is compared with the ceiling
is itself at most the ceiling (`tokenIsFresh_iff`).
-/
import GDrive.Auth.TokenThreads

namespace GDrive

-- ============================================================== below a ceiling

theorem saturatingAdd_eq_min (a b : Int) : saturatingAdd a b = min int64Max (a + b) := by
  unfold saturatingAdd
  split
  · exact (min_eq_left (by omega)).symm
  · exact (min_eq_right (by omega)).symm

/-- Nothing at or below the ceiling lies beyond a sum that was cut off. -/
theorem saturatingAdd_lt_iff {a b x : Int} (hx : x ≤ int64Max) :
    saturatingAdd a b < x ↔ a + b < x := by
  rw [saturatingAdd_eq_min, min_lt_iff, or_iff_right (by omega)]

/-- What lies below the ceiling lies below a sum that was cut off. -/
theorem lt_saturatingAdd_iff {a b x : Int} (hx : x < int64Max) :
    x < saturatingAdd a b ↔ x < a + b := by
  rw [saturatingAdd_eq_min, lt_min_iff, and_iff_right hx]

/-- The rule, over integers that have no ceiling. -/
def FreshByRule (expiresAt mintedAt now maxAge : Int) : Prop :=
  now + kTokenRefreshSlackSeconds < expiresAt ∧
    (maxAge ≤ 0 ∨ now + kTokenRefreshSlackSeconds < mintedAt + maxAge)

/-- The two sums are compared with each other. Where the first is cut off the
token has expired; where only the second is, the first lies below it. -/
theorem tokenIsFresh_iff {token : CachedTokenState} {now maxAge : Int}
    (hmax : token.expiresAtUnix ≤ int64Max) :
    tokenIsFresh token now maxAge = true ↔
      FreshByRule token.expiresAtUnix token.mintedAtUnix now maxAge := by
  have hexpiry := saturatingAdd_lt_iff (a := now) (b := kTokenRefreshSlackSeconds) hmax
  unfold tokenIsFresh FreshByRule
  simp only
  split
  · rename_i hexpired
    have hnot : ¬now + kTokenRefreshSlackSeconds < token.expiresAtUnix := by
      rw [← hexpiry]
      omega
    simp [hnot]
  · rename_i hlives
    have hhorizon : now + kTokenRefreshSlackSeconds < token.expiresAtUnix := by
      apply hexpiry.mp
      omega
    have hfits : saturatingAdd now kTokenRefreshSlackSeconds = now + kTokenRefreshSlackSeconds := by
      rw [saturatingAdd_eq_min]
      apply min_eq_right
      omega
    have hage : now + kTokenRefreshSlackSeconds < saturatingAdd token.mintedAtUnix maxAge ↔
        now + kTokenRefreshSlackSeconds < token.mintedAtUnix + maxAge := by
      apply lt_saturatingAdd_iff
      omega
    rw [hfits, Bool.or_eq_true, decide_eq_true_eq, decide_eq_true_eq, hage, and_iff_right hhorizon]

-- ==================================================================== on words

namespace TokenPolicy

def kTokenRefreshSlackSeconds : Int64 := 60

structure CachedTokenState where
  accessToken : Str
  expiresAtUnix : Int64 := 0
  mintedAtUnix : Int64 := 0

/-- The token as the threads have it. -/
def CachedTokenState.toInt (token : CachedTokenState) : GDrive.CachedTokenState where
  accessToken := token.accessToken
  expiresAtUnix := token.expiresAtUnix.toInt
  mintedAtUnix := token.mintedAtUnix.toInt

/-- `b` is never negative. -/
def saturatingAdd (a b : Int64) : Int64 :=
  if Int64.maxValue - b < a then Int64.maxValue else a + b

def tokenIsFresh (token : CachedTokenState) (now maxAge : Int64) : Bool :=
  let horizon := saturatingAdd now kTokenRefreshSlackSeconds
  if token.expiresAtUnix ≤ horizon then false
  else decide (maxAge ≤ 0) || decide (horizon < saturatingAdd token.mintedAtUnix maxAge)

/-- The cap that the setting stands for; nothing for a negative setting. A cap
within the slack would make a token stale when it is minted. -/
def normalizeMaxAgeSeconds (requested : Int64) : Option Int64 :=
  if requested < 0 then none
  else if 0 < requested ∧ requested ≤ kTokenRefreshSlackSeconds then
    some (kTokenRefreshSlackSeconds + 1)
  else some requested

theorem slack_toInt : kTokenRefreshSlackSeconds.toInt = GDrive.kTokenRefreshSlackSeconds := rfl

theorem maxValue_toInt : Int64.maxValue.toInt = int64Max := rfl

/-- A sum that is a word is the sum of the words. -/
theorem add_toInt {a b : Int64} (hlow : -2 ^ 63 ≤ a.toInt + b.toInt)
    (hhigh : a.toInt + b.toInt < 2 ^ 63) : (a + b).toInt = a.toInt + b.toInt := by
  rw [Int64.toInt_add]
  apply Int.bmod_eq_of_le
  · omega
  · omega

theorem sub_toInt {a b : Int64} (hlow : -2 ^ 63 ≤ a.toInt - b.toInt)
    (hhigh : a.toInt - b.toInt < 2 ^ 63) : (a - b).toInt = a.toInt - b.toInt := by
  rw [Int64.toInt_sub]
  apply Int.bmod_eq_of_le
  · omega
  · omega

/-- Neither the difference nor the sum wraps. -/
theorem saturatingAdd_toInt {a b : Int64} (hb : 0 ≤ b.toInt) :
    (saturatingAdd a b).toInt = GDrive.saturatingAdd a.toInt b.toInt := by
  have ha := a.le_toInt
  have hbmax := b.toInt_lt
  have hmax : int64Max = 2 ^ 63 - 1 := rfl
  have hroom : (Int64.maxValue - b).toInt = int64Max - b.toInt := by
    rw [← maxValue_toInt]
    apply sub_toInt
    · rw [maxValue_toInt]
      omega
    · rw [maxValue_toInt]
      omega
  unfold saturatingAdd GDrive.saturatingAdd
  simp only [Int64.lt_iff_toInt_lt, hroom]
  split
  · rfl
  · apply add_toInt
    · omega
    · omega

/-- The words say what the integers say. -/
theorem tokenIsFresh_toInt (token : CachedTokenState) (now maxAge : Int64) :
    tokenIsFresh token now maxAge = GDrive.tokenIsFresh token.toInt now.toInt maxAge.toInt := by
  have hhorizon : (saturatingAdd now kTokenRefreshSlackSeconds).toInt =
      GDrive.saturatingAdd now.toInt GDrive.kTokenRefreshSlackSeconds := by
    rw [saturatingAdd_toInt (by decide), slack_toInt]
  unfold tokenIsFresh GDrive.tokenIsFresh CachedTokenState.toInt
  simp only [Int64.le_iff_toInt_le, Int64.lt_iff_toInt_lt, hhorizon, Int64.toInt_zero]
  split
  · rfl
  · by_cases hcap : maxAge.toInt ≤ 0
    · rw [decide_eq_true hcap, Bool.true_or, Bool.true_or]
    · rw [saturatingAdd_toInt (by omega)]

/-- An accepted setting is no cap, or a cap beyond the slack. -/
theorem lt_of_normalizeMaxAgeSeconds {requested effective : Int64}
    (h : normalizeMaxAgeSeconds requested = some effective) :
    effective.toInt ≤ 0 ∨ GDrive.kTokenRefreshSlackSeconds < effective.toInt := by
  unfold normalizeMaxAgeSeconds at h
  simp only [Int64.le_iff_toInt_le, Int64.lt_iff_toInt_lt, slack_toInt, Int64.toInt_zero] at h
  split at h
  · cases h
  · split at h
    · cases h
      exact .inr (by decide)
    · rename_i hclamp
      cases h
      omega

/-- Freshness is the rule over unbounded integers, whatever the words; and a
token is not stale when it is minted, whatever cap is asked for. -/
theorem token_freshness_exact :
    (∀ (token : CachedTokenState) (now maxAge : Int64),
      tokenIsFresh token now maxAge = true ↔
        FreshByRule token.expiresAtUnix.toInt token.mintedAtUnix.toInt now.toInt maxAge.toInt) ∧
    ∀ (requested effective : Int64), normalizeMaxAgeSeconds requested = some effective →
      ∀ (token : CachedTokenState) (now : Int64), token.mintedAtUnix = now →
        now.toInt + GDrive.kTokenRefreshSlackSeconds < token.expiresAtUnix.toInt →
          tokenIsFresh token now effective = true := by
  have hrule : ∀ (token : CachedTokenState) (now maxAge : Int64),
      tokenIsFresh token now maxAge = true ↔
        FreshByRule token.expiresAtUnix.toInt token.mintedAtUnix.toInt now.toInt maxAge.toInt := by
    intro token now maxAge
    have hmax : token.toInt.expiresAtUnix ≤ int64Max :=
      Int.le_of_lt_add_one token.expiresAtUnix.toInt_lt
    rw [tokenIsFresh_toInt, tokenIsFresh_iff hmax]
    rfl
  refine ⟨hrule, ?_⟩
  intro requested effective hcap token now hminted hlives
  rw [hrule]
  refine ⟨hlives, ?_⟩
  rcases lt_of_normalizeMaxAgeSeconds hcap with hnone | hbeyond
  · exact .inl hnone
  · rw [hminted]
    exact .inr (Int.add_lt_add_left hbeyond now.toInt)

/-- A setting of one second, of which a second more than the slack is made. -/
theorem token_freshness_exact_case :
    normalizeMaxAgeSeconds 1 = some 61 ∧
      tokenIsFresh { accessToken := [], expiresAtUnix := 3600, mintedAtUnix := 0 } 0 61 = true := by
  have hcap : normalizeMaxAgeSeconds 1 = some 61 := by decide
  refine ⟨hcap, ?_⟩
  exact token_freshness_exact.2 1 61 hcap _ 0 rfl (by decide)

end TokenPolicy

end GDrive
