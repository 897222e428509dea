/-
The grammar of the `Range` header of a 308 (gdrive_upload_plan.cpp), and its
reader on the code's own numbers.

# The words

`RangeWords` is the reader of `Range` on unsigned 64-bit words. Nineteen digits
fit in one, so no product, no sum and no increment wraps, and the words read
what the numbers read (`RangeWords.parseDriveRangeNext_toNat`).

# The grammar

A position in the header is what stands behind it. A run of digits ends where
the next byte is none, whatever its value (`parseDigits_eq_some_iff`), so what
is accepted can be said without the reader (`parseDriveRangeNext_eq_some_iff`),
and what a header states is one number (`StatesBytes.unique`).
-/
import Mathlib.Data.List.TakeWhile
import GDrive.Upload.Range

namespace GDrive

-- ======================================================================= digits

/-- What `ParseDigits` reads: one to nineteen digits. -/
structure DigitRun (digits : Str) : Prop where
  ne : digits ≠ []
  length_le : digits.length ≤ 19
  isDigit : ∀ c ∈ digits, isDigit c = true

/-- Behind a run of digits: no digit. -/
def EndsDigits (rest : Str) : Prop := ∀ c, rest.head? = some c → isDigit c = false

theorem le_digitsValue (ds : Str) : ∀ v, v ≤ digitsValue v ds := by
  induction ds with
  | nil => exact fun v => le_refl v
  | cons c ds ih =>
      intro v
      have hstep := ih (v * 10 + (c.toNat - 48))
      show v ≤ digitsValue (v * 10 + (c.toNat - 48)) ds
      omega

/-- Digits that are worth nothing are zeros. -/
theorem digitsValue_eq_zero_iff {ds : Str} (hds : ∀ c ∈ ds, isDigit c = true) :
    digitsValue 0 ds = 0 ↔ ∀ c ∈ ds, c = 48 := by
  induction ds with
  | nil => simp [digitsValue]
  | cons c ds ih =>
      have hc := hds c List.mem_cons_self
      have htail := ih fun d hd => hds d (List.mem_cons_of_mem _ hd)
      have hcode : c.toNat - 48 = 0 ↔ c = 48 := by
        rw [← UInt8.toNat_inj]
        simp only [isDigit, Bool.and_eq_true, decide_eq_true_eq] at hc
        show _ ↔ c.toNat = 48
        omega
      have hvalue : digitsValue 0 (c :: ds) = digitsValue (c.toNat - 48) ds := by
        simp [digitsValue]
      rw [hvalue, List.forall_mem_cons, ← hcode, ← htail]
      constructor
      · intro h
        have hle := le_digitsValue ds (c.toNat - 48)
        have hzero : c.toNat - 48 = 0 := by omega
        rw [hzero] at h
        exact ⟨hzero, h⟩
      · rintro ⟨hzero, h⟩
        rw [hzero]
        exact h

/-- A digit more is a power of ten more. -/
theorem digit_step {n v : Nat} {c : UInt8} (hv : v < 10 ^ n) (hc : isDigit c = true) :
    v * 10 + (c.toNat - 48) < 10 ^ (n + 1) := by
  simp only [isDigit, Bool.and_eq_true, decide_eq_true_eq] at hc
  rw [pow_succ]
  omega

theorem digitsValue_lt {ds : Str} (hds : ∀ c ∈ ds, isDigit c = true) :
    ∀ {n v : Nat}, v < 10 ^ n → digitsValue v ds < 10 ^ (n + ds.length) := by
  induction ds with
  | nil => exact fun h => h
  | cons c ds ih =>
      intro n v hv
      have htail := ih (fun d hd => hds d (List.mem_cons_of_mem _ hd))
        (digit_step hv (hds c List.mem_cons_self))
      rw [List.length_cons, Nat.add_comm ds.length, ← Nat.add_assoc]
      exact htail

theorem DigitRun.value_lt {digits : Str} (h : DigitRun digits) :
    digitsValue 0 digits < 10 ^ 19 := by
  have hlt := digitsValue_lt h.isDigit (n := 0) (v := 0) (by decide)
  apply lt_of_lt_of_le hlt
  apply Nat.pow_le_pow_right
  · omega
  · have := h.length_le
    omega

/-- The loop reads the whole run, where it is not too long. -/
theorem parseDigitsFrom_append {ds rest : Str} (hds : ∀ c ∈ ds, isDigit c = true)
    (hrest : EndsDigits rest) :
    ∀ {n v : Nat}, n ≤ 19 → parseDigitsFrom n v (ds ++ rest) =
      if 19 < n + ds.length then none else some (n + ds.length, digitsValue v ds, rest) := by
  induction ds with
  | nil =>
      intro n v hn
      rw [List.nil_append, List.length_nil, Nat.add_zero, if_neg (by omega)]
      cases rest with
      | nil => rfl
      | cons c rest =>
          rw [parseDigitsFrom, hrest c rfl, if_neg Bool.false_ne_true]
          rfl
  | cons c ds ih =>
      intro n v hn
      rw [List.cons_append, parseDigitsFrom, hds c List.mem_cons_self, if_pos rfl]
      by_cases hfull : 19 ≤ n
      · rw [if_pos hfull, if_pos]
        rw [List.length_cons]
        omega
      · rw [if_neg hfull, ih (fun d hd => hds d (List.mem_cons_of_mem _ hd)) (by omega),
          List.length_cons, Nat.add_comm ds.length, ← Nat.add_assoc]
        rfl

/-- `ParseDigits` takes a whole run of digits, and is content with nothing
else. -/
theorem parseDigits_eq_some_iff {s rest : Str} {value : Nat} :
    parseDigits s = some (value, rest) ↔
      ∃ digits, DigitRun digits ∧ EndsDigits rest ∧ s = digits ++ rest ∧
        value = digitsValue 0 digits := by
  have hrun : ∀ {ds behind : Str}, (∀ c ∈ ds, isDigit c = true) → EndsDigits behind →
      parseDigits (ds ++ behind) =
        if ds = [] ∨ 19 < ds.length then none else some (digitsValue 0 ds, behind) := by
    intro ds behind hds hbehind
    unfold parseDigits
    rw [parseDigitsFrom_append hds hbehind (by omega), Nat.zero_add]
    by_cases hlong : 19 < ds.length
    · rw [if_pos hlong, if_pos (.inr hlong)]
    · rw [if_neg hlong]
      cases ds with
      | nil => rfl
      | cons c ds =>
          rw [if_neg (by simpa using hlong)]
          rfl
  constructor
  · intro h
    have hds : ∀ c ∈ s.takeWhile isDigit, isDigit c = true := fun c hc => List.mem_takeWhile_imp hc
    have hbehind : EndsDigits (s.dropWhile isDigit) := by
      intro c hc
      have hnot := List.head?_dropWhile_not isDigit s
      rw [hc] at hnot
      simpa using hnot
    have hsplit : s.takeWhile isDigit ++ s.dropWhile isDigit = s := List.takeWhile_append_dropWhile
    rw [← hsplit, hrun hds hbehind] at h
    split at h
    · cases h
    · rename_i hfits
      rw [not_or, not_lt] at hfits
      obtain ⟨rfl, rfl⟩ := Prod.mk.inj (Option.some.inj h)
      exact ⟨_, ⟨hfits.1, hfits.2, hds⟩, hbehind, hsplit.symm, rfl⟩
  · rintro ⟨digits, hdigits, hbehind, rfl, rfl⟩
    rw [hrun hdigits.isDigit hbehind, if_neg]
    rw [not_or, not_lt]
    exact ⟨hdigits.ne, hdigits.length_le⟩

-- ================================================================= the grammar

/-- `bytes=`, zeros, a dash, and the digits of the last byte held. -/
def IsRange (header : Str) (last : Nat) : Prop :=
  ∃ zeros digits, header = str "bytes=" ++ (zeros ++ 45 :: digits) ∧
    DigitRun zeros ∧ (∀ c ∈ zeros, c = 48) ∧ DigitRun digits ∧ digitsValue 0 digits = last

/-- The number of bytes that a header states: none, or those from a first one
to a last one. -/
def StatesBytes (header : Str) (n : Nat) : Prop :=
  (header = [] ∧ n = 0) ∨
    ∃ first last, header = str "bytes=" ++ (first ++ 45 :: last) ∧
      (∀ c ∈ first, isDigit c = true) ∧ (∀ c ∈ last, isDigit c = true) ∧
      digitsValue 0 first + n = digitsValue 0 last + 1

theorem endsDigits_dash (rest : Str) : EndsDigits (45 :: rest) := by
  intro c hc
  cases hc
  rfl

theorem endsDigits_nil : EndsDigits [] := by
  intro c hc
  cases hc

theorem StatesBytes.unique {header : Str} {n m : Nat} (h : StatesBytes header n)
    (h' : StatesBytes header m) : n = m := by
  rcases h with ⟨rfl, rfl⟩ | ⟨first, last, rfl, hfirst, hlast, hn⟩
  · rcases h' with ⟨-, rfl⟩ | ⟨first', last', hheader, -, -, -⟩
    · rfl
    · cases hheader
  · rcases h' with ⟨hheader, -⟩ | ⟨first', last', hheader, hfirst', hlast', hm⟩
    · cases hheader
    · obtain ⟨rfl, hdash⟩ := digits_append_unique (List.append_cancel_left hheader) hfirst hfirst'
        (endsDigits_dash last) (endsDigits_dash last')
      obtain ⟨-, rfl⟩ := List.cons.inj hdash
      omega

theorem IsRange.states {header : Str} {last : Nat} (h : IsRange header last) :
    StatesBytes header (last + 1) := by
  obtain ⟨zeros, digits, hheader, hzeros, hzero, hdigits, hlast⟩ := h
  refine .inr ⟨zeros, digits, hheader, hzeros.isDigit, hdigits.isDigit, ?_⟩
  rw [(digitsValue_eq_zero_iff hzeros.isDigit).mpr hzero, hlast, Nat.zero_add]

theorem IsRange.last_lt {header : Str} {last : Nat} (h : IsRange header last) : last < 10 ^ 19 := by
  obtain ⟨zeros, digits, -, -, -, hdigits, rfl⟩ := h
  exact hdigits.value_lt

/-- The reader accepts what the grammar has, and nothing else. -/
theorem parseDriveRangeNext_eq_some_iff {header : Str} {next : Nat} :
    parseDriveRangeNext header = some next ↔
      (header = [] ∧ next = 0) ∨ ∃ last, IsRange header last ∧ next = last + 1 := by
  constructor
  · intro h
    cases header with
    | nil =>
        cases h
        exact .inl ⟨rfl, rfl⟩
    | cons c cs =>
        have hbytes : str "bytes=" <+: c :: cs := by
          by_contra hnot
          rw [← List.isPrefixOf_iff_prefix, Bool.not_eq_true] at hnot
          simp [parseDriveRangeNext, hnot] at h
        obtain ⟨t, ht⟩ := hbytes
        rw [← ht] at h ⊢
        rw [parseDriveRangeNext_bytes] at h
        split at h
        · rename_i first rest hfirst
          split at h
          · rename_i last hlast
            obtain ⟨zeros, hzeros, -, rfl, rfl⟩ := parseDigits_eq_some_iff.mp hfirst
            obtain ⟨digits, hdigits, -, rfl, rfl⟩ := parseDigits_eq_some_iff.mp hlast
            rw [List.append_nil] at *
            split at h
            · cases h
            · split at h
              · cases h
              · rename_i hheld
                rw [not_or, not_not] at hheld
                refine .inr ⟨_, ⟨zeros, digits, rfl, hzeros, ?_, hdigits, rfl⟩, ?_⟩
                · exact (digitsValue_eq_zero_iff hzeros.isDigit).mp hheld.1
                · exact (Option.some.inj h).symm
          · cases h
        · cases h
  · rintro (⟨rfl, rfl⟩ | ⟨last, hrange, rfl⟩)
    · rfl
    · have hlt := hrange.last_lt
      obtain ⟨zeros, digits, rfl, hzeros, hzero, hdigits, rfl⟩ := hrange
      have hfirst : parseDigits (zeros ++ 45 :: digits) = some (0, 45 :: digits) := by
        apply parseDigits_eq_some_iff.mpr
        refine ⟨zeros, hzeros, endsDigits_dash _, rfl, ?_⟩
        exact ((digitsValue_eq_zero_iff hzeros.isDigit).mpr hzero).symm
      have hlast : parseDigits digits = some (digitsValue 0 digits, []) := by
        apply parseDigits_eq_some_iff.mpr
        exact ⟨digits, hdigits, endsDigits_nil, (List.append_nil digits).symm, rfl⟩
      rw [parseDriveRangeNext_bytes, hfirst]
      simp only [hlast]
      rw [if_neg (by omega), if_neg (by omega)]

-- ==================================================================== on words

namespace RangeWords

/-- The loop of `ParseDigits`: how many digits were read so far and their
value, then the rest of the header. -/
def parseDigitsFrom : Nat → UInt64 → Str → Option (Nat × UInt64 × Str)
  | n, v, c :: rest =>
      if isDigit c then
        if 19 ≤ n then none else parseDigitsFrom (n + 1) (v * 10 + (c - 48).toUInt64) rest
      else some (n, v, c :: rest)
  | n, v, [] => some (n, v, [])

def parseDigits (s : Str) : Option (UInt64 × Str) :=
  match parseDigitsFrom 0 0 s with
  | some (0, _, _) => none
  | some (_, v, rest) => some (v, rest)
  | none => none

/-- The next byte Drive expects; the increment is that of a word. -/
def parseDriveRangeNext (rangeHeader : Str) : Option UInt64 :=
  if rangeHeader.isEmpty then some 0
  else if !(str "bytes=").isPrefixOf rangeHeader then none
  else
    match parseDigits (rangeHeader.drop (str "bytes=").length) with
    | some (first, 45 :: rest) => -- '-'
        match parseDigits rest with
        | some (last, []) =>
            if last < first then none
            else if first ≠ 0 ∨ last = 18446744073709551615 then none
            else some (last + 1)
        | _ => none
    | _ => none

/-- A digit's byte and the digit. -/
theorem digit_toNat {c : UInt8} (hc : isDigit c = true) :
    (c - 48).toUInt64.toNat = c.toNat - 48 := by
  simp only [isDigit, Bool.and_eq_true, decide_eq_true_eq] at hc
  rw [UInt8.toNat_toUInt64]
  apply UInt8.toNat_sub_of_le
  rw [UInt8.le_iff_toNat_le]
  exact hc.1

/-- Within nineteen digits neither the product nor the sum wraps. -/
theorem step_toNat {n : Nat} {v : UInt64} {c : UInt8} (hn : n < 19) (hv : v.toNat < 10 ^ n)
    (hc : isDigit c = true) :
    (v * 10 + (c - 48).toUInt64).toNat = v.toNat * 10 + (c.toNat - 48) := by
  have hstep := digit_step hv hc
  have hpow : 10 ^ (n + 1) ≤ 10 ^ 19 := Nat.pow_le_pow_right (by omega) hn
  rw [UInt64.toNat_add, UInt64.toNat_mul, digit_toNat hc, Nat.mod_add_mod]
  apply Nat.mod_eq_of_lt
  show v.toNat * 10 + _ < 2 ^ 64
  omega

theorem parseDigitsFrom_toNat (s : Str) :
    ∀ {n : Nat} {v : UInt64}, v.toNat < 10 ^ n →
      GDrive.parseDigitsFrom n v.toNat s =
        (parseDigitsFrom n v s).map fun r => (r.1, r.2.1.toNat, r.2.2) := by
  induction s with
  | nil => exact fun _ => rfl
  | cons c s ih =>
      intro n v hv
      rw [GDrive.parseDigitsFrom, parseDigitsFrom]
      split
      · rename_i hc
        split
        · rfl
        · rename_i hfull
          have hstep := step_toNat (by omega) hv hc
          rw [← hstep]
          apply ih
          rw [hstep]
          exact digit_step hv hc
      · rfl

theorem parseDigits_toNat (s : Str) :
    GDrive.parseDigits s = (parseDigits s).map fun r => (r.1.toNat, r.2) := by
  have hloop := parseDigitsFrom_toNat s (n := 0) (v := 0) (by decide)
  rw [UInt64.toNat_zero] at hloop
  unfold GDrive.parseDigits parseDigits
  rw [hloop]
  rcases parseDigitsFrom 0 0 s with _ | ⟨_ | m, v, rest⟩
  · rfl
  · rfl
  · rfl

/-- What is compared and added is what the words stand for. -/
theorem held_toNat (first last : UInt64) :
    (if last.toNat < first.toNat then none
      else if first.toNat ≠ 0 ∨ last.toNat = 2 ^ 64 - 1 then none
      else some (last.toNat + 1)) =
      (if last < first then none
        else if first ≠ 0 ∨ last = 18446744073709551615 then none
        else some (last + 1)).map UInt64.toNat := by
  have hzero : first.toNat = 0 ↔ first = 0 := UInt64.toNat_inj (b := 0)
  have hmax : last.toNat = 2 ^ 64 - 1 ↔ last = 18446744073709551615 :=
    UInt64.toNat_inj (b := 18446744073709551615)
  simp only [UInt64.lt_iff_toNat_lt, ne_eq, hzero, hmax]
  split
  · rfl
  · split
    · rfl
    · rename_i hheld
      rw [not_or, not_not, ← hmax] at hheld
      have hlt := last.toNat_lt
      have hnext : (last + 1).toNat = last.toNat + 1 := by
        rw [UInt64.toNat_add]
        apply Nat.mod_eq_of_lt
        show last.toNat + 1 < 2 ^ 64
        omega
      rw [Option.map_some, hnext]

/-- The words read what the numbers read. -/
theorem parseDriveRangeNext_toNat (header : Str) :
    GDrive.parseDriveRangeNext header = (parseDriveRangeNext header).map UInt64.toNat := by
  unfold GDrive.parseDriveRangeNext parseDriveRangeNext
  split
  · rfl
  · split
    · rfl
    · rw [parseDigits_toNat]
      cases hfirst : parseDigits (header.drop (str "bytes=").length) with
      | none => rfl
      | some r =>
          obtain ⟨first, rest⟩ := r
          cases rest with
          | nil => rfl
          | cons c rest =>
              by_cases hdash : c = 45
              · rw [hdash]
                have hnat := parseDigits_toNat rest
                rcases hlast : parseDigits rest with _ | ⟨last, _ | ⟨d, behind⟩⟩
                · rw [hlast] at hnat
                  simp only [Option.map_some, hnat, hlast]
                  rfl
                · rw [hlast] at hnat
                  simp only [Option.map_some, hnat, hlast]
                  exact held_toNat first last
                · rw [hlast] at hnat
                  simp only [Option.map_some, hnat, hlast]
                  rfl
              · simp [hdash]

theorem parseDriveRangeNext_eq_some_iff {header : Str} {next : UInt64} :
    parseDriveRangeNext header = some next ↔
      (header = [] ∧ next.toNat = 0) ∨ ∃ last, IsRange header last ∧ next.toNat = last + 1 := by
  rw [← GDrive.parseDriveRangeNext_eq_some_iff, parseDriveRangeNext_toNat, Option.map_eq_some_iff]
  constructor
  · intro h
    exact ⟨next, h, rfl⟩
  · rintro ⟨word, h, hword⟩
    rw [h, UInt64.toNat_inj.mp hword]

/-- The header is accepted exactly where it is in the grammar, with the number
after the one it denotes; a session that holds `n` bytes can say so; and what
is accepted is the number of bytes that the header states. -/
theorem parseDriveRangeNext_exact :
    (∀ header next, parseDriveRangeNext header = some next ↔
      (header = [] ∧ next.toNat = 0) ∨ ∃ last, IsRange header last ∧ next.toNat = last + 1) ∧
    (∀ n : Nat, 1 ≤ n → n < 10 ^ 19 →
      ∃ next, parseDriveRangeNext (str "bytes=0-" ++ decimal (n - 1)) = some next ∧
        next.toNat = n) ∧
    ∀ header next, parseDriveRangeNext header = some next →
      ∀ n, StatesBytes header n ↔ n = next.toNat := by
  refine ⟨fun header next => parseDriveRangeNext_eq_some_iff, ?_, ?_⟩
  · intro n hpos hn
    have hnext : (UInt64.ofNat n).toNat = n := by
      rw [UInt64.toNat_ofNat']
      apply Nat.mod_eq_of_lt
      omega
    have hdigits : DigitRun (decimal (n - 1)) := by
      refine ⟨decimal_ne_nil _, ?_, fun c hc => isDigit_of_mem_decimal hc⟩
      rw [decimal, List.length_map, Nat.length_toDigits_le_iff (by omega) (by omega)]
      omega
    have hzero : DigitRun [48] := by
      refine ⟨List.cons_ne_nil _ _, by decide, ?_⟩
      intro c hc
      rw [List.mem_singleton.mp hc]
      rfl
    refine ⟨UInt64.ofNat n, ?_, hnext⟩
    apply parseDriveRangeNext_eq_some_iff.mpr
    refine .inr ⟨n - 1, ⟨[48], decimal (n - 1), rfl, hzero, ?_, hdigits, ?_⟩, ?_⟩
    · exact fun c hc => List.mem_singleton.mp hc
    · exact digitsValue_decimal _
    · rw [hnext]
      omega
  · intro header next h n
    have hstates : StatesBytes header next.toNat := by
      rcases parseDriveRangeNext_eq_some_iff.mp h with ⟨hempty, hnext⟩ | ⟨last, hrange, hnext⟩
      · exact .inl ⟨hempty, hnext⟩
      · rw [hnext]
        exact hrange.states
    constructor
    · exact fun hn => hn.unique hstates
    · rintro rfl
      exact hstates

/-- A session that holds one chunk. -/
theorem parseDriveRangeNext_exact_case :
    ∃ next, parseDriveRangeNext (str "bytes=0-" ++ decimal 262143) = some next ∧
      next.toNat = 262144 ∧ StatesBytes (str "bytes=0-" ++ decimal 262143) 262144 := by
  obtain ⟨next, hnext, hn⟩ := parseDriveRangeNext_exact.2.1 262144 (by omega) (by omega)
  refine ⟨next, hnext, hn, ?_⟩
  exact (parseDriveRangeNext_exact.2.2 _ next hnext 262144).mpr hn.symm

end RangeWords

end GDrive
