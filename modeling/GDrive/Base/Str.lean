/-
Byte strings as the C++ code has them: `Str` is a `std::string`, a
sequence of bytes with no encoding attached. `str` writes a literal of
the source; `decimal` is `std::to_string` on an unsigned number.
-/
import Mathlib.Algebra.Order.Ring.Nat
import Mathlib.Data.List.Infix

namespace GDrive

/-- A `std::string`: bytes, no encoding. -/
abbrev Str := List UInt8

/-- The byte of an ASCII character. -/
def charByte (c : Char) : UInt8 := UInt8.ofNat c.toNat

/-- A string literal of the source (ASCII throughout). -/
def str (s : String) : Str := s.toList.map charByte

/-- `haystack.find(needle) != npos`. -/
def containsText (haystack needle : Str) : Bool := haystack.tails.any (needle.isPrefixOf ·)

def quoted (s : Str) : Str := str "'" ++ s ++ str "'"

/-- `[0-9]`, as `isdigit` in the C locale. -/
def isDigit (c : UInt8) : Bool := 48 ≤ c.toNat && c.toNat ≤ 57

/-- `isalpha` in the C locale. -/
def isAlpha (c : UInt8) : Bool :=
  (65 ≤ c.toNat && c.toNat ≤ 90) || (97 ≤ c.toNat && c.toNat ≤ 122)

/-- `isalnum` in the C locale. -/
def isAlnum (c : UInt8) : Bool := isAlpha c || isDigit c

/-- `isspace` in the C locale. -/
def isSpace (c : UInt8) : Bool := c == 32 || (9 ≤ c.toNat && c.toNat ≤ 13)

/-- `tolower` in the C locale. -/
def toLower (c : UInt8) : UInt8 := if 65 ≤ c.toNat ∧ c.toNat ≤ 90 then c + 32 else c

def hexDigit (n : Nat) : UInt8 := (str "0123456789abcdef").getD n 0

/-- `std::to_string` of an unsigned number. -/
def decimal (n : Nat) : Str := (Nat.toDigits 10 n).map charByte

/-- `%lld`. -/
def signedDecimal (n : Int) : Str :=
  if n < 0 then 45 :: decimal n.natAbs else decimal n.natAbs -- '-'

/-- The byte of a decimal digit. -/
def digitByte (d : Nat) : UInt8 := UInt8.ofNat (48 + d)

theorem digitByte_toNat {d : Nat} (h : d < 10) : (digitByte d).toNat = 48 + d := by
  simp only [digitByte, UInt8.toNat_ofNat']
  omega

theorem isDigit_digitByte {d : Nat} (h : d < 10) : isDigit (digitByte d) = true := by
  simp only [isDigit, digitByte_toNat h, Bool.and_eq_true, decide_eq_true_eq]
  omega

private theorem charByte_digitChar : ∀ d < 10, charByte (Nat.digitChar d) = digitByte d := by
  decide

theorem decimal_of_lt {n : Nat} (h : n < 10) : decimal n = [digitByte n] := by
  rw [decimal, Nat.toDigits_of_lt_base h, List.map_singleton, charByte_digitChar n h]

theorem decimal_of_ge {n : Nat} (h : 10 ≤ n) :
    decimal n = decimal (n / 10) ++ [digitByte (n % 10)] := by
  rw [decimal, Nat.toDigits_of_base_le (by omega) h, List.map_append, List.map_singleton,
    charByte_digitChar _ (Nat.mod_lt _ (by omega)), decimal]

theorem decimal_ne_nil (n : Nat) : decimal n ≠ [] := by
  by_cases h : n < 10
  · rw [decimal_of_lt h]
    exact List.cons_ne_nil _ _
  · rw [decimal_of_ge (by omega)]
    exact List.append_ne_nil_of_right_ne_nil _ (List.cons_ne_nil _ _)

/-- `decimal` writes digits only. -/
theorem isDigit_of_mem_decimal {c : UInt8} : ∀ {n : Nat}, c ∈ decimal n → isDigit c = true := by
  intro n
  induction n using Nat.strong_induction_on with
  | _ n ih =>
      intro hc
      by_cases h : n < 10
      · rw [decimal_of_lt h, List.mem_singleton] at hc
        rw [hc]
        exact isDigit_digitByte h
      · rw [decimal_of_ge (by omega), List.mem_append, List.mem_singleton] at hc
        rcases hc with hc | rfl
        · exact ih (n / 10) (by omega) hc
        · exact isDigit_digitByte (Nat.mod_lt _ (by omega))

/-- The value a run of digits denotes, most significant first, on top of
a value already read. -/
def digitsValue (value : Nat) (s : Str) : Nat :=
  s.foldl (fun v c => v * 10 + (c.toNat - 48)) value

theorem digitsValue_append (v : Nat) (s t : Str) :
    digitsValue v (s ++ t) = digitsValue (digitsValue v s) t := by
  simp [digitsValue, List.foldl_append]

/-- Reading back what `decimal` wrote. -/
theorem digitsValue_decimal (n : Nat) : digitsValue 0 (decimal n) = n := by
  induction n using Nat.strong_induction_on with
  | _ n ih =>
      by_cases h : n < 10
      · rw [decimal_of_lt h]
        simp only [digitsValue, List.foldl_cons, List.foldl_nil, digitByte_toNat h]
        omega
      · rw [decimal_of_ge (by omega), digitsValue_append, ih (n / 10) (by omega)]
        have hd := digitByte_toNat (Nat.mod_lt n (y := 10) (by omega))
        simp only [digitsValue, List.foldl_cons, List.foldl_nil, hd]
        omega

theorem decimal_injective {n m : Nat} (h : decimal n = decimal m) : n = m := by
  rw [← digitsValue_decimal n, h, digitsValue_decimal]

/-- A field that lacks the separator ends at the first one. -/
theorem cancel_field {α : Type} {a b x y : List α} {c : α} (ha : c ∉ a) (hb : c ∉ b)
    (h : a ++ c :: x = b ++ c :: y) : a = b ∧ x = y := by
  induction a generalizing b with
  | nil =>
      cases b with
      | nil => exact ⟨rfl, (List.cons.inj h).2⟩
      | cons d b =>
          obtain rfl : c = d := (List.cons.inj h).1
          exact absurd List.mem_cons_self hb
  | cons d a ih =>
      cases b with
      | nil =>
          obtain rfl : d = c := (List.cons.inj h).1
          exact absurd List.mem_cons_self ha
      | cons d' b =>
          obtain ⟨rfl, hrest⟩ := List.cons.inj h
          obtain ⟨rfl, hxy⟩ := ih (fun hc => ha (List.mem_cons_of_mem _ hc))
            (fun hc => hb (List.mem_cons_of_mem _ hc)) hrest
          exact ⟨rfl, hxy⟩

/-- The same, from behind. -/
theorem cancel_last {α : Type} {a b x y : List α} {c : α} (hx : c ∉ x) (hy : c ∉ y)
    (h : a ++ c :: x = b ++ c :: y) : a = b ∧ x = y := by
  have hrev : x.reverse ++ c :: a.reverse = y.reverse ++ c :: b.reverse := by
    simpa using congrArg List.reverse h
  obtain ⟨hxy, hab⟩ := cancel_field (by simpa using hx) (by simpa using hy) hrev
  exact ⟨List.reverse_injective hab, List.reverse_injective hxy⟩

end GDrive
