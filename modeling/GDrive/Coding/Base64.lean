/-
Base64 without padding: three bytes by four letters, and a shorter tail by
two or three.

The alphabet is the writer's choice; the reader here has the one for URLs.
A reader that knows every letter of the writer undoes it
(`decode_encodeBase64`), so no two byte strings have one encoding.
-/
import Mathlib.Data.List.Basic

namespace Coding

-- ================================================================= the writer

/-- `digit` writes a number below 64. -/
def encodeBase64 (digit : Nat → UInt8) : List UInt8 → List UInt8
  | [] => []
  | [a] => [digit (a.toNat / 4), digit (a.toNat % 4 * 16)]
  | [a, b] =>
      [digit (a.toNat / 4), digit (a.toNat % 4 * 16 + b.toNat / 16), digit (b.toNat % 16 * 4)]
  | a :: b :: c :: rest =>
      digit (a.toNat / 4) :: digit (a.toNat % 4 * 16 + b.toNat / 16)
        :: digit (b.toNat % 16 * 4 + c.toNat / 64) :: digit (c.toNat % 64)
        :: encodeBase64 digit rest

theorem mem_encodeBase64 {digit : Nat → UInt8} {s : List UInt8} {c : UInt8}
    (h : c ∈ encodeBase64 digit s) : ∃ n < 64, c = digit n := by
  fun_induction encodeBase64 digit s with
  | case1 => cases h
  | case2 a =>
      have ha := a.toNat_lt
      simp only [List.mem_cons, List.not_mem_nil, or_false] at h
      rcases h with rfl | rfl <;> exact ⟨_, by omega, rfl⟩
  | case3 a b =>
      have ha := a.toNat_lt
      have hb := b.toNat_lt
      simp only [List.mem_cons, List.not_mem_nil, or_false] at h
      rcases h with rfl | rfl | rfl <;> exact ⟨_, by omega, rfl⟩
  | case4 a b c' rest ih =>
      have ha := a.toNat_lt
      have hb := b.toNat_lt
      have hc := c'.toNat_lt
      simp only [List.mem_cons] at h
      rcases h with rfl | rfl | rfl | rfl | h
      · exact ⟨_, by omega, rfl⟩
      · exact ⟨_, by omega, rfl⟩
      · exact ⟨_, by omega, rfl⟩
      · exact ⟨_, by omega, rfl⟩
      · exact ih h

/-- Another alphabet, letter by letter. -/
theorem map_encodeBase64 (f : UInt8 → UInt8) (digit : Nat → UInt8) (s : List UInt8) :
    (encodeBase64 digit s).map f = encodeBase64 (fun n => f (digit n)) s := by
  fun_induction encodeBase64 digit s with
  | case1 => rfl
  | case2 a => rfl
  | case3 a b => rfl
  | case4 a b c rest ih => simp only [List.map_cons, ih, encodeBase64]

-- ================================================================= the reader

/-- The number of a letter of the alphabet for URLs. -/
def base64Value (c : UInt8) : Option Nat :=
  if 65 ≤ c.toNat ∧ c.toNat ≤ 90 then some (c.toNat - 65)
  else if 97 ≤ c.toNat ∧ c.toNat ≤ 122 then some (c.toNat - 71)
  else if 48 ≤ c.toNat ∧ c.toNat ≤ 57 then some (c.toNat + 4)
  else if c = 45 then some 62
  else if c = 95 then some 63
  else none

def byteOf (n : Nat) : UInt8 := UInt8.ofNat n

/-- What is left over in the last letter is dropped. -/
def decodeBase64 : List UInt8 → Option (List UInt8)
  | [] => some []
  | [_] => none
  | [a, b] =>
      match base64Value a, base64Value b with
      | some w, some x => some [byteOf (w * 4 + x / 16)]
      | _, _ => none
  | [a, b, c] =>
      match base64Value a, base64Value b, base64Value c with
      | some w, some x, some y => some [byteOf (w * 4 + x / 16), byteOf (x % 16 * 16 + y / 4)]
      | _, _, _ => none
  | a :: b :: c :: d :: rest =>
      match base64Value a, base64Value b, base64Value c, base64Value d, decodeBase64 rest with
      | some w, some x, some y, some z, some s =>
          some (byteOf (w * 4 + x / 16) :: byteOf (x % 16 * 16 + y / 4)
            :: byteOf (y % 4 * 64 + z) :: s)
      | _, _, _, _, _ => none

theorem byteOf_eq {n : Nat} {c : UInt8} (h : n = c.toNat) : byteOf n = c := by
  rw [h]
  exact UInt8.ofNat_toNat

/-- Reading undoes writing, whatever the bytes are. -/
theorem decode_encodeBase64 {digit : Nat → UInt8} (hdigit : ∀ n < 64, base64Value (digit n) = some n)
    (s : List UInt8) : decodeBase64 (encodeBase64 digit s) = some s := by
  fun_induction encodeBase64 digit s with
  | case1 => rfl
  | case2 a =>
      have ha := a.toNat_lt
      simp only [decodeBase64, hdigit _ (show a.toNat / 4 < 64 by omega),
        hdigit _ (show a.toNat % 4 * 16 < 64 by omega)]
      rw [byteOf_eq (c := a) (by omega)]
  | case3 a b =>
      have ha := a.toNat_lt
      have hb := b.toNat_lt
      simp only [decodeBase64, hdigit _ (show a.toNat / 4 < 64 by omega),
        hdigit _ (show a.toNat % 4 * 16 + b.toNat / 16 < 64 by omega),
        hdigit _ (show b.toNat % 16 * 4 < 64 by omega)]
      rw [byteOf_eq (c := a) (by omega), byteOf_eq (c := b) (by omega)]
  | case4 a b c rest ih =>
      have ha := a.toNat_lt
      have hb := b.toNat_lt
      have hc := c.toNat_lt
      simp only [decodeBase64, hdigit _ (show a.toNat / 4 < 64 by omega),
        hdigit _ (show a.toNat % 4 * 16 + b.toNat / 16 < 64 by omega),
        hdigit _ (show b.toNat % 16 * 4 + c.toNat / 64 < 64 by omega),
        hdigit _ (show c.toNat % 64 < 64 by omega), ih]
      rw [byteOf_eq (c := a) (by omega), byteOf_eq (c := b) (by omega),
        byteOf_eq (c := c) (by omega)]

theorem encodeBase64_injective {digit : Nat → UInt8}
    (hdigit : ∀ n < 64, base64Value (digit n) = some n) {s t : List UInt8}
    (h : encodeBase64 digit s = encodeBase64 digit t) : s = t := by
  have hs := decode_encodeBase64 hdigit s
  rw [h, decode_encodeBase64 hdigit t] at hs
  exact (Option.some.inj hs).symm

end Coding
