/-
Texts that are spelled letter by letter: each letter by a word, and a
reader that takes one word off the front at a time.

`decode` reads words to the end of a text, `readTo` up to a closing letter.
If the reader takes every word for its letter, whatever follows, both undo
the spelling (`decode_spelled`, `readTo_spelled`), so no two texts are
spelled alike.
-/
import Mathlib.Data.List.Basic

namespace Coding

variable {α β : Type}

-- ===================================================================== readers

/-- Words to the end of the text, at most so many. -/
def readAll (piece : List α → Option (List β × List α)) : Nat → List α → Option (List β)
  | _, [] => some []
  | 0, _ :: _ => none
  | fuel + 1, c :: rest =>
      match piece (c :: rest) with
      | none => none
      | some (letters, rest') => (readAll piece fuel rest').map (letters ++ ·)

/-- No word is empty, so there are no more words than letters. -/
def decode (piece : List α → Option (List β × List α)) (s : List α) : Option (List β) :=
  readAll piece s.length s

-- ==================================================================== spellings

/-- Every word is read as its letter, whatever follows. -/
structure Spelling (piece : List α → Option (List β × List α)) (word : β → List α) : Prop where
  ne_nil : ∀ b, word b ≠ []
  reads : ∀ b rest, piece (word b ++ rest) = some ([b], rest)

variable {piece : List α → Option (List β × List α)} {word : β → List α}

theorem readAll_cons {fuel : Nat} {s rest : List α} {letters : List β} (hne : s ≠ [])
    (h : piece s = some (letters, rest)) :
    readAll piece (fuel + 1) s = (readAll piece fuel rest).map (letters ++ ·) := by
  obtain ⟨c, t, rfl⟩ := List.exists_cons_of_ne_nil hne
  simp only [readAll, h]

theorem Spelling.length_le (h : Spelling piece word) (s : List β) :
    s.length ≤ (s.flatMap word).length := by
  induction s with
  | nil => exact Nat.le_refl 0
  | cons b s ih =>
      have hpos := List.length_pos_of_ne_nil (h.ne_nil b)
      rw [List.flatMap_cons, List.length_append, List.length_cons]
      omega

theorem Spelling.append_ne_nil (h : Spelling piece word) (b : β) (rest : List α) :
    word b ++ rest ≠ [] := by
  intro hnil
  exact h.ne_nil b (List.append_eq_nil_iff.mp hnil).1

theorem Spelling.readAll_spelled (h : Spelling piece word) {fuel : Nat} {s : List β}
    (hfuel : s.length ≤ fuel) : readAll piece fuel (s.flatMap word) = some s := by
  induction s generalizing fuel with
  | nil => cases fuel <;> rfl
  | cons b s ih =>
      obtain ⟨fuel, rfl⟩ : ∃ n, fuel = n + 1 := ⟨fuel - 1, by simp at hfuel; omega⟩
      rw [List.flatMap_cons, readAll_cons (h.append_ne_nil b _) (h.reads b _),
        ih (Nat.le_of_succ_le_succ hfuel)]
      rfl

/-- Reading to the end undoes the spelling. -/
theorem Spelling.decode_spelled (h : Spelling piece word) (s : List β) :
    decode piece (s.flatMap word) = some s := h.readAll_spelled (h.length_le s)

theorem Spelling.injective (h : Spelling piece word) {s t : List β}
    (heq : s.flatMap word = t.flatMap word) : s = t := by
  have hs := h.decode_spelled s
  rw [heq, h.decode_spelled t] at hs
  exact (Option.some.inj hs).symm

-- ============================================================ to a closing letter

variable [DecidableEq α] {stop : α}

/-- Words up to the letter `stop`, and what follows it. -/
def readUntil (stop : α) (piece : List α → Option (List β × List α)) :
    Nat → List α → Option (List β × List α)
  | _, [] => none
  | 0, _ :: _ => none
  | fuel + 1, c :: rest =>
      if c = stop then some ([], rest)
      else
        match piece (c :: rest) with
        | none => none
        | some (letters, rest') =>
            (readUntil stop piece fuel rest').map fun r => (letters ++ r.1, r.2)

def readTo (stop : α) (piece : List α → Option (List β × List α)) (s : List α) :
    Option (List β × List α) :=
  readUntil stop piece s.length s

theorem readUntil_cons {fuel : Nat} {s rest : List α} {letters : List β} (hne : s ≠ [])
    (hstop : s.head? ≠ some stop) (h : piece s = some (letters, rest)) :
    readUntil stop piece (fuel + 1) s =
      (readUntil stop piece fuel rest).map fun r => (letters ++ r.1, r.2) := by
  obtain ⟨c, t, rfl⟩ := List.exists_cons_of_ne_nil hne
  have hc : c ≠ stop := by
    intro heq
    exact hstop (congrArg some heq)
  simp only [readUntil, if_neg hc, h]

theorem readUntil_stop (fuel : Nat) (rest : List α) :
    readUntil stop piece (fuel + 1) (stop :: rest) = some ([], rest) := by
  simp only [readUntil, if_true]

theorem Spelling.readUntil_spelled (h : Spelling piece word) (hstop : ∀ b, (word b).head? ≠ some stop)
    (rest : List α) {fuel : Nat} {s : List β} (hfuel : s.length < fuel) :
    readUntil stop piece fuel (s.flatMap word ++ stop :: rest) = some (s, rest) := by
  induction s generalizing fuel with
  | nil =>
      obtain ⟨fuel, rfl⟩ : ∃ n, fuel = n + 1 := ⟨fuel - 1, by omega⟩
      exact readUntil_stop fuel rest
  | cons b s ih =>
      obtain ⟨fuel, rfl⟩ : ∃ n, fuel = n + 1 := ⟨fuel - 1, by omega⟩
      have hhead : (word b ++ (s.flatMap word ++ stop :: rest)).head? ≠ some stop := by
        rw [List.head?_append_of_ne_nil _ (h.ne_nil b)]
        exact hstop b
      rw [List.flatMap_cons, List.append_assoc,
        readUntil_cons (h.append_ne_nil b _) hhead (h.reads b _), ih (Nat.lt_of_succ_lt_succ hfuel)]
      rfl

/-- Reading to the closing letter undoes a spelling whose words do not begin
with it. -/
theorem Spelling.readTo_spelled (h : Spelling piece word)
    (hstop : ∀ b, (word b).head? ≠ some stop) (s : List β) (rest : List α) :
    readTo stop piece (s.flatMap word ++ stop :: rest) = some (s, rest) := by
  apply h.readUntil_spelled hstop
  have hlen := h.length_le s
  rw [List.length_append, List.length_cons]
  omega

end Coding
