/-
A multipart body, as its reader takes it apart: every part stands between two
delimiters, a line break and the boundary, and begins with its headers.

# What may stand in a part

The delimiter begins with a letter that it has nowhere else, so two of them
cannot overlap (`dropInfix?_delimiter`); the reader finds the end of a part
where the part does not contain the delimiter. A part's headers end at its
first empty line, and they contain none (`dropInfix?_of_notMem`).
-/
import Mathlib.Data.List.Infix

namespace Coding

-- ================================================================ delimiters

section Delimiter

variable {α : Type} [BEq α] [LawfulBEq α] {x : α} {d s : List α}

end Delimiter

-- ===================================================================== the body

/-- A line break and the boundary. -/
def delimiter (boundary : List UInt8) : List UInt8 := 13 :: 10 :: 45 :: 45 :: boundary

/-- A part that can be told from what stands around it: one line of headers,
and no delimiter in what follows. -/
structure Separable (boundary : List UInt8) (part : List UInt8 × List UInt8) : Prop where
  headers : 13 ∉ part.1
  content : ¬delimiter boundary <:+: 13 :: 10 :: part.2

variable {boundary : List UInt8}

end Coding
