/-
JSON texts as a parser reads them, byte by byte.

# The reader

`readJson` is the grammar: values with white space between their parts,
strings with the escapes, numbers kept as their texts, and nothing behind
the value. A number ends where no letter of a number follows, so what
follows a value matters (`NumberEnds`).

# The writer

A text that is put together from pieces that are read as they should be is
read as the whole (`writes_array`, `writes_object`), and so is a string
that is escaped by any words the grammar has (`IsJsonWord`): which letters
are escaped, and how, is the writer's choice.
-/
import Mathlib.Data.List.Forall2
import Mathlib.Data.List.TakeWhile
import GDrive.Coding.Url

namespace Coding

inductive JsonValue
  | null
  | bool (b : Bool)
  | number (text : List UInt8)
  | string (s : List UInt8)
  | array (items : List JsonValue)
  | object (members : List (List UInt8 × JsonValue))

-- ===================================================================== strings

/-- The letter of a short escape. -/
def shortEscape (e : UInt8) : Option UInt8 :=
  if e = 34 ∨ e = 92 ∨ e = 47 then some e
  else if e = 98 then some 8
  else if e = 102 then some 12
  else if e = 110 then some 10
  else if e = 114 then some 13
  else if e = 116 then some 9
  else none

/-- Four hexadecimal digits. -/
def readHex4 : List UInt8 → Option (Nat × List UInt8)
  | a :: b :: c :: d :: rest =>
      match hexValue a, hexValue b, hexValue c, hexValue d with
      | some w, some x, some y, some z => some (4096 * w + 256 * x + 16 * y + z, rest)
      | _, _, _, _ => none
  | _ => none

/-- A code point in UTF-8. -/
def utf8 (n : Nat) : List UInt8 :=
  if n < 0x80 then [UInt8.ofNat n]
  else if n < 0x800 then [UInt8.ofNat (0xc0 + n / 64), UInt8.ofNat (0x80 + n % 64)]
  else if n < 0x10000 then
    [UInt8.ofNat (0xe0 + n / 4096), UInt8.ofNat (0x80 + n / 64 % 64), UInt8.ofNat (0x80 + n % 64)]
  else
    [UInt8.ofNat (0xf0 + n / 262144), UInt8.ofNat (0x80 + n / 4096 % 64),
      UInt8.ofNat (0x80 + n / 64 % 64), UInt8.ofNat (0x80 + n % 64)]

/-- What stands behind `\u`: a code point, or the two halves of one. -/
def readCodePoint (s : List UInt8) : Option (List UInt8 × List UInt8) :=
  match readHex4 s with
  | none => none
  | some (high, rest) =>
      if high < 0xd800 ∨ 0xe000 ≤ high then some (utf8 high, rest)
      else if 0xdc00 ≤ high then none
      else
        match rest with
        | 92 :: 117 :: rest' =>
            match readHex4 rest' with
            | none => none
            | some (low, rest'') =>
                if 0xdc00 ≤ low ∧ low < 0xe000 then
                  some (utf8 (0x10000 + 1024 * (high - 0xd800) + (low - 0xdc00)), rest'')
                else none
        | _ => none

/-- One letter of a string, up to its closing quote. -/
def jsonPiece : List UInt8 → Option (List UInt8 × List UInt8)
  | [] => none
  | c :: rest =>
      if c = 92 then
        match rest with
        | [] => none
        | e :: rest' =>
            if e = 117 then readCodePoint rest'
            else (shortEscape e).map fun letter => ([letter], rest')
      else if c.toNat < 32 then none
      else some ([c], rest)

-- ===================================================================== numbers

def isDecimalDigit (c : UInt8) : Bool := 48 ≤ c.toNat && c.toNat ≤ 57

/-- The letters of a number. -/
def isNumberChar (c : UInt8) : Bool :=
  isDecimalDigit c || c == 45 || c == 43 || c == 46 || c == 101 || c == 69

/-- `e`, a sign and digits, or nothing. -/
def isExponent : List UInt8 → Bool
  | [] => true
  | c :: rest =>
      let digits :=
        match rest with
        | 43 :: rest' => rest'
        | 45 :: rest' => rest'
        | _ => rest
      (c == 101 || c == 69) && !digits.isEmpty && digits.all isDecimalDigit

/-- What follows the digits before the point. -/
def isFraction : List UInt8 → Bool
  | 46 :: rest =>
      !(rest.takeWhile isDecimalDigit).isEmpty && isExponent (rest.dropWhile isDecimalDigit)
  | s => isExponent s

/-- Is there a minus sign, and what follows it. -/
def splitMinus (text : List UInt8) : Bool × List UInt8 :=
  if text.head? = some 45 then (true, text.tail) else (false, text)

def isJsonNumber (text : List UInt8) : Bool :=
  let s := (splitMinus text).2
  let whole := s.takeWhile isDecimalDigit
  !whole.isEmpty && (whole.head? != some 48 || whole.length == 1)
    && isFraction (s.dropWhile isDecimalDigit)

-- ====================================================================== values

def isJsonSpace (c : UInt8) : Bool := c == 32 || c == 9 || c == 10 || c == 13

def skipSpace (s : List UInt8) : List UInt8 := s.dropWhile isJsonSpace

section Items

variable {α : Type} (item : List UInt8 → Option (α × List UInt8)) (close : UInt8)

/-- Items with commas between them, at most so many, and the closing
letter. -/
def jsonItems : Nat → List UInt8 → Option (List α × List UInt8)
  | 0, _ => none
  | fuel + 1, s =>
      match item s with
      | none => none
      | some (a, rest) =>
          match skipSpace rest with
          | [] => none
          | c :: rest' =>
              if c = 44 then (jsonItems fuel rest').map fun r => (a :: r.1, r.2)
              else if c = close then some ([a], rest')
              else none

/-- What stands behind an opening bracket. -/
def bracketed (s : List UInt8) : Option (List α × List UInt8) :=
  match skipSpace s with
  | [] => none
  | c :: rest => if c = close then some ([], rest) else jsonItems item close s.length (c :: rest)

/-- A name, a colon and a value. -/
def jsonMember (s : List UInt8) : Option ((List UInt8 × α) × List UInt8) :=
  match skipSpace s with
  | [] => none
  | c :: rest =>
      if c = 34 then
        match readTo 34 jsonPiece rest with
        | none => none
        | some (name, rest') =>
            match skipSpace rest' with
            | [] => none
            | d :: rest'' =>
                if d = 58 then (item rest'').map fun r => ((name, r.1), r.2) else none
      else none

end Items

/-- A word of the grammar. -/
def jsonLiteral (s : List UInt8) : Option (JsonValue × List UInt8) :=
  if [116, 114, 117, 101].isPrefixOf s then some (.bool true, s.drop 4)
  else if [102, 97, 108, 115, 101].isPrefixOf s then some (.bool false, s.drop 5)
  else if [110, 117, 108, 108].isPrefixOf s then some (.null, s.drop 4)
  else none

/-- A value, nested at most so deep. -/
def jsonValue : Nat → List UInt8 → Option (JsonValue × List UInt8)
  | 0, _ => none
  | fuel + 1, s =>
      match skipSpace s with
      | [] => none
      | c :: rest =>
          if c = 34 then (readTo 34 jsonPiece rest).map fun r => (.string r.1, r.2)
          else if c = 91 then (bracketed (jsonValue fuel) 93 rest).map fun r => (.array r.1, r.2)
          else if c = 123 then
            (bracketed (jsonMember (jsonValue fuel)) 125 rest).map fun r => (.object r.1, r.2)
          else if isNumberChar c then
            let text := (c :: rest).takeWhile isNumberChar
            if isJsonNumber text then some (.number text, (c :: rest).dropWhile isNumberChar)
            else none
          else jsonLiteral (c :: rest)

/-- A whole text. -/
def readJson (s : List UInt8) : Option JsonValue :=
  match jsonValue (s.length + 1) s with
  | none => none
  | some (v, rest) => if (skipSpace rest).isEmpty then some v else none

/-- The integer that a number's text denotes, if it is one. -/
def intOfNumber (text : List UInt8) : Option Int :=
  let digits := (splitMinus text).2
  let value : Nat := digits.foldl (fun v c => v * 10 + (c.toNat - 48)) 0
  if digits.isEmpty || !digits.all isDecimalDigit then none
  else some (if (splitMinus text).1 then -(value : Int) else value)

-- ============================================================= written strings

/-- A word that a letter of a string may be written as: itself, a short
escape, or a code point below 128. -/
def IsJsonWord (c : UInt8) (w : List UInt8) : Prop :=
  (32 ≤ c.toNat ∧ c ≠ 34 ∧ c ≠ 92 ∧ w = [c]) ∨
    (∃ e, e ≠ 117 ∧ shortEscape e = some c ∧ w = [92, e]) ∨
    ∃ a b x y, hexValue a = some x ∧ hexValue b = some y ∧ x < 8 ∧ c = UInt8.ofNat (16 * x + y) ∧
      w = [92, 117, 48, 48, a, b]

variable {word : UInt8 → List UInt8}

theorem hexValue_lt {c : UInt8} {x : Nat} (h : hexValue c = some x) : x < 16 := by
  unfold hexValue at h
  split at h
  · cases h
    omega
  · split at h
    · cases h
      omega
    · split at h
      · cases h
        omega
      · cases h

theorem jsonPiece_word {c : UInt8} {w : List UInt8} (h : IsJsonWord c w) (rest : List UInt8) :
    jsonPiece (w ++ rest) = some ([c], rest) := by
  rcases h with ⟨hc, -, hback, rfl⟩ | ⟨e, he, hshort, rfl⟩ | ⟨a, b, x, y, ha, hb, hx, rfl, rfl⟩
  · simp only [List.cons_append, List.nil_append, jsonPiece, if_neg hback, if_neg (Nat.not_lt.mpr hc)]
  · simp only [List.cons_append, List.nil_append, jsonPiece, if_true, if_neg he, hshort]
    rfl
  · have hzero : hexValue 48 = some 0 := by decide
    have hy := hexValue_lt hb
    have hread : readHex4 (48 :: 48 :: a :: b :: rest) = some (16 * x + y, rest) := by
      simp only [readHex4, hzero, ha, hb]
      simp
    simp only [List.cons_append, List.nil_append, jsonPiece, if_true, readCodePoint, hread]
    rw [if_pos (.inl (by omega)), utf8, if_pos (by omega)]

/-- Letters that are written by words of the grammar are read back. -/
theorem json_spelling (h : ∀ c, IsJsonWord c (word c)) : Spelling jsonPiece word where
  ne_nil := by
    intro c
    rcases h c with ⟨-, -, -, hw⟩ | ⟨_, -, -, hw⟩ | ⟨_, _, _, _, -, -, -, -, hw⟩ <;>
      · rw [hw]
        exact List.cons_ne_nil _ _
  reads := fun c rest => jsonPiece_word (h c) rest

theorem json_open (h : ∀ c, IsJsonWord c (word c)) (c : UInt8) : (word c).head? ≠ some 34 := by
  rcases h c with ⟨-, hquote, -, hw⟩ | ⟨_, -, -, hw⟩ | ⟨_, _, _, _, -, -, -, -, hw⟩
  · rw [hw]
    exact fun heq => hquote (Option.some.inj heq)
  · rw [hw]
    exact fun heq => absurd (Option.some.inj heq) (by decide)
  · rw [hw]
    exact fun heq => absurd (Option.some.inj heq) (by decide)

/-- A string in its quotes. -/
def quotedString (word : UInt8 → List UInt8) (s : List UInt8) : List UInt8 :=
  34 :: (s.flatMap word ++ [34])

theorem readTo_quoted (h : ∀ c, IsJsonWord c (word c)) (s rest : List UInt8) :
    readTo 34 jsonPiece (s.flatMap word ++ 34 :: rest) = some (s, rest) :=
  (json_spelling h).readTo_spelled (json_open h) s rest

-- ============================================================== written values

/-- Where a number ends. -/
def NumberEnds (rest : List UInt8) : Prop :=
  ∀ c, rest.head? = some c → isNumberChar c = false

theorem numberEnds_nil : NumberEnds [] := by
  intro c hc
  cases hc

theorem numberEnds_cons {c : UInt8} (hc : isNumberChar c = false) (rest : List UInt8) :
    NumberEnds (c :: rest) := by
  intro d hd
  rw [← Option.some.inj hd]
  exact hc

theorem skipSpace_cons {c : UInt8} (hc : isJsonSpace c = false) (rest : List UInt8) :
    skipSpace (c :: rest) = c :: rest :=
  List.dropWhile_cons_of_neg (by rw [hc]; exact Bool.false_ne_true)

/-- A text that `item` reads as `a`, wherever a number ends behind it. -/
structure ItemText {α : Type} (item : List UInt8 → Option (α × List UInt8)) (text : List UInt8)
    (a : α) : Prop where
  opens : ∃ c rest, text = c :: rest ∧ isJsonSpace c = false ∧ c ≠ 93 ∧ c ≠ 125
  reads : ∀ rest, NumberEnds rest → item (text ++ rest) = some (a, rest)

section Items

variable {α : Type} {item : List UInt8 → Option (α × List UInt8)} {close : UInt8}

/-- A closing bracket or brace. -/
def IsClosing (close : UInt8) : Prop := close = 93 ∨ close = 125

theorem IsClosing.spec (h : IsClosing close) :
    close ≠ 44 ∧ isJsonSpace close = false ∧ isNumberChar close = false := by
  rcases h with rfl | rfl
  · decide
  · decide

theorem jsonItems_written {texts : List (List UInt8)} {values : List α} (hclose : IsClosing close)
    (h : List.Forall₂ (ItemText item) texts values) (hne : texts ≠ []) {fuel : Nat}
    (hfuel : texts.length ≤ fuel) (rest : List UInt8) :
    jsonItems item close fuel ([44].intercalate texts ++ close :: rest) = some (values, rest) := by
  obtain ⟨hcomma, hspace, hnumber⟩ := hclose.spec
  induction h generalizing fuel with
  | nil => exact absurd rfl hne
  | @cons text a texts values ht htexts ih =>
      obtain ⟨fuel, rfl⟩ : ∃ n, fuel = n + 1 := ⟨fuel - 1, by simp at hfuel; omega⟩
      cases htexts with
      | nil =>
          rw [List.intercalate_singleton]
          simp only [jsonItems, ht.reads _ (numberEnds_cons hnumber rest),
            skipSpace_cons hspace, if_neg hcomma, if_true]
      | @cons text' a' texts values ht' htexts' =>
          rw [List.intercalate_cons_cons, List.append_assoc, List.append_assoc]
          have hrest := ih (List.cons_ne_nil _ _) (Nat.le_of_succ_le_succ hfuel)
          have hread := ht.reads _ (numberEnds_cons (c := 44) (by decide)
            ([44].intercalate (text' :: texts) ++ close :: rest))
          simp only [List.cons_append, List.nil_append, jsonItems, hread,
            skipSpace_cons (c := 44) (by decide), if_true, hrest]
          rfl

theorem length_le_intercalate (texts : List (List UInt8)) :
    texts.length ≤ ([44].intercalate texts).length + 1 := by
  induction texts with
  | nil => exact Nat.zero_le _
  | cons t texts ih =>
      cases texts with
      | nil =>
          rw [List.intercalate_singleton]
          exact Nat.le_add_left _ _
      | cons t' texts =>
          rw [List.intercalate_cons_cons]
          simp only [List.length_append, List.length_cons, List.length_nil] at ih ⊢
          omega

/-- What stands in brackets is read as the items. -/
theorem bracketed_written {texts : List (List UInt8)} {values : List α} (hclose : IsClosing close)
    (h : List.Forall₂ (ItemText item) texts values) (rest : List UInt8) :
    bracketed item close ([44].intercalate texts ++ close :: rest) = some (values, rest) := by
  obtain ⟨-, hspace, -⟩ := hclose.spec
  cases h with
  | nil =>
      rw [List.intercalate_nil, List.nil_append]
      simp only [bracketed, skipSpace_cons hspace, if_true]
  | @cons text a texts values ht htexts =>
      have hfuel : (text :: texts).length ≤
          ([44].intercalate (text :: texts) ++ close :: rest).length := by
        have hlen := length_le_intercalate (text :: texts)
        simp only [List.length_append, List.length_cons] at hlen ⊢
        omega
      have hitems := jsonItems_written hclose (.cons ht htexts) (List.cons_ne_nil _ _) hfuel rest
      obtain ⟨c, t, rfl, hc, hbracket, hbrace⟩ := ht.opens
      have hopen : ∃ t', [44].intercalate ((c :: t) :: texts) ++ close :: rest = c :: t' := by
        cases texts with
        | nil => exact ⟨_, by rw [List.intercalate_singleton]; rfl⟩
        | cons t' texts => exact ⟨_, by rw [List.intercalate_cons_cons]; rfl⟩
      obtain ⟨t', ht'⟩ := hopen
      have hcne : c ≠ close := by
        rcases hclose with rfl | rfl
        · exact hbracket
        · exact hbrace
      rw [ht'] at hitems ⊢
      simp only [bracketed, skipSpace_cons hc, if_neg hcne]
      exact hitems

end Items

/-- A text of a value that is nested at most `depth` deep. -/
def Writes (depth : Nat) (text : List UInt8) (v : JsonValue) : Prop :=
  ∀ fuel, depth ≤ fuel → ItemText (jsonValue fuel) text v

theorem Writes.mono {depth depth' : Nat} {text : List UInt8} {v : JsonValue}
    (h : Writes depth text v) (hle : depth ≤ depth') : Writes depth' text v := by
  intro fuel hfuel
  exact h fuel (Nat.le_trans hle hfuel)

theorem writes_string (h : ∀ c, IsJsonWord c (word c)) (s : List UInt8) :
    Writes 1 (quotedString word s) (.string s) := by
  intro fuel hfuel
  obtain ⟨fuel, rfl⟩ : ∃ n, fuel = n + 1 := ⟨fuel - 1, by omega⟩
  refine ⟨⟨34, _, rfl, by decide, by decide, by decide⟩, ?_⟩
  intro rest _
  unfold quotedString
  rw [List.cons_append, List.append_assoc, List.singleton_append]
  simp only [jsonValue, skipSpace_cons (c := 34) (by decide), if_true, readTo_quoted h]
  rfl

theorem writes_number {text : List UInt8} (hnumber : isJsonNumber text = true)
    (hall : text.all isNumberChar = true) : Writes 1 text (.number text) := by
  intro fuel hfuel
  obtain ⟨fuel, rfl⟩ : ∃ n, fuel = n + 1 := ⟨fuel - 1, by omega⟩
  cases text with
  | nil => cases hnumber
  | cons c t =>
      have hc : isNumberChar c = true := by
        rw [List.all_cons, Bool.and_eq_true] at hall
        exact hall.1
      have hne : isJsonSpace c = false ∧ c ≠ 34 ∧ c ≠ 91 ∧ c ≠ 93 ∧ c ≠ 123 ∧ c ≠ 125 := by
        refine ⟨?_, ?_, ?_, ?_, ?_, ?_⟩
        · rw [Bool.eq_false_iff]
          intro hspace
          unfold isJsonSpace at hspace
          simp only [Bool.or_eq_true, beq_iff_eq] at hspace
          rcases hspace with ((rfl | rfl) | rfl) | rfl <;> exact absurd hc (by decide)
        all_goals
          intro heq
          rw [heq] at hc
          exact absurd hc (by decide)
      obtain ⟨hspace, hquote, hbracket, hbracket', hbrace, hbrace'⟩ := hne
      refine ⟨⟨c, t, rfl, hspace, hbracket', hbrace'⟩, ?_⟩
      intro rest hends
      have hspan : (c :: t ++ rest).takeWhile isNumberChar = c :: t ∧
          (c :: t ++ rest).dropWhile isNumberChar = rest := by
        have hmem := List.all_eq_true.mp hall
        cases rest with
        | nil =>
            rw [List.append_nil]
            exact ⟨List.takeWhile_eq_self_iff.mpr hmem, List.dropWhile_eq_nil_iff.mpr hmem⟩
        | cons d rest =>
            have hd := hends d rfl
            rw [List.takeWhile_append_of_pos hmem, List.dropWhile_append_of_pos hmem,
              List.takeWhile_cons_of_neg (by simp [hd]), List.dropWhile_cons_of_neg (by simp [hd])]
            exact ⟨List.append_nil _, rfl⟩
      rw [List.cons_append] at hspan ⊢
      simp only [jsonValue, skipSpace_cons hspace, if_neg hquote, if_neg hbracket, if_neg hbrace, hc,
        if_true, hspan.1, hspan.2, hnumber]

theorem writes_array {depth : Nat} {texts : List (List UInt8)} {values : List JsonValue}
    (h : List.Forall₂ (Writes depth) texts values) :
    Writes (depth + 1) (91 :: ([44].intercalate texts ++ [93])) (.array values) := by
  intro fuel hfuel
  obtain ⟨fuel, rfl⟩ : ∃ n, fuel = n + 1 := ⟨fuel - 1, by omega⟩
  refine ⟨⟨91, _, rfl, by decide, by decide, by decide⟩, ?_⟩
  intro rest _
  have hitems : List.Forall₂ (ItemText (jsonValue fuel)) texts values :=
    h.imp fun _ _ hw => hw fuel (by omega)
  rw [List.cons_append, List.append_assoc, List.singleton_append]
  simp only [jsonValue, skipSpace_cons (c := 91) (by decide), bracketed_written (.inl rfl) hitems]
  rfl

/-- A text of a member. -/
def WritesMember (depth : Nat) (text : List UInt8) (member : List UInt8 × JsonValue) : Prop :=
  ∀ fuel, depth ≤ fuel → ItemText (jsonMember (jsonValue fuel)) text member

theorem writes_member (h : ∀ c, IsJsonWord c (word c)) {depth : Nat} {text : List UInt8}
    {v : JsonValue} (hv : Writes depth text v) (name : List UInt8) :
    WritesMember depth (quotedString word name ++ 58 :: text) (name, v) := by
  intro fuel hfuel
  refine ⟨⟨34, _, rfl, by decide, by decide, by decide⟩, ?_⟩
  intro rest hends
  have hvalue := (hv fuel hfuel).reads rest hends
  unfold quotedString
  simp only [List.cons_append, List.append_assoc, List.nil_append, jsonMember,
    skipSpace_cons (c := 34) (by decide), if_true, readTo_quoted h,
    skipSpace_cons (c := 58) (by decide), hvalue]
  rfl

/-- A member whose name needs no escape. -/
def plainMember (name text : List UInt8) : List UInt8 := 34 :: (name ++ 34 :: 58 :: text)

theorem writes_plainMember (h : ∀ c, IsJsonWord c (word c)) {depth : Nat} {text : List UInt8}
    {v : JsonValue} (hv : Writes depth text v) {name : List UInt8}
    (hname : ∀ c ∈ name, word c = [c]) : WritesMember depth (plainMember name text) (name, v) := by
  have hself : name.flatMap word = name := by
    induction name with
    | nil => rfl
    | cons c name ih =>
        rw [List.flatMap_cons, hname c List.mem_cons_self,
          ih fun d hd => hname d (List.mem_cons_of_mem _ hd)]
        rfl
  have htext : plainMember name text = quotedString word name ++ 58 :: text := by
    unfold plainMember quotedString
    rw [hself]
    simp
  rw [htext]
  exact writes_member h hv name

theorem writes_object {depth : Nat} {texts : List (List UInt8)}
    {members : List (List UInt8 × JsonValue)} (h : List.Forall₂ (WritesMember depth) texts members) :
    Writes (depth + 1) (123 :: ([44].intercalate texts ++ [125])) (.object members) := by
  intro fuel hfuel
  obtain ⟨fuel, rfl⟩ : ∃ n, fuel = n + 1 := ⟨fuel - 1, by omega⟩
  refine ⟨⟨123, _, rfl, by decide, by decide, by decide⟩, ?_⟩
  intro rest _
  have hitems : List.Forall₂ (ItemText (jsonMember (jsonValue fuel))) texts members :=
    h.imp fun _ _ hw => hw fuel (by omega)
  rw [List.cons_append, List.append_assoc, List.singleton_append]
  simp only [jsonValue, skipSpace_cons (c := 123) (by decide),
    bracketed_written (.inr rfl) hitems]
  rfl

/-- A whole text; a value is not nested deeper than its text is long. -/
theorem readJson_written {depth : Nat} {text : List UInt8} {v : JsonValue}
    (h : Writes depth text v) (hdepth : depth ≤ text.length + 1) : readJson text = some v := by
  have hread := (h (text.length + 1) hdepth).reads [] numberEnds_nil
  rw [List.append_nil] at hread
  simp only [readJson, hread]
  rfl

-- ============================================================== whole values

section Writer

variable (word : UInt8 → List UInt8)

mutual
/-- The text of a value, without white space. -/
def writeJson : JsonValue → List UInt8
  | .null => [110, 117, 108, 108]
  | .bool true => [116, 114, 117, 101]
  | .bool false => [102, 97, 108, 115, 101]
  | .number text => text
  | .string s => quotedString word s
  | .array items => 91 :: ([44].intercalate (writeItems items) ++ [93])
  | .object members => 123 :: ([44].intercalate (writeMembers members) ++ [125])

def writeItems : List JsonValue → List (List UInt8)
  | [] => []
  | v :: rest => writeJson v :: writeItems rest

def writeMembers : List (List UInt8 × JsonValue) → List (List UInt8)
  | [] => []
  | (name, v) :: rest => (quotedString word name ++ 58 :: writeJson v) :: writeMembers rest
end

end Writer

mutual
/-- The numbers in a value are numbers. -/
def JsonValue.Numeric : JsonValue → Prop
  | .number text => isJsonNumber text = true ∧ text.all isNumberChar = true
  | .array items => ItemsNumeric items
  | .object members => MembersNumeric members
  | .null | .bool _ | .string _ => True

def ItemsNumeric : List JsonValue → Prop
  | [] => True
  | v :: rest => v.Numeric ∧ ItemsNumeric rest

def MembersNumeric : List (List UInt8 × JsonValue) → Prop
  | [] => True
  | (_, v) :: rest => v.Numeric ∧ MembersNumeric rest
end

theorem writes_literal {text : List UInt8} {v : JsonValue}
    (h : ∀ rest, jsonLiteral (text ++ rest) = some (v, rest))
    (hfirst : ∃ c t, text = c :: t ∧ isJsonSpace c = false ∧ c ≠ 34 ∧ c ≠ 91 ∧ c ≠ 93 ∧ c ≠ 123 ∧
      c ≠ 125 ∧ isNumberChar c = false) : Writes 1 text v := by
  intro fuel hfuel
  obtain ⟨fuel, rfl⟩ : ∃ n, fuel = n + 1 := ⟨fuel - 1, by omega⟩
  obtain ⟨c, t, rfl, hspace, hquote, hbracket, hbracket', hbrace, hbrace', hnumber⟩ := hfirst
  refine ⟨⟨c, t, rfl, hspace, hbracket', hbrace'⟩, ?_⟩
  intro rest _
  have hread := h rest
  rw [List.cons_append] at hread ⊢
  simp only [jsonValue, skipSpace_cons hspace, if_neg hquote, if_neg hbracket, if_neg hbrace, hnumber,
    Bool.false_eq_true, if_false, hread]

theorem writes_null : Writes 1 [110, 117, 108, 108] .null :=
  writes_literal (fun _ => rfl) ⟨110, _, rfl, by decide⟩

theorem writes_bool (b : Bool) :
    Writes 1 (if b then [116, 114, 117, 101] else [102, 97, 108, 115, 101]) (.bool b) := by
  cases b with
  | true => exact writes_literal (fun _ => rfl) ⟨116, _, rfl, by decide⟩
  | false => exact writes_literal (fun _ => rfl) ⟨102, _, rfl, by decide⟩

theorem length_intercalate_cons (text : List UInt8) (texts : List (List UInt8)) :
    text.length + ([44].intercalate texts).length ≤ ([44].intercalate (text :: texts)).length := by
  cases texts with
  | nil => simp
  | cons text' texts =>
      rw [List.intercalate_cons_cons]
      simp only [List.length_append]
      omega

mutual
/-- A value is nested at most as deep as its text is long. -/
theorem writes_writeJson (h : ∀ c, IsJsonWord c (word c)) :
    ∀ v : JsonValue, v.Numeric → Writes (writeJson word v).length (writeJson word v) v
  | .null, _ => writes_null.mono (by simp [writeJson])
  | .bool true, _ => (writes_bool true).mono (by simp [writeJson])
  | .bool false, _ => (writes_bool false).mono (by simp [writeJson])
  | .number text, hnumeric => by
      have hpos : 1 ≤ text.length := by
        cases text with
        | nil => exact absurd hnumeric.1 (by decide)
        | cons c text => exact Nat.le_add_left 1 _
      exact (writes_number hnumeric.1 hnumeric.2).mono hpos
  | .string s, _ => (writes_string h s).mono (Nat.le_add_left 1 _)
  | .array items, hnumeric => by
      refine (writes_array (writes_writeItems h items hnumeric _ (Nat.le_refl _))).mono ?_
      unfold writeJson
      rw [List.length_cons, List.length_append]
      omega
  | .object members, hnumeric => by
      refine (writes_object (writes_writeMembers h members hnumeric _ (Nat.le_refl _))).mono ?_
      unfold writeJson
      rw [List.length_cons, List.length_append]
      omega

theorem writes_writeItems (h : ∀ c, IsJsonWord c (word c)) :
    ∀ items : List JsonValue, ItemsNumeric items → ∀ depth,
      ([44].intercalate (writeItems word items)).length ≤ depth →
      List.Forall₂ (Writes depth) (writeItems word items) items
  | [], _, _, _ => .nil
  | v :: rest, hnumeric, depth, hdepth => by
      have hlen := length_intercalate_cons (writeJson word v) (writeItems word rest)
      unfold writeItems at hdepth ⊢
      exact .cons ((writes_writeJson h v hnumeric.1).mono (by omega))
        (writes_writeItems h rest hnumeric.2 depth (by omega))

theorem writes_writeMembers (h : ∀ c, IsJsonWord c (word c)) :
    ∀ members : List (List UInt8 × JsonValue), MembersNumeric members → ∀ depth,
      ([44].intercalate (writeMembers word members)).length ≤ depth →
      List.Forall₂ (WritesMember depth) (writeMembers word members) members
  | [], _, _, _ => .nil
  | (name, v) :: rest, hnumeric, depth, hdepth => by
      have hlen := length_intercalate_cons (quotedString word name ++ 58 :: writeJson word v)
        (writeMembers word rest)
      rw [List.length_append, List.length_cons] at hlen
      unfold writeMembers at hdepth ⊢
      exact .cons (writes_member h ((writes_writeJson h v hnumeric.1).mono (by omega)) name)
        (writes_writeMembers h rest hnumeric.2 depth (by omega))
end

/-- What is written is read back. -/
theorem readJson_writeJson (h : ∀ c, IsJsonWord c (word c)) {v : JsonValue} (hv : v.Numeric) :
    readJson (writeJson word v) = some v :=
  readJson_written (writes_writeJson h v hv) (Nat.le_add_right _ 1)

end Coding
