/-
picojson: what the code relies on, and a library that keeps it.

An object is a map from names to values, in the order of the names; the code
finds members by their names. So a value that went through a text is the same
value in that its members are found again (`Json.Same`), whatever their order
was before.
-/
import GDrive.Client.MetadataText

namespace GDrive

open Coding

-- ==================================================================== the law

/-- Values that no look into them can tell apart: an object's members are
found by their names, in whatever order they come. -/
inductive Json.Same : Json → Json → Prop
  | null : Same .null .null
  | bool (b : Bool) : Same (.bool b) (.bool b)
  | number : Same .number .number
  | string (s : Str) : Same (.string s) (.string s)
  | array {xs ys : List Json} : List.Forall₂ Same xs ys → Same (.array xs) (.array ys)
  | object {xs ys : List (Str × Json)} :
      (∀ key, Option.Rel Same (xs.lookup key) (ys.lookup key)) → Same (.object xs) (.object ys)

/-- Parsing undoes serialising. -/
def Picojson.RoundTrips (pj : Picojson) : Prop :=
  ∀ v : Json, ∃ v', pj.parse (pj.serialize v) = some v' ∧ v.Same v'

theorem Json.Same.lookup_string {xs ys : List (Str × Json)} {key s : Str}
    (h : ∀ key, Option.Rel Json.Same (xs.lookup key) (ys.lookup key))
    (hkey : xs.lookup key = some (.string s)) : Json.field ys key = some (.string s) := by
  have hrel := h key
  rw [hkey] at hrel
  unfold Json.field
  generalize ys.lookup key = found at hrel ⊢
  cases hrel with
  | some hsame =>
      cases hsame
      rfl

theorem Json.Same.lookup_none {xs ys : List (Str × Json)} {key : Str}
    (h : ∀ key, Option.Rel Json.Same (xs.lookup key) (ys.lookup key))
    (hkey : xs.lookup key = none) : Json.field ys key = none := by
  have hrel := h key
  rw [hkey] at hrel
  unfold Json.field
  generalize ys.lookup key = found at hrel ⊢
  cases hrel
  rfl

theorem getString_of_field {fields : List (Str × Json)} {key s : Str}
    (h : Json.field fields key = some (.string s)) : getString fields key = some s := by
  rw [getString, h]

-- ================================================================ a library's texts

/-- A letter of a string as the library writes it. -/
def picojsonByte (c : UInt8) : Str :=
  if c = 47 then str "\\/"
  else if c = 8 then str "\\b"
  else if c = 12 then str "\\f"
  else if c = 127 then str "\\u007f"
  else jsonEscapeByte c

theorem isJsonWord_picojsonByte (c : UInt8) : IsJsonWord c (picojsonByte c) := by
  unfold picojsonByte
  split
  · rename_i hc
    exact isJsonWord_short (e := 47) (by decide) (by rw [hc]; decide)
  split
  · rename_i hc
    exact isJsonWord_short (e := 98) (by decide) (by rw [hc]; decide)
  split
  · rename_i hc
    exact isJsonWord_short (e := 102) (by decide) (by rw [hc]; decide)
  split
  · rename_i hc
    rw [hc]
    exact isJsonWord_control (c := 127) (by decide)
  · exact isJsonWord_jsonEscapeByte c

/-- `obj[key] = value` of a map that is kept in the order of its keys. -/
def setMember (key : Str) (value : JsonValue) : List (Str × JsonValue) → List (Str × JsonValue)
  | [] => [(key, value)]
  | (key', value') :: rest =>
      if key = key' then (key, value) :: rest
      else if key < key' then (key, value) :: (key', value') :: rest
      else (key', value') :: setMember key value rest

mutual
def Json.toValue : Json → JsonValue
  | .null => .null
  | .bool b => .bool b
  | .number => .number (str "0")
  | .string s => .string s
  | .array xs => .array (toValues xs)
  | .object fields => .object (toMembers fields)

def toValues : List Json → List JsonValue
  | [] => []
  | x :: rest => x.toValue :: toValues rest

def toMembers : List (Str × Json) → List (Str × JsonValue)
  | [] => []
  | (key, x) :: rest => setMember key x.toValue (toMembers rest)
end

mutual
def ofValue : JsonValue → Json
  | .null => .null
  | .bool b => .bool b
  | .number _ => .number
  | .string s => .string s
  | .array items => .array (ofValues items)
  | .object members => .object (ofMembers members)

def ofValues : List JsonValue → List Json
  | [] => []
  | v :: rest => ofValue v :: ofValues rest

def ofMembers : List (Str × JsonValue) → List (Str × Json)
  | [] => []
  | (key, v) :: rest => (key, ofValue v) :: ofMembers rest
end

/-- A library that reads and writes JSON. -/
def textJson : Picojson where
  parse body := (readJson body).map ofValue
  serialize v := writeJson picojsonByte v.toValue

theorem lookup_setMember (key key' : Str) (value : JsonValue) (members : List (Str × JsonValue)) :
    (ofMembers (setMember key value members)).lookup key' =
      if key' = key then some (ofValue value) else (ofMembers members).lookup key' := by
  induction members with
  | nil =>
      simp only [setMember, ofMembers, List.lookup_cons, List.lookup_nil]
      split <;> simp_all
  | cons member rest ih =>
      obtain ⟨other, value'⟩ := member
      unfold setMember
      split
      · rename_i heq
        subst heq
        simp only [ofMembers, List.lookup_cons]
        split <;> simp_all
      · rename_i hne
        split
        · simp only [ofMembers, List.lookup_cons]
          split <;> simp_all
        · simp only [ofMembers, List.lookup_cons, ih]
          split
          · rename_i heq
            have : key' = other := by simpa using heq
            rw [if_neg (by rw [this]; exact Ne.symm hne)]
          · rfl

mutual
theorem Json.same_ofValue : ∀ v : Json, v.Same (ofValue v.toValue)
  | .null => .null
  | .bool b => .bool b
  | .number => .number
  | .string s => .string s
  | .array xs => .array (same_ofValues xs)
  | .object fields => .object (same_ofMembers fields)

theorem same_ofValues : ∀ xs : List Json, List.Forall₂ Json.Same xs (ofValues (toValues xs))
  | [] => .nil
  | x :: rest => .cons x.same_ofValue (same_ofValues rest)

theorem same_ofMembers : ∀ (fields : List (Str × Json)) (key : Str),
    Option.Rel Json.Same (fields.lookup key) ((ofMembers (toMembers fields)).lookup key)
  | [], _ => .none
  | (key', x) :: rest, key => by
      unfold toMembers
      rw [lookup_setMember, List.lookup_cons]
      by_cases heq : key = key'
      · rw [if_pos heq, heq, beq_self_eq_true]
        exact .some x.same_ofValue
      · rw [if_neg heq, beq_false_of_ne heq]
        exact same_ofMembers rest key
end

theorem membersNumeric_setMember {key : Str} {value : JsonValue} (hvalue : value.Numeric)
    {members : List (Str × JsonValue)} (h : MembersNumeric members) :
    MembersNumeric (setMember key value members) := by
  induction members with
  | nil => exact ⟨hvalue, trivial⟩
  | cons member rest ih =>
      unfold setMember
      split
      · exact ⟨hvalue, h.2⟩
      · split
        · exact ⟨hvalue, h⟩
        · exact ⟨h.1, ih h.2⟩

mutual
theorem Json.numeric_toValue : ∀ v : Json, v.toValue.Numeric
  | .null => trivial
  | .bool _ => trivial
  | .number => by
      unfold Json.toValue JsonValue.Numeric
      decide
  | .string _ => trivial
  | .array xs => numeric_toValues xs
  | .object fields => numeric_toMembers fields

theorem numeric_toValues : ∀ xs : List Json, ItemsNumeric (toValues xs)
  | [] => trivial
  | x :: rest => ⟨x.numeric_toValue, numeric_toValues rest⟩

theorem numeric_toMembers : ∀ fields : List (Str × Json), MembersNumeric (toMembers fields)
  | [] => trivial
  | (_, x) :: rest => membersNumeric_setMember x.numeric_toValue (numeric_toMembers rest)
end

theorem textJson_parse (v : Json) : textJson.parse (textJson.serialize v) = some (ofValue v.toValue) := by
  show (readJson (writeJson picojsonByte v.toValue)).map ofValue = _
  rw [readJson_writeJson isJsonWord_picojsonByte v.numeric_toValue]
  rfl

theorem textJson_roundTrips : textJson.RoundTrips := by
  intro v
  exact ⟨ofValue v.toValue, textJson_parse v, v.same_ofValue⟩

end GDrive
