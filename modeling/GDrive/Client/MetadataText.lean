/-
The JSON of a request's metadata, as `Upload`, `StartResumableUpload` and
`Move` write it.

The members are concatenated by hand, with a flag for the first one. The
text begun so far is an object's without its closing brace, whichever
members are in it (`Begun`), so what is written is read back as exactly the
members that are meant.
-/
import GDrive.Client.Client
import GDrive.Coding.Json

namespace GDrive

open Coding

-- ================================================================== the source

/-- A byte in a string of a request. -/
def jsonEscapeByte (c : UInt8) : Str :=
  if c = 34 then str "\\\""
  else if c = 92 then str "\\\\"
  else if c = 10 then str "\\n"
  else if c = 13 then str "\\r"
  else if c = 9 then str "\\t"
  else if c.toNat < 32 then str "\\u00" ++ [hexDigit (c.toNat / 16), hexDigit (c.toNat % 16)]
  else [c]

/-- `JsonEscape` of gdrive_client.cpp. -/
def jsonEscape (s : Str) : Str := s.flatMap jsonEscapeByte

/-- A text that is being written, and whether the next member is the
first. -/
structure MetadataStream where
  text : Str
  first : Bool

/-- The text, with a comma unless the next member is the first. -/
def MetadataStream.comma (m : MetadataStream) : Str :=
  if m.first then m.text else m.text ++ str ","

/-- The metadata of `Upload`. -/
def uploadMetadataText (fileId parentId name contentType reservedId : Str) : Str :=
  let m : MetadataStream := ⟨str "\x7b", true⟩
  let m : MetadataStream :=
    if !name.isEmpty then ⟨m.text ++ str "\"name\":\"" ++ jsonEscape name ++ str "\"", false⟩
    else m
  let m : MetadataStream :=
    if !parentId.isEmpty && fileId.isEmpty then
      ⟨m.comma ++ str "\"parents\":[\"" ++ jsonEscape parentId ++ str "\"]", false⟩
    else m
  let m : MetadataStream :=
    if contentType = kFolderMimeType then
      ⟨m.comma ++ str "\"mimeType\":\"" ++ jsonEscape contentType ++ str "\"", false⟩
    else m
  let text :=
    if !reservedId.isEmpty && fileId.isEmpty then
      m.comma ++ str "\"id\":\"" ++ jsonEscape reservedId ++ str "\""
    else m.text
  text ++ str "\x7d"

/-- The metadata of `StartResumableUpload`. -/
def startResumableUploadMetadataText (fileId parentId name : Str) : Str :=
  let m : MetadataStream := ⟨str "\x7b", true⟩
  let m : MetadataStream :=
    if !name.isEmpty then ⟨m.text ++ str "\"name\":\"" ++ jsonEscape name ++ str "\"", false⟩
    else m
  let text :=
    if !parentId.isEmpty && fileId.isEmpty then
      m.text ++ (if m.first then [] else str ",")
        ++ str "\"parents\":[\"" ++ jsonEscape parentId ++ str "\"]"
    else m.text
  text ++ str "\x7d"

/-- The body of `Move`. -/
def moveBody (newName : Str) : Str :=
  if newName.isEmpty then str "\x7b\x7d"
  else str "\x7b\"name\":\"" ++ jsonEscape newName ++ str "\"\x7d"

-- ================================================================= the escaping

theorem hexValue_hexDigit : ∀ n < 16, hexValue (hexDigit n) = some n := by decide

/-- A byte below 128 by its code point. -/
theorem isJsonWord_control {c : UInt8} (hlt : c.toNat < 128) :
    IsJsonWord c (str "\\u00" ++ [hexDigit (c.toNat / 16), hexDigit (c.toNat % 16)]) := by
  have hvalue : c = UInt8.ofNat (16 * (c.toNat / 16) + c.toNat % 16) := by
    rw [Nat.div_add_mod]
    exact UInt8.ofNat_toNat.symm
  exact .inr (.inr ⟨_, _, _, _, hexValue_hexDigit _ (by omega), hexValue_hexDigit _ (by omega),
    by omega, hvalue, rfl⟩)

/-- A byte by its short escape. -/
theorem isJsonWord_short {c e : UInt8} (he : e ≠ 117) (h : shortEscape e = some c) :
    IsJsonWord c [92, e] := .inr (.inl ⟨e, he, h, rfl⟩)

/-- Every byte is written by a word of the grammar. -/
theorem isJsonWord_jsonEscapeByte (c : UInt8) : IsJsonWord c (jsonEscapeByte c) := by
  unfold jsonEscapeByte
  split
  · rename_i hc
    exact isJsonWord_short (e := 34) (by decide) (by rw [hc]; decide)
  split
  · rename_i hc
    exact isJsonWord_short (e := 92) (by decide) (by rw [hc]; decide)
  split
  · rename_i hc
    exact isJsonWord_short (e := 110) (by decide) (by rw [hc]; decide)
  split
  · rename_i hc
    exact isJsonWord_short (e := 114) (by decide) (by rw [hc]; decide)
  split
  · rename_i hc
    exact isJsonWord_short (e := 116) (by decide) (by rw [hc]; decide)
  split
  · rename_i hlt
    exact isJsonWord_control (by omega)
  · rename_i hquote hback _ _ _ hlt
    exact .inl ⟨Nat.not_lt.mp hlt, hquote, hback, rfl⟩

/-- A string in its quotes is read back, whatever bytes it has. -/
theorem readJson_jsonEscape (s : Str) : readJson (34 :: (jsonEscape s ++ [34])) = some (.string s) :=
  readJson_written (writes_string isJsonWord_jsonEscapeByte s) (Nat.le_add_left 1 _)

-- ================================================================== the members

/-- A member with a string. -/
def stringMember (name value : Str) : Str := plainMember name (quotedString jsonEscapeByte value)

/-- The member for the parent. -/
def parentsMember (parentId : Str) : Str :=
  plainMember (str "parents") (91 :: (quotedString jsonEscapeByte parentId ++ [93]))

theorem writes_stringMember (name : Str) (h : ∀ c ∈ name, jsonEscapeByte c = [c]) (value : Str) :
    WritesMember 2 (stringMember name value) (name, .string value) :=
  writes_plainMember isJsonWord_jsonEscapeByte
    ((writes_string isJsonWord_jsonEscapeByte value).mono (by decide)) h

theorem writes_parentsMember (parentId : Str) :
    WritesMember 2 (parentsMember parentId) (str "parents", .array [.string parentId]) := by
  have hitems : List.Forall₂ (Writes 1) [quotedString jsonEscapeByte parentId]
      [.string parentId] := .cons (writes_string isJsonWord_jsonEscapeByte parentId) .nil
  have harray := writes_array hitems
  rw [List.intercalate_singleton] at harray
  exact writes_plainMember isJsonWord_jsonEscapeByte harray (by decide +kernel)

/-- An object without its closing brace, and the flag for the next
member. -/
structure Begun (m : MetadataStream) (texts : List Str) (members : List (Str × JsonValue)) :
    Prop where
  text : m.text = 123 :: [44].intercalate texts
  first : m.first = texts.isEmpty
  written : List.Forall₂ (WritesMember 2) texts members

theorem begun_nil : Begun ⟨str "\x7b", true⟩ [] [] := ⟨rfl, rfl, .nil⟩

theorem intercalate_concat {texts : List Str} (hne : texts ≠ []) (t : Str) :
    [44].intercalate (texts ++ [t]) = [44].intercalate texts ++ 44 :: t := by
  induction texts with
  | nil => exact absurd rfl hne
  | cons t' texts ih =>
      cases texts with
      | nil =>
          rw [List.cons_append, List.nil_append, List.intercalate_cons_cons,
            List.intercalate_singleton, List.intercalate_singleton, List.append_assoc]
          rfl
      | cons t'' texts =>
          have hrest := ih (List.cons_ne_nil _ _)
          simp only [List.cons_append, List.intercalate_cons_cons] at hrest ⊢
          rw [hrest]
          simp

theorem Begun.comma {m : MetadataStream} {texts : List Str} {members : List (Str × JsonValue)}
    (h : Begun m texts members) (t : Str) :
    m.comma ++ t = 123 :: [44].intercalate (texts ++ [t]) := by
  unfold MetadataStream.comma
  rw [h.first, h.text]
  cases texts with
  | nil =>
      rw [List.nil_append, List.intercalate_singleton]
      rfl
  | cons t' texts =>
      rw [intercalate_concat (List.cons_ne_nil _ _)]
      simp [str, charByte]

/-- One more member. -/
theorem Begun.add {m : MetadataStream} {texts : List Str} {members : List (Str × JsonValue)}
    (h : Begun m texts members) {t : Str} {member : Str × JsonValue}
    (ht : WritesMember 2 t member) : Begun ⟨m.comma ++ t, false⟩ (texts ++ [t]) (members ++ [member]) where
  text := h.comma t
  first := by
    cases texts <;> rfl
  written := List.rel_append h.written (.cons ht .nil)

/-- Closed, it is read as the members. -/
theorem Begun.closed {m : MetadataStream} {texts : List Str} {members : List (Str × JsonValue)}
    (h : Begun m texts members) : readJson (m.text ++ str "\x7d") = some (.object members) := by
  have hobject := writes_object h.written
  have htext : m.text ++ str "\x7d" = 123 :: ([44].intercalate texts ++ [125]) := by
    rw [h.text]
    rfl
  rw [htext]
  apply readJson_written hobject
  simp

/-- A member that is written on a condition. -/
theorem Begun.addIf {m : MetadataStream} {texts : List Str} {members : List (Str × JsonValue)}
    (h : Begun m texts members) (c : Prop) [Decidable c] {t : Str} {member : Str × JsonValue}
    (ht : WritesMember 2 t member) :
    ∃ texts', Begun (if c then ⟨m.comma ++ t, false⟩ else m) texts'
      (members ++ if c then [member] else []) := by
  split
  · exact ⟨_, h.add ht⟩
  · rw [List.append_nil]
    exact ⟨_, h⟩

/-- The same for the last member, behind which the flag is not needed. -/
theorem Begun.closedIf {m : MetadataStream} {texts : List Str} {members : List (Str × JsonValue)}
    (h : Begun m texts members) (c : Prop) [Decidable c] {t : Str} {member : Str × JsonValue}
    (ht : WritesMember 2 t member) :
    readJson ((if c then m.comma ++ t else m.text) ++ str "\x7d") =
      some (.object (members ++ if c then [member] else [])) := by
  split
  · exact (h.add ht).closed
  · rw [List.append_nil]
    exact h.closed

-- ================================================================= the builders

/-- The members that are meant: the name if there is one, a parent if one is
given and it is a create, the type of a folder, a reserved id if one is
given and it is a create. -/
def intendedMembers (fileId parentId name : Str) (isFolder : Bool) (reservedId : Str) :
    List (Str × JsonValue) :=
  (if !name.isEmpty then [(str "name", .string name)] else [])
    ++ (if !parentId.isEmpty && fileId.isEmpty then
      [(str "parents", .array [.string parentId])] else [])
    ++ (if isFolder then [(str "mimeType", .string kFolderMimeType)] else [])
    ++ (if !reservedId.isEmpty && fileId.isEmpty then [(str "id", .string reservedId)] else [])

/-- The members of a request as the model has it. -/
def RequestMetadata.members (m : RequestMetadata) : List (Str × JsonValue) :=
  m.name.toList.map (fun name => (str "name", .string name))
    ++ m.parent.toList.map (fun parent => (str "parents", .array [.string parent]))
    ++ m.mimeType.toList.map (fun mimeType => (str "mimeType", .string mimeType))
    ++ m.id.toList.map fun id => (str "id", .string id)

theorem stringMember_text (name value start : Str) (h : start = 34 :: (name ++ [34, 58, 34])) :
    start ++ jsonEscape value ++ str "\"" = stringMember name value := by
  rw [h]
  simp [stringMember, plainMember, quotedString, jsonEscape, str, charByte]

theorem parentsMember_text (parentId : Str) :
    str "\"parents\":[\"" ++ jsonEscape parentId ++ str "\"]" = parentsMember parentId := by
  simp [parentsMember, plainMember, quotedString, jsonEscape, str, charByte]

/-- The first member needs no comma. -/
theorem begun_name (name : Str) :
    ∃ texts, Begun
      (if (!name.isEmpty) = true then
        ⟨str "\x7b" ++ str "\"name\":\"" ++ jsonEscape name ++ str "\"", false⟩
      else ⟨str "\x7b", true⟩) texts
      (if (!name.isEmpty) = true then [(str "name", .string name)] else []) := by
  have hadd := begun_nil.addIf ((!name.isEmpty) = true)
    (writes_stringMember (str "name") (by decide +kernel) name)
  rw [List.nil_append, ← stringMember_text (str "name") name (str "\"name\":\"") rfl] at hadd
  simpa only [MetadataStream.comma, if_true, List.append_assoc] using hadd

theorem readJson_uploadMetadataText (fileId parentId name contentType reservedId : Str) :
    readJson (uploadMetadataText fileId parentId name contentType reservedId) =
      some (.object (intendedMembers fileId parentId name
        (decide (contentType = kFolderMimeType)) reservedId)) := by
  obtain ⟨texts₁, h₁⟩ := begun_name name
  obtain ⟨texts₂, h₂⟩ := h₁.addIf ((!parentId.isEmpty && fileId.isEmpty) = true)
    (writes_parentsMember parentId)
  obtain ⟨texts₃, h₃⟩ := h₂.addIf (contentType = kFolderMimeType)
    (writes_stringMember (str "mimeType") (by decide +kernel) contentType)
  have hread := h₃.closedIf ((!reservedId.isEmpty && fileId.isEmpty) = true)
    (writes_stringMember (str "id") (by decide +kernel) reservedId)
  rw [← parentsMember_text, ← stringMember_text (str "mimeType") contentType
      (str "\"mimeType\":\"") rfl,
    ← stringMember_text (str "id") reservedId (str "\"id\":\"") rfl] at hread
  have hfolder : (if contentType = kFolderMimeType then
      [(str "mimeType", JsonValue.string contentType)] else []) =
      if contentType = kFolderMimeType then [(str "mimeType", .string kFolderMimeType)] else [] := by
    split
    · rename_i hc
      rw [hc]
    · rfl
  rw [hfolder] at hread
  unfold uploadMetadataText intendedMembers
  simp only [List.append_assoc, decide_eq_true_eq] at hread ⊢
  exact hread

theorem readJson_startResumableUploadMetadataText (fileId parentId name : Str) :
    readJson (startResumableUploadMetadataText fileId parentId name) =
      some (.object (intendedMembers fileId parentId name false [])) := by
  obtain ⟨texts₁, h₁⟩ := begun_name name
  have hread := h₁.closedIf ((!parentId.isEmpty && fileId.isEmpty) = true)
    (writes_parentsMember parentId)
  rw [← parentsMember_text] at hread
  have hcomma : ∀ (m : MetadataStream) (t : Str),
      m.text ++ ((if m.first then [] else str ",") ++ t) = m.comma ++ t := by
    intro m t
    unfold MetadataStream.comma
    cases m.first <;> simp
  unfold startResumableUploadMetadataText intendedMembers
  simp only [List.append_assoc, hcomma, List.isEmpty_nil, Bool.not_true, Bool.false_and,
    Bool.false_eq_true, if_false, List.append_nil] at hread ⊢
  exact hread

theorem readJson_moveBody (newName : Str) :
    readJson (moveBody newName) = some (.object (intendedMembers [] [] newName false [])) := by
  obtain ⟨texts₁, h₁⟩ := begun_name newName
  have hread := h₁.closed
  unfold moveBody intendedMembers
  cases hname : newName.isEmpty with
  | true =>
      rw [hname] at hread
      exact hread
  | false =>
      rw [hname] at hread
      simpa [str, charByte] using hread

/-- The metadata of every request is an object with exactly the members that
are meant, whatever the strings are, and a string is read back from its
escaped text. -/
theorem request_metadata_is_read_back (fileId parentId name contentType reservedId : Str) :
    readJson (uploadMetadataText fileId parentId name contentType reservedId) =
        some (.object (intendedMembers fileId parentId name
          (decide (contentType = kFolderMimeType)) reservedId)) ∧
      readJson (startResumableUploadMetadataText fileId parentId name) =
        some (.object (intendedMembers fileId parentId name false [])) ∧
      readJson (moveBody name) = some (.object (intendedMembers [] [] name false [])) ∧
      ∀ s, readJson (34 :: (jsonEscape s ++ [34])) = some (.string s) :=
  ⟨readJson_uploadMetadataText fileId parentId name contentType reservedId,
    readJson_startResumableUploadMetadataText fileId parentId name, readJson_moveBody name,
    readJson_jsonEscape⟩

end GDrive
