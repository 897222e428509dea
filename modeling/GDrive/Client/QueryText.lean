/-
The text of a listing's query, and the URL it is sent in.

Two encoders are stacked: `EscapeDriveQueryLiteral` inside the query and
`UrlEncode` around it. The query is read back as Drive reads it: words,
signs and literals in single quotes, in which a backslash stands before the
letter it protects.
-/
import GDrive.Client.Wire
import GDrive.Coding.Url

namespace GDrive

open Coding

-- ================================================================== the source

/-- The bytes that `UrlEncode` leaves alone. -/
def isUnreserved (c : UInt8) : Bool := isAlnum c || c == 45 || c == 95 || c == 46 || c == 126

def upperHexDigit (n : Nat) : UInt8 := (str "0123456789ABCDEF").getD n 0

def urlEncodeByte (c : UInt8) : Str :=
  if isUnreserved c then [c]
  else [37, upperHexDigit (c.toNat / 16), upperHexDigit (c.toNat % 16)]

def urlEncode (value : Str) : Str := value.flatMap urlEncodeByte

def escapeQueryByte (c : UInt8) : Str := if c = 92 ∨ c = 39 then [92, c] else [c]

def escapeDriveQueryLiteral (value : Str) : Str := value.flatMap escapeQueryByte

def fileFieldsMask : Str := str "id,name,mimeType,size,modifiedTime,headRevisionId"

def listFieldsMask : Str := str "nextPageToken,files(" ++ fileFieldsMask ++ str ")"

def allDrivesParams : Str := str "supportsAllDrives=true&includeItemsFromAllDrives=true"

/-- The query of `ListByName`. -/
def listByNameQuery (parentId name : Str) (requireFolder : Bool) : Str :=
  str "'" ++ parentId ++ str "' in parents and name='" ++ escapeDriveQueryLiteral name
    ++ str "' and trashed=false"
    ++ (if requireFolder then str " and mimeType='application/vnd.google-apps.folder'" else [])

/-- The query of `ListFilesNamedInParent`. -/
def listFilesNamedInParentQuery (parentId name : Str) : Str :=
  str "'" ++ parentId ++ str "' in parents and name='" ++ escapeDriveQueryLiteral name
    ++ str "' and trashed=false"

/-- The query of `ListChildren`. -/
def listChildrenQuery (parentId : Str) : Str :=
  str "'" ++ parentId ++ str "' in parents and trashed=false"

/-- The URL of one page of `List`. -/
def listTarget (driveId query token : Str) : Str :=
  str "/drive/v3/files?q=" ++ urlEncode query ++ str "&pageSize=1000&fields="
    ++ urlEncode listFieldsMask ++ str "&" ++ allDrivesParams
    ++ (if driveId.isEmpty then [] else str "&corpora=drive&driveId=" ++ urlEncode driveId)
    ++ (if token.isEmpty then [] else str "&pageToken=" ++ urlEncode token)

-- ==================================================================== URLs

theorem hexValue_upperHexDigit : ∀ n < 16, hexValue (upperHexDigit n) = some n := by decide

theorem isUrlSeparator_upperHexDigit : ∀ n < 16, isUrlSeparator (upperHexDigit n) = false := by
  decide

theorem urlEncode_spelling : Spelling percentPiece urlEncodeByte :=
  percent_spelling (show isUnreserved 37 = false by decide) hexValue_upperHexDigit

/-- What an encoded byte is: itself if it is unreserved, or `%XX`. -/
def IsPercentWord (w : Str) : Prop :=
  (∃ c, isUnreserved c = true ∧ w = [c]) ∨
    ∃ a b, a ∈ str "0123456789ABCDEF" ∧ b ∈ str "0123456789ABCDEF" ∧ w = [37, a, b]

theorem isPercentWord_urlEncodeByte (c : UInt8) : IsPercentWord (urlEncodeByte c) := by
  have hdigit : ∀ n < 16, upperHexDigit n ∈ str "0123456789ABCDEF" := by decide
  have hlt := c.toNat_lt
  unfold urlEncodeByte
  split
  · rename_i hc
    exact .inl ⟨c, hc, rfl⟩
  · exact .inr ⟨_, _, hdigit _ (by omega), hdigit _ (by omega), rfl⟩

theorem isUrlSeparator_of_isUnreserved {c : UInt8} (h : isUnreserved c = true) :
    isUrlSeparator c = false := by
  rw [Bool.eq_false_iff]
  intro hsep
  unfold isUrlSeparator at hsep
  simp only [Bool.or_eq_true, decide_eq_true_eq] at hsep
  rcases hsep with ((rfl | rfl) | rfl) | rfl <;> exact absurd h (by decide)

theorem unseparated_urlEncode (s : Str) : Unseparated (urlEncode s) := by
  intro c hc
  obtain ⟨b, -, hb⟩ := List.mem_flatMap.mp hc
  have hlt := b.toNat_lt
  unfold urlEncodeByte at hb
  split at hb
  · rename_i hkeep
    rw [List.mem_singleton] at hb
    rw [hb]
    exact isUrlSeparator_of_isUnreserved hkeep
  · simp only [List.mem_cons, List.not_mem_nil, or_false] at hb
    rcases hb with rfl | rfl | rfl
    · rfl
    · exact isUrlSeparator_upperHexDigit _ (by omega)
    · exact isUrlSeparator_upperHexDigit _ (by omega)

/-- A constant of unreserved letters stands for itself. -/
theorem urlEncode_of_unreserved {s : Str} (h : s.all isUnreserved = true) : urlEncode s = s := by
  induction s with
  | nil => rfl
  | cons c s ih =>
      rw [List.all_cons, Bool.and_eq_true] at h
      unfold urlEncode at ih ⊢
      rw [List.flatMap_cons, ih h.2, urlEncodeByte, if_pos h.1]
      rfl

theorem readsAs_encoded {name : Str} (hname : name.all isUnreserved = true) (value : Str) :
    ReadsAs (name, urlEncode value) (name, value) := by
  have hself := urlEncode_of_unreserved hname
  refine ⟨?_, urlEncode_spelling.decode_spelled value, ?_, unseparated_urlEncode value⟩
  · have hdecode := urlEncode_spelling.decode_spelled name
    change decode percentPiece (urlEncode name) = some name at hdecode
    rwa [hself] at hdecode
  · have hunseparated := unseparated_urlEncode name
    rwa [hself] at hunseparated

theorem readsAs_constant {name value : Str} (hname : name.all isUnreserved = true)
    (hvalue : value.all isUnreserved = true) : ReadsAs (name, value) (name, value) := by
  have h := readsAs_encoded hname value
  rwa [urlEncode_of_unreserved hvalue] at h

/-- The parameters of a page of `List`, decoded. -/
def listParams (driveId query token : Str) : List (Str × Str) :=
  [(str "q", query), (str "pageSize", str "1000"), (str "fields", listFieldsMask),
      (str "supportsAllDrives", str "true"), (str "includeItemsFromAllDrives", str "true")]
    ++ (if driveId.isEmpty then [] else [(str "corpora", str "drive"), (str "driveId", driveId)])
    ++ (if token.isEmpty then [] else [(str "pageToken", token)])

/-- The URL is read back as the parameters, whatever the query, the drive
and the token are. -/
theorem readTarget_listTarget (driveId query token : Str) :
    readTarget (listTarget driveId query token) =
      some (str "/drive/v3/files", listParams driveId query token) := by
  have hwritten : listTarget driveId query token =
      target (str "/drive/v3/files")
        ([(str "q", urlEncode query), (str "pageSize", str "1000"),
            (str "fields", urlEncode listFieldsMask), (str "supportsAllDrives", str "true"),
            (str "includeItemsFromAllDrives", str "true")]
          ++ (if driveId.isEmpty then []
            else [(str "corpora", str "drive"), (str "driveId", urlEncode driveId)])
          ++ (if token.isEmpty then [] else [(str "pageToken", urlEncode token)])) := by
    unfold listTarget target
    cases driveId.isEmpty <;> cases token.isEmpty <;>
      simp [List.intercalate, List.intersperse, str, charByte, allDrivesParams]
  rw [hwritten]
  have hpath : Unseparated (str "/drive/v3/files") := by
    show ∀ c ∈ str "/drive/v3/files", isUrlSeparator c = false
    decide +kernel
  apply readTarget_written hpath (by simp)
  apply List.rel_append
  · apply List.rel_append
    · exact .cons (readsAs_encoded (by decide) query)
        (.cons (readsAs_constant (by decide) (by decide))
          (.cons (readsAs_encoded (by decide) listFieldsMask)
            (.cons (readsAs_constant (by decide) (by decide))
              (.cons (readsAs_constant (by decide) (by decide)) .nil))))
    · split
      · exact .nil
      · exact .cons (readsAs_constant (by decide) (by decide))
          (.cons (readsAs_encoded (by decide) driveId) .nil)
  · split
    · exact .nil
    · exact .cons (readsAs_encoded (by decide) token) .nil

-- =================================================================== the query

/-- A sign of a query. -/
inductive QueryToken
  | literal (s : Str)
  | word (s : Str)
  | equals
  deriving DecidableEq

/-- One condition of a conjunction. -/
inductive QueryTerm
  /-- `'value' in field` -/
  | isIn (value field : Str)
  /-- `field='value'` -/
  | equals (field value : Str)
  /-- `field=word` -/
  | is (field word : Str)
  deriving DecidableEq

/-- A letter of a literal; a backslash stands before the letter it
protects. -/
def literalPiece : Str → Option (Str × Str)
  | [] => none
  | c :: rest =>
      if c = 92 then
        match rest with
        | [] => none
        | d :: rest' => some ([d], rest')
      else some ([c], rest)

/-- What ends a word: a space, `=` or a quote. -/
def isWordChar (c : UInt8) : Bool := c ≠ 32 && c ≠ 61 && c ≠ 39

/-- The signs of a query, at most so many. -/
def queryTokens : Nat → Str → Option (List QueryToken)
  | _, [] => some []
  | 0, _ :: _ => none
  | fuel + 1, c :: rest =>
      if c = 32 then queryTokens fuel rest
      else if c = 61 then (queryTokens fuel rest).map (.equals :: ·)
      else if c = 39 then
        match readTo 39 literalPiece rest with
        | none => none
        | some (s, rest') => (queryTokens fuel rest').map (.literal s :: ·)
      else
        (queryTokens fuel (rest.dropWhile isWordChar)).map
          (.word (c :: rest.takeWhile isWordChar) :: ·)

/-- A conjunction of conditions. -/
def queryTerms : Nat → List QueryToken → Option (List QueryTerm)
  | 0, _ => none
  | fuel + 1, tokens =>
      let first : Option (QueryTerm × List QueryToken) :=
        match tokens with
        | .literal value :: .word op :: .word field :: rest =>
            if op = str "in" then some (.isIn value field, rest) else none
        | .word field :: .equals :: .literal value :: rest => some (.equals field value, rest)
        | .word field :: .equals :: .word word :: rest => some (.is field word, rest)
        | _ => none
      match first with
      | none => none
      | some (term, []) => some [term]
      | some (term, .word op :: rest) =>
          if op = str "and" then (queryTerms fuel rest).map (term :: ·) else none
      | some (_, _) => none

/-- A query as Drive reads it. -/
def readQuery (query : Str) : Option (List QueryTerm) :=
  (queryTokens query.length query).bind fun tokens => queryTerms tokens.length tokens

-- ------------------------------------------------------------------ literals

theorem escapeQuery_spelling : Spelling literalPiece escapeQueryByte where
  ne_nil := by
    intro c
    unfold escapeQueryByte
    split
    · exact List.cons_ne_nil _ _
    · exact List.cons_ne_nil _ _
  reads := by
    intro c rest
    unfold escapeQueryByte
    split
    · rfl
    · rename_i hc
      have hne : c ≠ 92 := fun heq => hc (.inl heq)
      simp only [List.cons_append, List.nil_append, literalPiece, if_neg hne]

theorem escapeQuery_open (c : UInt8) : (escapeQueryByte c).head? ≠ some 39 := by
  unfold escapeQueryByte
  split
  · exact fun h => absurd (Option.some.inj h) (by decide)
  · rename_i hc
    exact fun h => hc (.inr (Option.some.inj h))

/-- An escaped literal is read back, whatever it is. -/
theorem readTo_escaped (value rest : Str) :
    readTo 39 literalPiece (escapeDriveQueryLiteral value ++ 39 :: rest) = some (value, rest) :=
  escapeQuery_spelling.readTo_spelled escapeQuery_open value rest

theorem escape_of_plain {s : Str} (hquote : 39 ∉ s) (hback : 92 ∉ s) :
    escapeDriveQueryLiteral s = s := by
  induction s with
  | nil => rfl
  | cons c s ih =>
      rw [List.mem_cons, not_or] at hquote hback
      have hc : ¬(c = 92 ∨ c = 39) := by
        intro h
        rcases h with rfl | rfl
        · exact hback.1 rfl
        · exact hquote.1 rfl
      unfold escapeDriveQueryLiteral at ih ⊢
      rw [List.flatMap_cons, ih hquote.2 hback.2, escapeQueryByte, if_neg hc]
      rfl

/-- A text that is not escaped is read back only if there is nothing in it
to escape. Each backslash that is read shortens what was read before the
rest, so no number of them can make up for the first one. -/
theorem plain_of_readUntil {fuel k : Nat} {s rest rest' : Str}
    (h : readUntil 39 literalPiece fuel (s ++ 39 :: rest) =
      some (List.replicate k 92 ++ s, rest')) : k = 0 ∧ 39 ∉ s ∧ 92 ∉ s := by
  induction fuel generalizing k s rest' with
  | zero => cases s <;> cases h
  | succ fuel ih =>
      cases s with
      | nil =>
          rw [List.nil_append, readUntil_stop, List.append_nil] at h
          cases k with
          | zero => exact ⟨rfl, List.not_mem_nil, List.not_mem_nil⟩
          | succ k => cases h
      | cons c s =>
          by_cases hquote : c = 39
          · rw [hquote, List.cons_append, readUntil_stop] at h
            have hlen := congrArg (fun r : Option (Str × Str) => (r.map fun r => r.1.length)) h
            simp at hlen
          · have hopen : (c :: s ++ 39 :: rest).head? ≠ some 39 :=
              fun heq => hquote (Option.some.inj heq)
            by_cases hback : c = 92
            · subst hback
              cases s with
              | nil =>
                  have hpiece : literalPiece ([92] ++ 39 :: rest) = some ([39], rest) := rfl
                  rw [readUntil_cons (by simp) hopen hpiece, Option.map_eq_some_iff] at h
                  obtain ⟨r, -, hr⟩ := h
                  cases k <;> cases hr
              | cons d s =>
                  have hpiece : literalPiece (92 :: d :: s ++ 39 :: rest) =
                      some ([d], s ++ 39 :: rest) := rfl
                  rw [readUntil_cons (by simp) hopen hpiece, Option.map_eq_some_iff] at h
                  obtain ⟨r, hr, heq⟩ := h
                  have hletters : d :: r.1 = List.replicate k 92 ++ 92 :: d :: s :=
                    congrArg Prod.fst heq
                  have hmore : List.replicate k (92 : UInt8) ++ 92 :: d :: s =
                      92 :: (List.replicate k 92 ++ d :: s) := by
                    rw [← List.cons_append, ← List.replicate_succ, List.replicate_succ',
                      List.append_assoc]
                    rfl
                  rw [hmore, List.cons.injEq] at hletters
                  obtain ⟨rfl, hrest⟩ := hletters
                  have hk : r.1 = List.replicate (k + 1) 92 ++ s := by
                    rw [hrest, List.replicate_succ', List.append_assoc]
                    rfl
                  have hread : readUntil 39 literalPiece fuel (s ++ 39 :: rest) =
                      some (List.replicate (k + 1) 92 ++ s, r.2) := by
                    rw [hr, ← hk]
                  exact absurd (ih hread).1 (Nat.succ_ne_zero k)
            · have hpiece : literalPiece (c :: s ++ 39 :: rest) = some ([c], s ++ 39 :: rest) := by
                simp only [List.cons_append, literalPiece, if_neg hback]
              rw [readUntil_cons (by simp) hopen hpiece, Option.map_eq_some_iff] at h
              obtain ⟨r, hr, heq⟩ := h
              have hletters : c :: r.1 = List.replicate k 92 ++ c :: s := congrArg Prod.fst heq
              cases k with
              | succ k =>
                  rw [List.replicate_succ, List.cons_append, List.cons.injEq] at hletters
                  exact absurd hletters.1 hback
              | zero =>
                  have hs : r.1 = s := (List.cons.inj hletters).2
                  have hread : readUntil 39 literalPiece fuel (s ++ 39 :: rest) =
                      some (List.replicate 0 92 ++ s, r.2) := by
                    rw [hr, ← hs]
                    rfl
                  obtain ⟨-, hq, hb⟩ := ih hread
                  refine ⟨rfl, ?_, ?_⟩
                  · rw [List.mem_cons, not_or]
                    exact ⟨Ne.symm hquote, hq⟩
                  · rw [List.mem_cons, not_or]
                    exact ⟨Ne.symm hback, hb⟩

-- ------------------------------------------------------------------- tokens

/-- The signs of a text, by any number of rounds that is enough. -/
def Lexes (s : Str) (tokens : List QueryToken) : Prop :=
  ∀ fuel, s.length ≤ fuel → queryTokens fuel s = some tokens

variable {rest : Str} {tokens : List QueryToken}

theorem lexes_nil : Lexes [] [] := by
  intro fuel _
  cases fuel <;> rfl

/-- A letter that is read, and how the rest goes on. -/
theorem lexes_step {c : UInt8} {s : Str} {tokens' : List QueryToken} (h : Lexes rest tokens)
    (hlen : rest.length ≤ s.length)
    (hstep : ∀ fuel, queryTokens fuel rest = some tokens →
      queryTokens (fuel + 1) (c :: s) = some tokens') : Lexes (c :: s) tokens' := by
  intro fuel hfuel
  rw [List.length_cons] at hfuel
  obtain ⟨fuel, rfl⟩ : ∃ n, fuel = n + 1 := ⟨fuel - 1, by omega⟩
  exact hstep fuel (h fuel (by omega))

theorem lexes_space (h : Lexes rest tokens) : Lexes (32 :: rest) tokens := by
  apply lexes_step h (Nat.le_refl _)
  intro fuel hrest
  simp only [queryTokens, if_true]
  exact hrest

theorem lexes_equals (h : Lexes rest tokens) : Lexes (61 :: rest) (.equals :: tokens) := by
  apply lexes_step h (Nat.le_refl _)
  intro fuel hrest
  simp [queryTokens, hrest]

theorem lexes_literal (value : Str) (h : Lexes rest tokens) :
    Lexes (39 :: (escapeDriveQueryLiteral value ++ 39 :: rest)) (.literal value :: tokens) := by
  apply lexes_step h
  · rw [List.length_append, List.length_cons]
    omega
  · intro fuel hrest
    simp [queryTokens, readTo_escaped, hrest]

/-- Where a word ends. -/
def WordEnds (rest : Str) : Prop := ∀ c, rest.head? = some c → isWordChar c = false

theorem lexes_word {w : Str} (hne : w ≠ []) (hw : w.all isWordChar = true) (hends : WordEnds rest)
    (h : Lexes rest tokens) : Lexes (w ++ rest) (.word w :: tokens) := by
  obtain ⟨c, w, rfl⟩ := List.exists_cons_of_ne_nil hne
  rw [List.all_cons, Bool.and_eq_true] at hw
  have hspan : (w ++ rest).takeWhile isWordChar = w ∧ (w ++ rest).dropWhile isWordChar = rest := by
    have hall := List.all_eq_true.mp hw.2
    cases rest with
    | nil =>
        rw [List.append_nil]
        exact ⟨List.takeWhile_eq_self_iff.mpr hall, List.dropWhile_eq_nil_iff.mpr hall⟩
    | cons d rest =>
        have hd := hends d rfl
        rw [List.takeWhile_append_of_pos hall, List.dropWhile_append_of_pos hall,
          List.takeWhile_cons_of_neg (by simp [hd]), List.dropWhile_cons_of_neg (by simp [hd])]
        exact ⟨List.append_nil w, rfl⟩
  obtain ⟨hspace, hequals, hquote⟩ : c ≠ 32 ∧ c ≠ 61 ∧ c ≠ 39 := by
    have hc := hw.1
    unfold isWordChar at hc
    simp only [Bool.and_eq_true, decide_eq_true_eq] at hc
    exact ⟨hc.1.1, hc.1.2, hc.2⟩
  rw [List.cons_append]
  apply lexes_step h
  · rw [List.length_append]
    exact Nat.le_add_left _ _
  · intro fuel hrest
    simp only [queryTokens, if_neg hspace, if_neg hequals, if_neg hquote]
    rw [hspan.1, hspan.2, hrest]
    rfl

-- ---------------------------------------------------------------- the queries

/-- The conjunction that is meant. -/
def listingTerms (parentId : Str) (name : Option Str) (requireFolder : Bool) : List QueryTerm :=
  .isIn parentId (str "parents") :: (name.toList.map (.equals (str "name") ·)
    ++ .is (str "trashed") (str "false")
      :: (if requireFolder then [.equals (str "mimeType") kFolderMimeType] else []))

/-- The literal of the parent is what the first condition is about. -/
theorem literal_of_queryTerms {fuel : Nat} {s parentId field : Str} {tokens : List QueryToken}
    {terms : List QueryTerm}
    (h : queryTerms fuel (.literal s :: tokens) = some (.isIn parentId field :: terms)) :
    s = parentId := by
  cases fuel with
  | zero => cases h
  | succ fuel =>
      rcases tokens with _ | ⟨t, _ | ⟨t', rest⟩⟩
      · cases h
      · cases t <;> cases h
      · cases t with
        | literal _ => cases h
        | equals => cases h
        | word op =>
            cases t' with
            | literal _ => cases h
            | equals => cases h
            | word field' =>
                simp only [queryTerms] at h
                split at h
                · cases h
                · rename_i heq
                  split at heq
                  · cases heq
                    cases h
                    rfl
                  · cases heq
                · rename_i heq
                  split at heq
                  · cases heq
                    split at h
                    · rw [Option.map_eq_some_iff] at h
                      obtain ⟨_, -, hterms⟩ := h
                      cases hterms
                      rfl
                    · cases h
                  · cases heq
                · cases h

/-- A query whose first literal is the parent's id as it is. -/
theorem readQuery_parent {parentId field tail : Str} {tokens : List QueryToken}
    {terms : List QueryTerm} (htail : Lexes tail tokens)
    (hterms : queryTerms (tokens.length + 1) (.literal parentId :: tokens) =
      some (.isIn parentId field :: terms)) :
    readQuery (39 :: (parentId ++ 39 :: tail)) = some (.isIn parentId field :: terms) ↔
      39 ∉ parentId ∧ 92 ∉ parentId := by
  constructor
  · intro h
    unfold readQuery at h
    rw [Option.bind_eq_some_iff] at h
    obtain ⟨tokens', htokens, hread⟩ := h
    simp only [List.length_cons, queryTokens] at htokens
    rw [if_neg (by decide), if_neg (by decide), if_pos trivial] at htokens
    split at htokens
    · cases htokens
    · rename_i s rest' hliteral
      rw [Option.map_eq_some_iff] at htokens
      obtain ⟨tokens'', -, rfl⟩ := htokens
      rw [literal_of_queryTerms hread] at hliteral
      exact (plain_of_readUntil (k := 0) hliteral).2
  · intro h
    have hlex : Lexes (39 :: (parentId ++ 39 :: tail)) (.literal parentId :: tokens) := by
      have hliteral := lexes_literal parentId htail
      rwa [escape_of_plain h.1 h.2] at hliteral
    unfold readQuery
    rw [hlex _ (Nat.le_refl _)]
    exact hterms

theorem wordEnds_cons {c : UInt8} (hc : isWordChar c = false) (rest : Str) :
    WordEnds (c :: rest) := by
  intro d hd
  rw [← Option.some.inj hd]
  exact hc

theorem wordEnds_nil : WordEnds [] := by
  intro c hc
  cases hc

/-- A space and a word. -/
theorem lexes_space_word {w : Str} (hne : w ≠ []) (hw : w.all isWordChar = true)
    (hends : WordEnds rest) (h : Lexes rest tokens) :
    Lexes (32 :: (w ++ rest)) (.word w :: tokens) :=
  lexes_space (lexes_word hne hw hends h)

/-- The condition on the MIME type. -/
def folderText : Str := str " and mimeType='application/vnd.google-apps.folder'"

theorem lexes_folder : Lexes folderText
    [.word (str "and"), .word (str "mimeType"), .equals, .literal kFolderMimeType] := by
  have hliteral := lexes_literal kFolderMimeType lexes_nil
  rw [escape_of_plain (by decide) (by decide)] at hliteral
  exact lexes_space_word (w := str "and") (by decide) (by decide) (wordEnds_cons (by decide) _)
    (lexes_space_word (w := str "mimeType") (by decide) (by decide) (wordEnds_cons (by decide) _)
      (lexes_equals hliteral))

/-- The text of all that follows the name, or the parent. -/
def trashedText (folders : Str) : Str := str " and trashed=false" ++ folders

theorem lexes_trashed {folders : Str} (hends : WordEnds folders) (h : Lexes folders tokens) :
    Lexes (trashedText folders)
      (.word (str "and") :: .word (str "trashed") :: .equals :: .word (str "false") :: tokens) :=
  lexes_space_word (w := str "and") (by decide) (by decide) (wordEnds_cons (by decide) _)
    (lexes_space_word (w := str "trashed") (by decide) (by decide) (wordEnds_cons (by decide) _)
      (lexes_equals (lexes_word (w := str "false") (by decide) (by decide) hends h)))

theorem lexes_named (name : Str) (h : Lexes rest tokens) :
    Lexes (str " in parents and name='" ++ (escapeDriveQueryLiteral name ++ 39 :: rest))
      (.word (str "in") :: .word (str "parents") :: .word (str "and") :: .word (str "name")
        :: .equals :: .literal name :: tokens) :=
  lexes_space_word (w := str "in") (by decide) (by decide) (wordEnds_cons (by decide) _)
    (lexes_space_word (w := str "parents") (by decide) (by decide) (wordEnds_cons (by decide) _)
      (lexes_space_word (w := str "and") (by decide) (by decide) (wordEnds_cons (by decide) _)
        (lexes_space_word (w := str "name") (by decide) (by decide) (wordEnds_cons (by decide) _)
          (lexes_equals (lexes_literal name h)))))

/-- The query of `ListByName` is read as what it means, whatever the name
is; the parent's id must have nothing in it to escape, as Drive's have. -/
theorem readQuery_listByName (parentId name : Str) (requireFolder : Bool) :
    readQuery (listByNameQuery parentId name requireFolder) =
        some (listingTerms parentId (some name) requireFolder) ↔
      39 ∉ parentId ∧ 92 ∉ parentId := by
  cases requireFolder with
  | false =>
      have htext : listByNameQuery parentId name false =
          39 :: (parentId ++ 39 :: (str " in parents and name='"
            ++ (escapeDriveQueryLiteral name ++ 39 :: trashedText []))) := by
        simp [listByNameQuery, trashedText, str, charByte]
      rw [htext]
      exact readQuery_parent (lexes_named name (lexes_trashed wordEnds_nil lexes_nil)) (by rfl)
  | true =>
      have htext : listByNameQuery parentId name true =
          39 :: (parentId ++ 39 :: (str " in parents and name='"
            ++ (escapeDriveQueryLiteral name ++ 39 :: trashedText folderText))) := by
        simp [listByNameQuery, trashedText, folderText, str, charByte]
      rw [htext]
      exact readQuery_parent (lexes_named name
        (lexes_trashed (wordEnds_cons (by decide) _) lexes_folder)) (by rfl)

theorem listFilesNamedInParentQuery_eq (parentId name : Str) :
    listFilesNamedInParentQuery parentId name = listByNameQuery parentId name false := by
  unfold listFilesNamedInParentQuery listByNameQuery
  rw [if_neg Bool.false_ne_true, List.append_nil]

/-- The text of a query as the model has it. -/
def DriveQuery.text (query : DriveQuery) : Str :=
  match query.name with
  | some name => listByNameQuery query.parentId name query.requireFolder
  | none => listChildrenQuery query.parentId

/-- The `q` parameter of a URL. -/
def queryParam (url : Str) : Option Str :=
  (readTarget url).bind fun t => t.2.lookup (str "q")

theorem queryParam_listTarget (driveId query token : Str) :
    queryParam (listTarget driveId query token) = some query := by
  unfold queryParam
  rw [readTarget_listTarget]
  rfl

/-- For every name, drive and page token, with folder filtering on or off:
the URL has the intended parameters, its query is the intended conjunction
(the parent's id stands in it as it is, so it must be one that needs no
escaping), and `UrlEncode` is undone on every byte string. -/
theorem list_query_safety (driveId token parentId name : Str) (requireFolder : Bool) :
    (∀ query, readTarget (listTarget driveId query token) =
      some (str "/drive/v3/files", listParams driveId query token)) ∧
      ((queryParam (listTarget driveId (listByNameQuery parentId name requireFolder) token)).bind
          readQuery = some (listingTerms parentId (some name) requireFolder) ↔
        39 ∉ parentId ∧ 92 ∉ parentId) ∧
      ((queryParam (listTarget driveId (listFilesNamedInParentQuery parentId name) token)).bind
          readQuery = some (listingTerms parentId (some name) false) ↔
        39 ∉ parentId ∧ 92 ∉ parentId) ∧
      ∀ value, (∃ words : List Str, urlEncode value = words.flatten ∧ ∀ w ∈ words, IsPercentWord w) ∧
        decode percentPiece (urlEncode value) = some value := by
  refine ⟨?_, ?_, ?_, ?_⟩
  · intro query
    exact readTarget_listTarget driveId query token
  · rw [queryParam_listTarget]
    exact readQuery_listByName parentId name requireFolder
  · rw [queryParam_listTarget, listFilesNamedInParentQuery_eq]
    exact readQuery_listByName parentId name false
  · intro value
    refine ⟨⟨value.map urlEncodeByte, List.flatMap_def, ?_⟩,
      urlEncode_spelling.decode_spelled value⟩
    intro w hw
    obtain ⟨c, -, rfl⟩ := List.mem_map.mp hw
    exact isPercentWord_urlEncodeByte c

end GDrive
