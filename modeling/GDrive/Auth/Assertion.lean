/-
The unsigned assertion of a service account
(gdrive_service_account_pure.cpp): two JSON objects, each in base64url, with
a dot between them.

The encoder packs bits by hand with a case for each tail and swaps two
letters of the alphabet at the end, which comes to base64 in the alphabet
for URLs (`base64UrlEncode_eq`). The JSON escaper knows two more short
escapes than the client's.
-/
import GDrive.Coding.Base64
import GDrive.Client.MetadataText

namespace GDrive

open Coding

-- ================================================================== the source

def googleTokenUrl : Str := str "https://oauth2.googleapis.com/token"

/-- What of a key goes into the assertion. -/
structure ServiceAccountKey where
  clientEmail : Str
  privateKeyId : Str := []
  tokenUri : Str := []

structure AssertionParts where
  ok : Bool := false
  error : Str := []
  signingInput : Str := []
  headerJson : Str := []
  claimsJson : Str := []

def kBase64Alphabet : Str :=
  str "ABCDEFGHIJKLMNOPQRSTUVWXYZabcdefghijklmnopqrstuvwxyz0123456789+/"

/-- `kBase64Alphabet[n & 0x3F]`. -/
def base64Letter (n : Nat) : UInt8 := kBase64Alphabet.getD (n % 64) 0

/-- The letters before the swap: each `chunk` is 24 bits, cut into sextets
from the top. -/
def base64Loop : Str → Str
  | [] => []
  | [a] =>
      let chunk := a.toNat * 65536
      [base64Letter (chunk / 262144), base64Letter (chunk / 4096)]
  | [a, b] =>
      let chunk := a.toNat * 65536 + b.toNat * 256
      [base64Letter (chunk / 262144), base64Letter (chunk / 4096), base64Letter (chunk / 64)]
  | a :: b :: c :: rest =>
      let chunk := a.toNat * 65536 + b.toNat * 256 + c.toNat
      base64Letter (chunk / 262144) :: base64Letter (chunk / 4096) :: base64Letter (chunk / 64)
        :: base64Letter chunk :: base64Loop rest

/-- `+` and `/` become `-` and `_`. -/
def urlSafe (c : UInt8) : UInt8 := if c = 43 then 45 else if c = 47 then 95 else c

def base64UrlEncode (data : Str) : Str := (base64Loop data).map urlSafe

/-- A byte in a string of the assertion. -/
def assertionEscapeByte (c : UInt8) : Str :=
  if c = 34 then str "\\\""
  else if c = 92 then str "\\\\"
  else if c = 10 then str "\\n"
  else if c = 13 then str "\\r"
  else if c = 9 then str "\\t"
  else if c = 8 then str "\\b"
  else if c = 12 then str "\\f"
  else if c.toNat < 32 then str "\\u00" ++ [hexDigit (c.toNat / 16), hexDigit (c.toNat % 16)]
  else [c]

/-- `JsonEscape` of gdrive_service_account_pure.cpp. -/
def assertionEscape (s : Str) : Str := s.flatMap assertionEscapeByte

def jsonStringField (value : Str) : Str := str "\"" ++ assertionEscape value ++ str "\""

def kMaxLifetimeSeconds : Int := 3600

def assertionHeader (keyId : Str) : Str :=
  str "\x7b\"alg\":\"RS256\",\"typ\":\"JWT\",\"kid\":" ++ jsonStringField keyId ++ str "\x7d"

/-- A subject only where there is one. -/
def assertionClaims (iss scope aud : Str) (exp iat : Int) (subject : Str) : Str :=
  str "\x7b\"iss\":" ++ jsonStringField iss ++ str ",\"scope\":" ++ jsonStringField scope
    ++ str ",\"aud\":" ++ jsonStringField aud ++ str ",\"exp\":" ++ signedDecimal exp
    ++ str ",\"iat\":" ++ signedDecimal iat
    ++ (if subject.isEmpty then [] else str ",\"sub\":" ++ jsonStringField subject) ++ str "\x7d"

/-- `BuildAssertionParts`; a sum of 64-bit numbers wraps. -/
def buildAssertionParts (key : ServiceAccountKey) (scope : Str) (issuedAt lifetimeSeconds : Int)
    (subject : Str) : AssertionParts :=
  if key.clientEmail.isEmpty then
    { error := str "BuildAssertionParts: service-account key has no client_email" }
  else if scope.isEmpty then { error := str "BuildAssertionParts: scope must not be empty" }
  else if lifetimeSeconds ≤ 0 then
    { error := str "BuildAssertionParts: lifetime_seconds must be positive" }
  else
    let effectiveLifetime :=
      if kMaxLifetimeSeconds < lifetimeSeconds then kMaxLifetimeSeconds else lifetimeSeconds
    let aud := if key.tokenUri.isEmpty then googleTokenUrl else key.tokenUri
    let exp := Int.bmod (issuedAt + effectiveLifetime) (2 ^ 64)
    let headerJson := assertionHeader key.privateKeyId
    let claimsJson := assertionClaims key.clientEmail scope aud exp issuedAt subject
    { ok := true
      signingInput := base64UrlEncode headerJson ++ str "." ++ base64UrlEncode claimsJson
      headerJson
      claimsJson }

-- ==================================================================== base64url

/-- A letter of base64url. -/
def isBase64UrlChar (c : UInt8) : Bool := isAlnum c || c == 45 || c == 95

def urlLetter (n : Nat) : UInt8 := urlSafe (base64Letter n)

theorem base64Value_urlLetter : ∀ n < 64, base64Value (urlLetter n) = some n := by
  decide +kernel

theorem isBase64UrlChar_urlLetter : ∀ n < 64, isBase64UrlChar (urlLetter n) = true := by
  decide +kernel

theorem base64Letter_mod {m n : Nat} (h : m % 64 = n) : base64Letter m = base64Letter n := by
  unfold base64Letter
  rw [← h, Nat.mod_mod]

theorem base64Loop_eq (data : Str) : base64Loop data = encodeBase64 base64Letter data := by
  fun_induction base64Loop data with
  | case1 => rfl
  | case2 a chunk =>
      have ha := a.toNat_lt
      rw [encodeBase64, base64Letter_mod (m := chunk / 262144) (n := a.toNat / 4) (by omega),
        base64Letter_mod (m := chunk / 4096) (n := a.toNat % 4 * 16) (by omega)]
  | case3 a b chunk =>
      have ha := a.toNat_lt
      have hb := b.toNat_lt
      rw [encodeBase64, base64Letter_mod (m := chunk / 262144) (n := a.toNat / 4) (by omega),
        base64Letter_mod (m := chunk / 4096) (n := a.toNat % 4 * 16 + b.toNat / 16) (by omega),
        base64Letter_mod (m := chunk / 64) (n := b.toNat % 16 * 4) (by omega)]
  | case4 a b c rest chunk ih =>
      have ha := a.toNat_lt
      have hb := b.toNat_lt
      have hc := c.toNat_lt
      rw [encodeBase64, ih, base64Letter_mod (m := chunk / 262144) (n := a.toNat / 4) (by omega),
        base64Letter_mod (m := chunk / 4096) (n := a.toNat % 4 * 16 + b.toNat / 16) (by omega),
        base64Letter_mod (m := chunk / 64) (n := b.toNat % 16 * 4 + c.toNat / 64) (by omega),
        base64Letter_mod (m := chunk) (n := c.toNat % 64) (by omega)]

theorem base64UrlEncode_eq (data : Str) : base64UrlEncode data = encodeBase64 urlLetter data := by
  unfold base64UrlEncode
  rw [base64Loop_eq, map_encodeBase64]
  rfl

theorem decode_base64UrlEncode (data : Str) : decodeBase64 (base64UrlEncode data) = some data := by
  rw [base64UrlEncode_eq]
  exact decode_encodeBase64 base64Value_urlLetter data

theorem base64UrlEncode_injective {a b : Str} (h : base64UrlEncode a = base64UrlEncode b) :
    a = b := by
  rw [base64UrlEncode_eq, base64UrlEncode_eq] at h
  exact encodeBase64_injective base64Value_urlLetter h

theorem isBase64UrlChar_of_mem {data : Str} {c : UInt8} (h : c ∈ base64UrlEncode data) :
    isBase64UrlChar c = true := by
  rw [base64UrlEncode_eq] at h
  obtain ⟨n, hn, rfl⟩ := mem_encodeBase64 h
  exact isBase64UrlChar_urlLetter n hn

-- ====================================================================== numbers

theorem decimal_head {n : Nat} (h : n ≠ 0) : (decimal n).head? ≠ some 48 := by
  induction n using Nat.strongRecOn with
  | ind n ih =>
      by_cases hlt : n < 10
      · rw [decimal_of_lt hlt]
        intro heq
        have hbyte := congrArg UInt8.toNat (Option.some.inj heq)
        rw [digitByte_toNat hlt] at hbyte
        exact h (by simpa using hbyte)
      · rw [decimal_of_ge (by omega), List.head?_append_of_ne_nil _ (decimal_ne_nil _)]
        exact ih (n / 10) (by omega) (by omega)

theorem all_isDigit_decimal (n : Nat) : (decimal n).all isDigit = true := by
  rw [List.all_eq_true]
  intro c hc
  exact isDigit_of_mem_decimal hc

theorem takeWhile_decimal (n : Nat) : (decimal n).takeWhile isDecimalDigit = decimal n :=
  List.takeWhile_eq_self_iff.mpr (List.all_eq_true.mp (all_isDigit_decimal n))

theorem dropWhile_decimal (n : Nat) : (decimal n).dropWhile isDecimalDigit = [] :=
  List.dropWhile_eq_nil_iff.mpr (List.all_eq_true.mp (all_isDigit_decimal n))

theorem splitMinus_signedDecimal (n : Int) :
    splitMinus (signedDecimal n) = (decide (n < 0), decimal n.natAbs) := by
  have hdigits : (decimal n.natAbs).head? ≠ some 45 := by
    intro heq
    have hdigit := isDigit_of_mem_decimal (List.mem_of_mem_head? heq)
    exact absurd hdigit (by decide)
  unfold signedDecimal splitMinus
  by_cases hneg : n < 0
  · rw [if_pos hneg, decide_eq_true hneg]
    rfl
  · rw [if_neg hneg, decide_eq_false hneg, if_neg hdigits]

theorem isJsonNumber_signedDecimal (n : Int) : isJsonNumber (signedDecimal n) = true := by
  unfold isJsonNumber
  rw [splitMinus_signedDecimal]
  simp only [takeWhile_decimal, dropWhile_decimal]
  by_cases hn : n.natAbs = 0
  · rw [hn]
    decide
  · simp [decimal_head hn, decimal_ne_nil n.natAbs, isFraction, isExponent]

theorem all_isNumberChar_signedDecimal (n : Int) :
    (signedDecimal n).all isNumberChar = true := by
  have hdigits : (decimal n.natAbs).all isNumberChar = true := by
    rw [List.all_eq_true]
    intro c hc
    have hdigit : isDecimalDigit c = true := isDigit_of_mem_decimal hc
    simp [isNumberChar, hdigit]
  unfold signedDecimal
  split
  · rw [List.all_cons, hdigits]
    rfl
  · exact hdigits

theorem intOfNumber_signedDecimal (n : Int) : intOfNumber (signedDecimal n) = some n := by
  have hall : (decimal n.natAbs).all isDecimalDigit = true := all_isDigit_decimal _
  have hvalue : (decimal n.natAbs).foldl (fun v c => v * 10 + (c.toNat - 48)) 0 = n.natAbs :=
    digitsValue_decimal n.natAbs
  unfold intOfNumber
  rw [splitMinus_signedDecimal]
  simp only [hall, hvalue, List.isEmpty_iff, Bool.not_true, Bool.or_false,
    decide_eq_true_eq]
  rw [if_neg (by simp [decimal_ne_nil])]
  congr 1
  split <;> omega

-- ====================================================================== the JSON

theorem isJsonWord_assertionEscapeByte (c : UInt8) : IsJsonWord c (assertionEscapeByte c) := by
  unfold assertionEscapeByte
  split
  · rename_i hc
    exact isJsonWord_short (e := 34) (by decide) (by rw [hc]; decide)
  split
  · rename_i hc
    exact isJsonWord_short (e := 92) (by decide) (by rw [hc]; decide)
  split
  · rename_i hc
    exact isJsonWord_short (e := 110) (by decide) (by rw [hc]; decide)
  split
  · rename_i hc
    exact isJsonWord_short (e := 114) (by decide) (by rw [hc]; decide)
  split
  · rename_i hc
    exact isJsonWord_short (e := 116) (by decide) (by rw [hc]; decide)
  split
  · rename_i hc
    exact isJsonWord_short (e := 98) (by decide) (by rw [hc]; decide)
  split
  · rename_i hc
    exact isJsonWord_short (e := 102) (by decide) (by rw [hc]; decide)
  split
  · rename_i hlt
    exact isJsonWord_control (by omega)
  · rename_i hquote hback _ _ _ _ _ hlt
    exact .inl ⟨Nat.not_lt.mp hlt, hquote, hback, rfl⟩

theorem writes_jsonStringField (value : Str) : Writes 1 (jsonStringField value) (.string value) := by
  have htext : jsonStringField value = quotedString assertionEscapeByte value := by
    simp [jsonStringField, quotedString, assertionEscape, str, charByte]
  rw [htext]
  exact writes_string isJsonWord_assertionEscapeByte value

theorem writes_signedDecimal (n : Int) : Writes 1 (signedDecimal n) (.number (signedDecimal n)) :=
  writes_number (isJsonNumber_signedDecimal n) (all_isNumberChar_signedDecimal n)

/-- A member whose name needs no escape. -/
theorem writes_claim {text : Str} {v : JsonValue} (hv : Writes 1 text v) {name : Str}
    (hname : ∀ c ∈ name, assertionEscapeByte c = [c]) :
    WritesMember 1 (plainMember name text) (name, v) :=
  writes_plainMember isJsonWord_assertionEscapeByte hv hname

/-- An object of such members is read back. -/
theorem readJson_claims (texts : List Str) {members : List (Str × JsonValue)}
    (h : List.Forall₂ (WritesMember 1) texts members) {text : Str}
    (htext : text = 123 :: ([44].intercalate texts ++ [125])) :
    readJson text = some (.object members) := by
  rw [htext]
  exact readJson_written (writes_object h) (by simp)

/-- The members of the header. -/
def headerMembers (keyId : Str) : List (Str × JsonValue) :=
  [(str "alg", .string (str "RS256")), (str "typ", .string (str "JWT")),
    (str "kid", .string keyId)]

/-- The members of the claims, with the texts of the two numbers. -/
def claimMembers (iss scope aud exp iat subject : Str) : List (Str × JsonValue) :=
  [(str "iss", .string iss), (str "scope", .string scope), (str "aud", .string aud),
      (str "exp", .number exp), (str "iat", .number iat)]
    ++ (if subject.isEmpty then [] else [(str "sub", .string subject)])

theorem readJson_header (keyId : Str) :
    readJson (assertionHeader keyId) = some (.object (headerMembers keyId)) := by
  apply readJson_claims ([plainMember (str "alg") (jsonStringField (str "RS256")),
    plainMember (str "typ") (jsonStringField (str "JWT")),
    plainMember (str "kid") (jsonStringField keyId)])
  · exact .cons (writes_claim (writes_jsonStringField _) (by decide +kernel))
      (.cons (writes_claim (writes_jsonStringField _) (by decide +kernel))
        (.cons (writes_claim (writes_jsonStringField _) (by decide +kernel)) .nil))
  · have hconstants : jsonStringField (str "RS256") = str "\"RS256\"" ∧
        jsonStringField (str "JWT") = str "\"JWT\"" := by decide +kernel
    rw [hconstants.1, hconstants.2]
    simp [assertionHeader, plainMember, str, charByte, List.intercalate, List.intersperse]

theorem readJson_claimsJson (iss scope aud subject : Str) (exp iat : Int) :
    readJson (assertionClaims iss scope aud exp iat subject) =
      some (.object (claimMembers iss scope aud (signedDecimal exp) (signedDecimal iat) subject)) := by
  apply readJson_claims ([plainMember (str "iss") (jsonStringField iss),
      plainMember (str "scope") (jsonStringField scope),
      plainMember (str "aud") (jsonStringField aud),
      plainMember (str "exp") (signedDecimal exp), plainMember (str "iat") (signedDecimal iat)]
    ++ (if subject.isEmpty then [] else [plainMember (str "sub") (jsonStringField subject)]))
  · apply List.rel_append
    · exact .cons (writes_claim (writes_jsonStringField _) (by decide +kernel))
        (.cons (writes_claim (writes_jsonStringField _) (by decide +kernel))
          (.cons (writes_claim (writes_jsonStringField _) (by decide +kernel))
            (.cons (writes_claim (writes_signedDecimal _) (by decide +kernel))
              (.cons (writes_claim (writes_signedDecimal _) (by decide +kernel)) .nil))))
    · split
      · exact .nil
      · exact .cons (writes_claim (writes_jsonStringField _) (by decide +kernel)) .nil
  · unfold assertionClaims
    split
    · simp [plainMember, str, charByte, List.intercalate, List.intersperse]
    · simp [plainMember, str, charByte, List.intercalate, List.intersperse]

-- ================================================================== the assertion

/-- An encoded text has no dot in it. -/
theorem dot_notMem_base64UrlEncode (data : Str) : (46 : UInt8) ∉ base64UrlEncode data := by
  intro hmem
  exact absurd (isBase64UrlChar_of_mem hmem) (by decide)

theorem all_base64UrlEncode (data : Str) : (base64UrlEncode data).all isBase64UrlChar = true := by
  rw [List.all_eq_true]
  intro c hc
  exact isBase64UrlChar_of_mem hc

/-- The two halves are encoded objects, with one dot between them. -/
structure SigningInput (input header claims : Str) : Prop where
  halves : input = header ++ 46 :: claims
  one_dot : input.count 46 = 1
  header_letters : header.all isBase64UrlChar = true
  claims_letters : claims.all isBase64UrlChar = true

theorem signingInput_encoded (header claims : Str) :
    SigningInput (base64UrlEncode header ++ str "." ++ base64UrlEncode claims)
      (base64UrlEncode header) (base64UrlEncode claims) where
  halves := by
    rw [List.append_assoc]
    rfl
  one_dot := by
    rw [List.count_append, List.count_append,
      List.count_eq_zero_of_not_mem (dot_notMem_base64UrlEncode header),
      List.count_eq_zero_of_not_mem (dot_notMem_base64UrlEncode claims)]
    rfl
  header_letters := all_base64UrlEncode header
  claims_letters := all_base64UrlEncode claims

/-- The lifetime that is asked for, up to the largest one. -/
theorem effectiveLifetime_eq (lifetimeSeconds : Int) :
    (if kMaxLifetimeSeconds < lifetimeSeconds then kMaxLifetimeSeconds else lifetimeSeconds) =
      min lifetimeSeconds 3600 := by
  unfold kMaxLifetimeSeconds
  split <;> omega

/-- The audience: the token endpoint that the key names. -/
def assertionAudience (key : ServiceAccountKey) : Str :=
  if key.tokenUri.isEmpty then googleTokenUrl else key.tokenUri

theorem buildAssertionParts_eq {key : ServiceAccountKey} {scope : Str}
    {issuedAt lifetimeSeconds : Int} (hemail : key.clientEmail ≠ []) (hscope : scope ≠ [])
    (hlifetime : 0 < lifetimeSeconds) (hmin : -2 ^ 63 ≤ issuedAt) (hmax : issuedAt + 3600 < 2 ^ 63)
    (subject : Str) :
    buildAssertionParts key scope issuedAt lifetimeSeconds subject =
      { ok := true
        signingInput := base64UrlEncode (assertionHeader key.privateKeyId) ++ str "."
          ++ base64UrlEncode (assertionClaims key.clientEmail scope (assertionAudience key)
            (issuedAt + min lifetimeSeconds 3600) issuedAt subject)
        headerJson := assertionHeader key.privateKeyId
        claimsJson := assertionClaims key.clientEmail scope (assertionAudience key)
          (issuedAt + min lifetimeSeconds 3600) issuedAt subject } := by
  have hexp : Int.bmod (issuedAt + min lifetimeSeconds 3600) (2 ^ 64) =
      issuedAt + min lifetimeSeconds 3600 := by
    apply Int.bmod_eq_of_le
    · omega
    · omega
  unfold buildAssertionParts
  rw [if_neg (by simpa using hemail), if_neg (by simpa using hscope), if_neg (by omega)]
  simp only [effectiveLifetime_eq, hexp]
  rfl

/-- The parts are built and decode to the header and the claims that are
meant. -/
structure DecodesTo (parts : AssertionParts) (keyId iss scope aud : Str) (exp iat : Int)
    (subject : Str) : Prop where
  ok : parts.ok = true
  decodes : ∃ header claims expText iatText, SigningInput parts.signingInput header claims ∧
    (decodeBase64 header).bind readJson = some (.object (headerMembers keyId)) ∧
    (decodeBase64 claims).bind readJson =
      some (.object (claimMembers iss scope aud expText iatText subject)) ∧
    intOfNumber expText = some exp ∧ intOfNumber iatText = some iat

/-- For every key, scope, lifetime, subject and time the assertion is built
and decodes to what is meant; and no two texts have the same encoding. -/
theorem assertion_round_trip {key : ServiceAccountKey} {scope : Str}
    {issuedAt lifetimeSeconds : Int} (hemail : key.clientEmail ≠ []) (hscope : scope ≠ [])
    (hlifetime : 0 < lifetimeSeconds) (hmin : -2 ^ 63 ≤ issuedAt) (hmax : issuedAt + 3600 < 2 ^ 63)
    (subject : Str) :
    DecodesTo (buildAssertionParts key scope issuedAt lifetimeSeconds subject) key.privateKeyId
        key.clientEmail scope (if key.tokenUri.isEmpty then googleTokenUrl else key.tokenUri)
        (issuedAt + min lifetimeSeconds 3600) issuedAt subject ∧
      ∀ a b, base64UrlEncode a = base64UrlEncode b → a = b := by
  refine ⟨?_, fun a b => base64UrlEncode_injective⟩
  rw [buildAssertionParts_eq hemail hscope hlifetime hmin hmax]
  refine ⟨rfl, _, _, _, _, signingInput_encoded _ _, ?_, ?_, intOfNumber_signedDecimal _,
    intOfNumber_signedDecimal _⟩
  · rw [decode_base64UrlEncode, Option.bind_some]
    exact readJson_header key.privateKeyId
  · rw [decode_base64UrlEncode, Option.bind_some]
    exact readJson_claimsJson key.clientEmail scope (assertionAudience key) subject _ _

theorem assertion_round_trip_case :
    DecodesTo (buildAssertionParts ⟨str "sa@example", str "k\"1", []⟩ (str "drive") 1700000000 7200
        (str "user@example")) (str "k\"1") (str "sa@example") (str "drive") googleTokenUrl
        (1700000000 + min 7200 3600) 1700000000 (str "user@example") ∧
      ∀ a b, base64UrlEncode a = base64UrlEncode b → a = b :=
  assertion_round_trip (by decide) (by decide)
    (by decide) (by decide) (by decide) (str "user@example")

end GDrive
