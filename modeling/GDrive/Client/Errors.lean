/-
Classification of Drive API failures (gdrive_errors.cpp), pure.

The JSON library is not part of the repository. `Picojson` is what the
code asks of it, a parser of bodies and a serialiser; a number's value is
never read, so `Json` does not carry it.

# The two vocabularies

A reply is classified by the reasons its body carries first and by its
status second. The kind `unauthenticated` in particular is reached from a
401 and also from a body's reason under another status; when exactly is
`classifyKind_unauthenticated`.
-/
import GDrive.Base.Str

namespace GDrive

-- ================================================================== JSON

/-- A parsed JSON value, as far as the code looks into one. -/
inductive Json where
  | null
  | bool (b : Bool)
  | number
  | string (s : Str)
  | array (xs : List Json)
  | object (fields : List (Str × Json))

/-- `it->second` of `obj.find(key)`. -/
def Json.field (fields : List (Str × Json)) (key : Str) : Option Json := fields.lookup key

/-- A string-valued member. -/
def getString (fields : List (Str × Json)) (key : Str) : Option Str :=
  match Json.field fields key with
  | some (.string s) => some s
  | _ => none

/-- The JSON library: `parse` of a body (`none` where it reports an error)
and `serialize`. -/
structure Picojson where
  parse : Str → Option Json
  serialize : Json → Str

/-- The top-level object of a body. -/
def Picojson.parseObject (pj : Picojson) (body : Str) : Option (List (Str × Json)) :=
  match pj.parse body with
  | some (.object fields) => some fields
  | _ => none

/-- A parser that takes nothing for JSON. -/
def noJson : Picojson := ⟨fun _ => none, fun _ => []⟩

-- =========================================================== error bodies

inductive GDriveErrorKind
  | notFound
  | unauthenticated
  | permissionDenied
  | insufficientScope
  | storageQuota
  | rateLimit
  | transient
  | invalidRequest
  | notDownloadable
  | unknown
  deriving DecidableEq

structure GDriveError where
  kind : GDriveErrorKind := .unknown
  httpStatus : Nat := 0
  /-- Google's machine-readable `errors[0].reason`. -/
  reason : Str := []
  message : Str := []
  retryAfterSeconds : Int := 0
  deriving DecidableEq

/-- What `ParseErrorBody` extracts; empty where a body has another shape. -/
structure ParsedBody where
  reason : Str := []
  message : Str := []
  /-- `error.details[].reason`, a different vocabulary than `reason`. -/
  detailReason : Str := []

/-- `errors[0].reason`. -/
def firstErrorReason (errorObj : List (Str × Json)) : Str :=
  match Json.field errorObj (str "errors") with
  | some (.array (.object first :: _)) => (getString first (str "reason")).getD []
  | _ => []

/-- The reason of the first entry of `details` that has one. -/
def detailReasonOf : List Json → Str
  | [] => []
  | .object detail :: rest =>
      match getString detail (str "reason") with
      | some reason => reason
      | none => detailReasonOf rest
  | _ :: rest => detailReasonOf rest

/-- Best effort, never fails: a body of any other shape gives nothing. -/
def parseErrorBody (pj : Picojson) (body : Str) : ParsedBody :=
  if body.isEmpty then {}
  else
    match pj.parseObject body with
    | none => {}
    | some top =>
        match Json.field top (str "error") with
        | some (.object errorObj) =>
            { reason := firstErrorReason errorObj
              message := (getString errorObj (str "message")).getD []
              detailReason :=
                match Json.field errorObj (str "details") with
                | some (.array details) => detailReasonOf details
                | _ => [] }
        | _ => {}

-- =========================================================== Retry-After

def isBlank (c : UInt8) : Bool := c == 32 || c == 9

def trimBlanks (s : Str) : Str :=
  ((s.dropWhile isBlank).reverse.dropWhile isBlank).reverse

/-- The seconds form of a Retry-After header; an HTTP-date or garbage is 0.
`strtol` stops at the largest `long`, and the cast to `int` keeps the low
32 bits. -/
def parseRetryAfterSeconds (header : Str) : Int :=
  let trimmed := trimBlanks header
  if trimmed.isEmpty || !trimmed.all isDigit then 0
  else Int.bmod (min (digitsValue 0 trimmed) (2 ^ 63 - 1) : Nat) (2 ^ 32)

-- ============================================================== classifier

def classifyFromReason (reason : Str) : GDriveErrorKind :=
  if reason = str "notFound" then .notFound
  else if reason = str "authError" ∨ reason = str "required" then .unauthenticated
  else if reason = str "insufficientPermissions" ∨
      reason = str "insufficientFilePermissions" then .permissionDenied
  else if reason = str "storageQuotaExceeded" then .storageQuota
  else if reason = str "rateLimitExceeded" ∨ reason = str "userRateLimitExceeded" then
    .rateLimit
  else if reason = str "fileNotDownloadable" ∨ reason = str "cannotDownloadAbusiveFile" then
    .notDownloadable
  else if reason = str "invalidParameter" ∨ reason = str "invalid" then .invalidRequest
  else .unknown

def classifyFromStatus (httpStatus : Nat) : GDriveErrorKind :=
  if httpStatus = 404 then .notFound
  else if httpStatus = 401 then .unauthenticated
  else if httpStatus = 400 then .invalidRequest
  else if httpStatus = 429 then .rateLimit
  else if 500 ≤ httpStatus ∧ httpStatus < 600 then .transient
  else .unknown

/-- The kind of a reply with this status and body. -/
def classifyKind (httpStatus : Nat) (parsed : ParsedBody) : GDriveErrorKind :=
  -- Checked first: `errors[0].reason` is shared with a sharing denial.
  if parsed.detailReason = str "ACCESS_TOKEN_SCOPE_INSUFFICIENT" then .insufficientScope
  else if httpStatus = 429 then .rateLimit
  else if parsed.reason ≠ [] ∧ classifyFromReason parsed.reason ≠ .unknown then
    classifyFromReason parsed.reason
  else classifyFromStatus httpStatus

def classifyDriveError (pj : Picojson) (httpStatus : Nat) (body retryAfterHeader : Str) :
    GDriveError :=
  let parsed := parseErrorBody pj body
  { kind := classifyKind httpStatus parsed
    httpStatus
    reason := parsed.reason
    message := parsed.message
    retryAfterSeconds := parseRetryAfterSeconds retryAfterHeader }

/-- Could a retry succeed without the user doing anything? -/
def GDriveError.isRetryable (error : GDriveError) : Bool :=
  error.kind = .rateLimit ∨ error.kind = .transient

theorem classifyFromReason_unauthenticated {reason : Str} :
    classifyFromReason reason = .unauthenticated ↔
      reason = str "authError" ∨ reason = str "required" := by
  have hne : str "authError" ≠ str "notFound" ∧ str "required" ≠ str "notFound" := by decide
  unfold classifyFromReason
  constructor
  · intro h
    by_cases h₁ : reason = str "notFound"
    · rw [if_pos h₁] at h
      cases h
    · rw [if_neg h₁] at h
      by_cases h₂ : reason = str "authError" ∨ reason = str "required"
      · exact h₂
      · rw [if_neg h₂] at h
        repeat (split at h; · cases h)
        cases h
  · intro h
    have h₁ : reason ≠ str "notFound" := by
      rcases h with rfl | rfl
      · exact hne.1
      · exact hne.2
    rw [if_neg h₁, if_pos h]

/-- When a reply counts as unauthenticated: a 401 whose reason says nothing
else, or one of the two reasons under any status but 429. -/
theorem classifyKind_unauthenticated {httpStatus : Nat} {parsed : ParsedBody} :
    classifyKind httpStatus parsed = .unauthenticated ↔
      parsed.detailReason ≠ str "ACCESS_TOKEN_SCOPE_INSUFFICIENT" ∧ httpStatus ≠ 429 ∧
        ((parsed.reason = str "authError" ∨ parsed.reason = str "required") ∨
          (httpStatus = 401 ∧
            (parsed.reason = [] ∨ classifyFromReason parsed.reason = .unknown))) := by
  have hstatus : classifyFromStatus httpStatus = .unauthenticated ↔ httpStatus = 401 := by
    unfold classifyFromStatus
    constructor
    · intro h
      by_cases h' : httpStatus = 401
      · exact h'
      · rw [if_neg h'] at h
        repeat (split at h; · cases h)
        cases h
    · rintro rfl
      rfl
  unfold classifyKind
  by_cases hd : parsed.detailReason = str "ACCESS_TOKEN_SCOPE_INSUFFICIENT"
  · simp [hd]
  · by_cases hr : httpStatus = 429
    · simp [hd, hr]
    · rw [if_neg hd, if_neg hr]
      by_cases hc : parsed.reason ≠ [] ∧ classifyFromReason parsed.reason ≠ .unknown
      · rw [if_pos hc, classifyFromReason_unauthenticated]
        constructor
        · intro h
          exact ⟨hd, hr, .inl h⟩
        · intro h
          rcases h.2.2 with h | h
          · exact h
          · rcases h.2 with h' | h'
            · exact absurd h' hc.1
            · exact absurd h' hc.2
      · rw [if_neg hc, hstatus]
        constructor
        · intro h
          refine ⟨hd, hr, .inr ⟨h, ?_⟩⟩
          by_cases hn : parsed.reason = []
          · exact .inl hn
          · exact .inr (Decidable.byContradiction fun hu => hc ⟨hn, hu⟩)
        · intro h
          rcases h.2.2 with h | h
          · refine absurd ⟨?_, ?_⟩ hc
            · rcases h with h | h <;> rw [h] <;> decide
            · rw [classifyFromReason_unauthenticated.mpr h]
              decide
          · exact h.1

end GDrive
