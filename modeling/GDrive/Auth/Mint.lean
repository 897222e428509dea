/-
Obtaining access tokens, as programs (gdrive_auth.cpp,
gdrive_service_account_duckdb.cpp, gdrive_credential_file.hpp).

# The outside

`AuthReq` is everything that the authentication code asks of anything but
itself: the clock, files, settings and the environment, the secret manager,
the token endpoints, the browser flow, and the map of tokens that the whole
process shares, one request for each critical section.

# The grants

A `Credential` is what a mint function has captured. `Credential.mint` is that
function: the forms of TokenRequests, one after another, and a text for
everything that can go wrong on the way.

The signature and the number in `expires_in` are not of this repository:
`sign` and `expiresIn` are parameters.
-/
import Mathlib.Data.List.DropRight
import GDrive.Auth.Credentials
import GDrive.Auth.TokenThreads
import GDrive.Client.Wire
import GDrive.Interaction.Program

namespace GDrive

open Interaction

-- ==================================================================== the outside

structure TokenReply where
  status : Nat
  body : Str

/-- What `stat` tells of a file. -/
structure FileStat where
  regular : Bool
  size : Nat
  mtime : Int
  ctime : Int
  ino : Nat
  deriving DecidableEq

/-- What of the browser flow's configuration is not a constant. -/
structure OAuth2Config where
  clientId : Str
  clientSecret : Str
  scope : Str
  redirectUri : Str
  deriving DecidableEq

structure OAuth2Tokens where
  accessToken : Str
  refreshToken : Str
  expiresIn : Int

/-- A secret of DuckDB's: a field may be NULL. -/
structure KeyValueSecret where
  name : Str
  provider : Str
  fields : List (Str × Option Str)

/-- What `LookupSecret` finds for a path. -/
inductive SecretMatch
  /-- There is no secret manager, or no transaction. -/
  | noContext
  | noMatch
  | otherKind (name : Str)
  | keyValue (kv : KeyValueSecret)

inductive AuthReq
  | now
  | lookupSecret (path : Str)
  | hasAnySecret
  | clientContext
  | maxAgeSetting
  | adcFileSetting
  | getenv (name : Str)
  | stat (path : Str)
  | readFile (path : Str)
  | post (p : TokenPost)
  | consent (config : OAuth2Config)
  | updateSecret (secretName accessToken : Str) (expiresIn : Int) (refreshToken : Str)
  -- The critical sections of the shared maps.
  | seed (cacheKey token : Str)
  | tryFresh (cacheKey : Str) (maxAgeSeconds : Int)
  | cachedToken (cacheKey : Str)
  | lockMint (cacheKey : Str)
  | unlockMint (cacheKey : Str)
  | afterRejection (cacheKey rejected : Str) (maxAgeSeconds : Int) (canMint : Bool)
  | recallFailure (cacheKey : Str)
  | countMint (cacheKey : Str)
  | rememberFailure (cacheKey : Str) (error : Exn)
  | store (cacheKey : Str) (token : CachedTokenState)

abbrev Auth : Sig where
  Req := AuthReq
  Ans
    | .now => Int
    | .lookupSecret _ => SecretMatch
    | .hasAnySecret => Bool
    | .clientContext => Bool
    | .maxAgeSetting => Option Int64
    | .adcFileSetting => Option Str
    | .getenv _ => Option Str
    | .stat _ => Option FileStat
    | .readFile _ => Option Str
    | .post _ => Option TokenReply
    | .consent _ => Except Str OAuth2Tokens
    | .updateSecret _ _ _ _ => Except Exn Unit
    | .seed _ _ => Unit
    | .tryFresh _ _ => Option Str
    | .cachedToken _ => Str
    | .lockMint _ => Unit
    | .unlockMint _ => Unit
    | .afterRejection _ _ _ _ => RejectionAction × Str
    | .recallFailure _ => Option Exn
    | .countMint _ => Unit
    | .rememberFailure _ _ => Unit
    | .store _ _ => Unit

-- ====================================================================== files

def kMaxCredentialFileBytes : Nat := 1024 * 1024

/-- `ReadCredentialFile`: nothing but a regular file of at most one MiB is read,
and no more of it than it had when it was looked at. -/
def readCredentialFile (path : Str) : Prog Auth (Except Str Str) :=
  .ask (.stat path) fun st : Option FileStat =>
    match st with
    | none => .ret (.error (str "not found or not readable"))
    | some st =>
        if !st.regular then .ret (.error (str "not a regular file"))
        else if kMaxCredentialFileBytes < st.size then
          .ret (.error (str "larger than 1 MiB, so not a credential file"))
        else
          .ask (.readFile path) fun bytes : Option Str =>
            match bytes with
            | none => .ret (.error (str "not found or not readable"))
            | some bytes => .ret (.ok (bytes.take st.size))

/-- `KeyFileStamp`, of what `stat` has told. -/
def keyFileStamp (keyFile : Str) (st : Option FileStat) : Str :=
  match st with
  | none => keyFile
  | some st =>
      keyFile ++ str ":" ++ decimal st.size ++ str ":" ++ signedDecimal st.mtime ++ str ":"
        ++ signedDecimal st.ctime ++ str ":" ++ decimal st.ino

-- ==================================================================== replies

/-- `RefreshTokenResponse`, `TokenResponse`. -/
structure TokenResponse where
  parsedOk : Bool := false
  accessToken : Str := []
  expiresIn : Int := 0
  /-- The machine's word for a failure, and the prose. -/
  error : Str := []
  errorDescription : Str := []

/-- A token that was minted. -/
structure MintedToken where
  accessToken : Str
  expiresAtUnix : Int

section Mint

variable (pj : Picojson) (expiresIn : Str → Int) (sign : Str → Str → Str)

/-- `ParseRefreshTokenResponse`, `ParseTokenResponse`. -/
def parseTokenResponse (body : Str) : TokenResponse :=
  match pj.parseObject body with
  | none => {}
  | some obj =>
      { parsedOk := true
        accessToken := findString obj (str "access_token")
        expiresIn := expiresIn body
        error := findString obj (str "error")
        errorDescription := findString obj (str "error_description") }

/-- A text in brackets of an error, where there is one. -/
def withDetail (detail : Str) : Str := if detail.isEmpty then [] else str ": " ++ detail

/-- The token of a 200. -/
def grantedToken (parsed : TokenResponse) (nowUnix : Int) : Option MintedToken :=
  if !parsed.parsedOk || parsed.accessToken.isEmpty then none
  else
    some
      { accessToken := parsed.accessToken
        expiresAtUnix := nowUnix + (if 0 < parsed.expiresIn then parsed.expiresIn else 3600) }

def noAccessToken : Str :=
  str "Google token endpoint response did not contain an access_token"

def noTokenReply (tokenUri : Str) : Str :=
  str "no response from the Google token endpoint (" ++ tokenUri
    ++ str "); check network connectivity"

-- ============================================================== a refresh token

/-- Both fields where both are there. -/
def refreshDetail (parsed : TokenResponse) : Str :=
  if !parsed.error.isEmpty && !parsed.errorDescription.isEmpty then
    parsed.error ++ str ": " ++ parsed.errorDescription
  else if !parsed.errorDescription.isEmpty then parsed.errorDescription
  else parsed.error

def invalidGrantHint : Str :=
  str "\n\nThe refresh token is no longer valid. Google revokes one when access is withdrawn, when the OAuth client is deleted, or after ~6 months unused while the project is still in \"Testing\" publishing status. Obtain a new one (for this repo, `make oauth_consent`) and recreate the secret. A service-account key does not expire this way."

def refreshResult (nowUnix : Int) (reply : TokenReply) : Except Str MintedToken :=
  let parsed := parseTokenResponse pj expiresIn reply.body
  if reply.status = 200 then (grantedToken parsed nowUnix).elim (.error noAccessToken) .ok
  else
    .error (str "Google token endpoint returned HTTP " ++ decimal reply.status
      ++ withDetail (refreshDetail parsed)
      ++ (if parsed.error = str "invalid_grant" then invalidGrantHint else []))

/-- `RefreshUserToken`. -/
def refreshUserToken (clientId clientSecret refreshToken : Str) (nowUnix : Int) :
    Prog Auth (Except Str MintedToken) :=
  match splitUrl googleTokenUrl with
  | none => .ret (.error (str "internal error: GOOGLE_TOKEN_URL is not a valid URL"))
  | some endpoint =>
      .ask (.post (refreshPost endpoint clientId clientSecret refreshToken))
        fun reply : Option TokenReply =>
          match reply with
          | none => .ret (.error (noTokenReply googleTokenUrl))
          | some reply => .ret (refreshResult pj expiresIn nowUnix reply)

-- =========================================================== a service account

def assertionResult (nowUnix : Int) (reply : TokenReply) : Except Str MintedToken :=
  let parsed := parseTokenResponse pj expiresIn reply.body
  if reply.status = 200 then (grantedToken parsed nowUnix).elim (.error noAccessToken) .ok
  else
    .error (str "Google token endpoint returned HTTP " ++ decimal reply.status
      ++ withDetail
        (if parsed.errorDescription.isEmpty then parsed.error else parsed.errorDescription))

/-- `MintServiceAccountToken`. -/
def mintServiceAccountToken (key : ServiceAccountDocument) (scope subject : Str) (nowUnix : Int) :
    Prog Auth (Except Str MintedToken) :=
  let parts := buildAssertionParts key.toServiceAccountKey scope nowUnix 3600 subject
  if !parts.ok then .ret (.error parts.error)
  else if (sign parts.signingInput key.privateKey).isEmpty then
    .ret (.error (str "failed to RS256-sign the service-account assertion (check the private_key is a valid PEM RSA key)"))
  else
    let assertion := parts.signingInput ++ str "."
      ++ base64UrlEncode (sign parts.signingInput key.privateKey)
    let tokenUri := if key.tokenUri.isEmpty then googleTokenUrl else key.tokenUri
    match splitUrl tokenUri with
    | none => .ret (.error (str "service-account token_uri is not a valid URL"))
    | some endpoint =>
        .ask (.post (assertionPost endpoint assertion)) fun reply : Option TokenReply =>
          match reply with
          | none => .ret (.error (noTokenReply tokenUri))
          | some reply => .ret (assertionResult pj expiresIn nowUnix reply)

-- ============================================================ workload identity

/-- Line ends behind a token do not belong to it. -/
def trimLineEnds (s : Str) : Str := s.rdropWhile fun c => c == 10 || c == 13

/-- What the STS answers: the federated token. -/
def federatedResult (reply : TokenReply) : Except Str Str :=
  let parsed := parseTokenResponse pj expiresIn reply.body
  if reply.status = 200 then
    if !parsed.parsedOk || parsed.accessToken.isEmpty then
      .error (str "the STS response contained no access_token")
    else .ok parsed.accessToken
  else
    .error (str "STS token exchange returned HTTP " ++ decimal reply.status
      ++ withDetail
        (if parsed.errorDescription.isEmpty then parsed.error else parsed.errorDescription)
      ++ str "\n\nA rejected subject token usually means the audience does not match the workload identity pool provider this token was minted for.")

/-- The impersonation's answer has names of its own. -/
def impersonationResult (nowUnix : Int) (reply : TokenReply) : Except Str MintedToken :=
  if reply.status = 200 then
    match pj.parseObject reply.body with
    | none => .error (str "the impersonation response was not valid JSON")
    | some obj =>
        match getString obj (str "accessToken") with
        | none => .error (str "the impersonation response contained no accessToken")
        | some token => .ok ⟨token, nowUnix + 3600⟩
  else
    .error (str "service-account impersonation returned HTTP " ++ decimal reply.status
      ++ str "\n\nThe federated principal needs roles/iam.workloadIdentityUser on the service account it impersonates.")

/-- The second hop, with the federated token. -/
def impersonate (ext : AdcExternalAccount) (scope federatedToken : Str) (nowUnix : Int) :
    Prog Auth (Except Str MintedToken) :=
  if ext.serviceAccountImpersonationUrl.isEmpty then
    .ret (.error (str "these credentials federate an identity but name no service_account_impersonation_url, so no token can carry the Drive scope. Add a service account to the credential configuration."))
  else
    match splitUrl ext.serviceAccountImpersonationUrl with
    | none =>
        .ret (.error (str "the credentials name an unusable service_account_impersonation_url"))
    | some endpoint =>
        .ask (.post (impersonationPost pj endpoint federatedToken scope))
          fun reply : Option TokenReply =>
            match reply with
            | none =>
                .ret (.error (str "no response from the service-account impersonation endpoint ("
                  ++ ext.serviceAccountImpersonationUrl ++ str "); check network connectivity"))
            | some reply => .ret (impersonationResult pj nowUnix reply)

/-- The first hop, with the subject token. -/
def exchangeSubjectToken (ext : AdcExternalAccount) (scope subjectToken : Str) (nowUnix : Int) :
    Prog Auth (Except Str MintedToken) :=
  match splitUrl ext.tokenUrl with
  | none => .ret (.error (str "the credentials name an unusable token_url"))
  | some endpoint =>
      .ask (.post (exchangePost endpoint ext subjectToken)) fun reply : Option TokenReply =>
        match reply with
        | none =>
            .ret (.error (str "no response from the STS endpoint (" ++ ext.tokenUrl
              ++ str "); check network connectivity"))
        | some reply =>
            match federatedResult pj expiresIn reply with
            | .error e => .ret (.error e)
            | .ok federatedToken => impersonate pj ext scope federatedToken nowUnix

/-- `ExchangeExternalAccountToken`. The subject token is read every time. -/
def exchangeExternalAccountToken (ext : AdcExternalAccount) (scope : Str) (nowUnix : Int) :
    Prog Auth (Except Str MintedToken) :=
  (readCredentialFile ext.subjectTokenPath).bind fun subject =>
    match subject with
    | .error why =>
        .ret (.error (str "no workload-identity token at '" ++ ext.subjectTokenPath ++ str "' ("
          ++ why
          ++ str "). This path is written by the platform (a projected service-account token, on Kubernetes); if it is absent the workload is not federated."))
    | .ok contents =>
        if (trimLineEnds contents).isEmpty then
          .ret (.error (str "the workload-identity token at '" ++ ext.subjectTokenPath
            ++ str "' is empty"))
        else exchangeSubjectToken pj expiresIn ext scope (trimLineEnds contents) nowUnix

-- ================================================================ mint functions

/-- What a mint function has captured. -/
inductive Credential
  /-- Of `RefreshGrantMint`. -/
  | refreshGrant (clientId clientSecret refreshToken : Str)
  | keyFile (key : ServiceAccountDocument) (scope : Str)
  | adc (doc : AdcDocument) (adcPath scope : Str)

/-- A token is cached, a failure is thrown with the secret's name in it. -/
def mintedOrThrown (message : Str → Str) : Except Str MintedToken → Except Exn CachedTokenState
  | .ok minted => .ok ⟨minted.accessToken, minted.expiresAtUnix, 0⟩
  | .error e => .error (.io (message e))

def secretPrefix (secretName : Str) : Str := str "gdrive secret '" ++ secretName ++ str "': "

/-- The text that a failed mint is thrown with. -/
def Credential.failure (secretName : Str) : Credential → Str → Str
  | .refreshGrant _ _ _, e =>
      secretPrefix secretName ++ str "failed to refresh an access token from Google: " ++ e
  | .keyFile _ _, e =>
      secretPrefix secretName ++ str "failed to obtain an access token from Google: " ++ e
  | .adc (.authorizedUser _ _ _ _) adcPath _, e =>
      secretPrefix secretName ++ str "failed to refresh an access token from the credentials at '"
        ++ adcPath ++ str "': " ++ e
        ++ str "\n\nIf this credential was revoked, re-run `gcloud auth application-default login`."
  | .adc (.serviceAccount _) adcPath _, e =>
      secretPrefix secretName
        ++ str "failed to obtain an access token using the service-account credentials at '"
        ++ adcPath ++ str "': " ++ e
  | .adc (.externalAccount _) adcPath _, e =>
      secretPrefix secretName
        ++ str "failed to obtain an access token from the workload-identity credentials at '"
        ++ adcPath ++ str "': " ++ e

/-- The exchange of a credential at a time. No provider impersonates a user. -/
def Credential.exchange (nowUnix : Int) : Credential → Prog Auth (Except Str MintedToken)
  | .refreshGrant clientId clientSecret refreshToken =>
      refreshUserToken pj expiresIn clientId clientSecret refreshToken nowUnix
  | .keyFile key scope => mintServiceAccountToken pj expiresIn sign key scope [] nowUnix
  | .adc (.authorizedUser clientId clientSecret refreshToken _) _ _ =>
      refreshUserToken pj expiresIn clientId clientSecret refreshToken nowUnix
  | .adc (.serviceAccount key) _ scope =>
      mintServiceAccountToken pj expiresIn sign key scope [] nowUnix
  | .adc (.externalAccount ext) _ scope =>
      exchangeExternalAccountToken pj expiresIn ext scope nowUnix

/-- The mint function. -/
def Credential.mint (secretName : Str) (c : Credential) :
    Prog Auth (Except Exn CachedTokenState) :=
  .ask .now fun nowUnix : Int =>
    (c.exchange pj expiresIn sign nowUnix).bind fun r =>
      .ret (mintedOrThrown (c.failure secretName) r)

end Mint

end GDrive
