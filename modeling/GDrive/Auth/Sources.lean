/-
Token sources, and the contexts that are built around them (gdrive_auth.cpp),
as programs.

# Sources

A `CachedTokenSource` is known by its cache key, which is kept here with what
it was made of. `token` and `refresh` are its two operations: critical sections
on the process's map, the key's mint lock around a mint, and what a mint came
to written down for everybody else.

# Contexts

`getAuthContext` is what opening a path begins with: the secret for the path,
its identity, the source that its provider builds, and a first token. Each
provider has a program of its own. The browser flow is one request.
-/
import GDrive.Auth.Identity
import GDrive.Auth.Mint
import GDrive.Auth.TokenPolicy

namespace GDrive

open Interaction

-- ====================================================================== sources

/-- What a cache key is made of. -/
structure Slot where
  secretName : Str
  provider : Str
  material : List Str
  deriving DecidableEq

structure CachedTokenSource where
  slot : Slot
  /-- Where the hashed text was, for a hash function that fails. -/
  address : Nat
  mint : Option Credential
  maxAgeSeconds : Int

inductive GDriveTokenSource
  /-- `StaticTokenSource`. -/
  | static (token : Str)
  | cached (src : CachedTokenSource)

structure GDriveAuthContext where
  tokens : GDriveTokenSource
  driveId : Str
  rootFolderId : Str
  scope : Str
  secretName : Str
  identity : Str := []
  quotaProjectId : Str := []

section Sources

variable (pj : Picojson) (expiresIn : Str → Int) (sign : Str → Str → Str)
  (sha256 : Str → Option Str)

def CachedTokenSource.cacheKey (src : CachedTokenSource) : Str :=
  fingerprintKey sha256 src.address src.slot.secretName src.slot.provider src.slot.material

/-- The mint lock around what may mint. -/
def underMintLock (cacheKey : Str) (body : Prog Auth (Except Exn Str)) :
    Prog Auth (Except Exn Str) :=
  .ask (.lockMint cacheKey) fun _ =>
    body.bind fun r => .ask (.unlockMint cacheKey) fun _ => .ret r

namespace CachedTokenSource

/-- `MintAndStore`: a failure that is remembered is thrown again. -/
def mintAndStore (src : CachedTokenSource) (c : Credential) : Prog Auth (Except Exn Str) :=
  .ask (.recallFailure (src.cacheKey sha256)) fun failure : Option Exn =>
    match failure with
    | some e => .ret (.error e)
    | none =>
        .ask (.countMint (src.cacheKey sha256)) fun _ =>
          (c.mint pj expiresIn sign src.slot.secretName).bind fun r =>
            match r with
            | .error e =>
                .ask (.rememberFailure (src.cacheKey sha256) e) fun _ => .ret (.error e)
            | .ok minted =>
                .ask .now fun nowUnix : Int =>
                  .ask (.store (src.cacheKey sha256) { minted with mintedAtUnix := nowUnix })
                    fun _ => .ret (.ok minted.accessToken)

/-- `Token`, under the mint lock. -/
def tokenOrMint (src : CachedTokenSource) (c : Credential) : Prog Auth (Except Exn Str) :=
  .ask (.tryFresh (src.cacheKey sha256) src.maxAgeSeconds) fun cached : Option Str =>
    match cached with
    | some token => .ret (.ok token)
    | none => src.mintAndStore pj expiresIn sign sha256 c

/-- `Token`. With nothing to mint with, what there is is handed out. -/
def token (src : CachedTokenSource) : Prog Auth (Except Exn Str) :=
  .ask (.tryFresh (src.cacheKey sha256) src.maxAgeSeconds) fun cached : Option Str =>
    match cached with
    | some token => .ret (.ok token)
    | none =>
        match src.mint with
        | none => .ask (.cachedToken (src.cacheKey sha256)) fun token : Str => .ret (.ok token)
        | some c =>
            underMintLock (src.cacheKey sha256) (src.tokenOrMint pj expiresIn sign sha256 c)

/-- `Refresh`, under the mint lock. Without a mint function the decision is
never to mint. -/
def reuseOrMint (src : CachedTokenSource) (rejected : Str) : Prog Auth (Except Exn Str) :=
  .ask (.afterRejection (src.cacheKey sha256) rejected src.maxAgeSeconds src.mint.isSome)
    fun decided : RejectionAction × Str =>
      match decided.1, src.mint with
      | .reuseCached, _ => .ret (.ok decided.2)
      | .giveUp, _ => .ret (.ok [])
      | .mint, some c => src.mintAndStore pj expiresIn sign sha256 c
      | .mint, none => .ret (.error (.io (str "bad_function_call")))

/-- `Refresh`. -/
def refresh (src : CachedTokenSource) (rejected : Str) : Prog Auth (Except Exn Str) :=
  underMintLock (src.cacheKey sha256) (src.reuseOrMint pj expiresIn sign sha256 rejected)

/-- The constructor; a seed is a pasted token. -/
def construct (src : CachedTokenSource) (seed : Str) : Prog Auth Unit :=
  if seed.isEmpty then .ret () else .ask (.seed (src.cacheKey sha256) seed) fun _ => .ret ()

end CachedTokenSource

namespace GDriveTokenSource

/-- `Token`. -/
def token : GDriveTokenSource → Prog Auth (Except Exn Str)
  | .static token => .ret (.ok token)
  | .cached src => src.token pj expiresIn sign sha256

/-- `Refresh`. -/
def refresh (rejected : Str) : GDriveTokenSource → Prog Auth (Except Exn Str)
  | .static _ => .ret (.ok [])
  | .cached src => src.refresh pj expiresIn sign sha256 rejected

end GDriveTokenSource

-- ===================================================================== contexts

/-- `GetOrEmpty`; a secret's fields have names of any case. -/
def KeyValueSecret.getOrEmpty (kv : KeyValueSecret) (key : Str) : Str :=
  ((kv.fields.find? fun f => f.1.map toLower = key).bind (·.2)).getD []

def scopeDriveReadonly : Str := str "https://www.googleapis.com/auth/drive.readonly"

/-- The scope of a secret, by default the narrowest one. -/
def KeyValueSecret.driveScope (kv : KeyValueSecret) : Str :=
  if (kv.getOrEmpty (str "drive_scope")).isEmpty then scopeDriveReadonly
  else kv.getOrEmpty (str "drive_scope")

def KeyValueSecret.context (kv : KeyValueSecret) (tokens : GDriveTokenSource)
    (quotaProjectId : Str) : GDriveAuthContext where
  tokens
  driveId := kv.getOrEmpty (str "drive_id")
  rootFolderId := kv.getOrEmpty (str "root_folder_id")
  scope := kv.driveScope
  secretName := kv.name
  quotaProjectId

/-- A first token, eagerly: bad credentials fail here. -/
def openContext (ctx : GDriveAuthContext) : Prog Auth (Except Exn GDriveAuthContext) :=
  (ctx.tokens.token pj expiresIn sign sha256).bind fun r => .ret (r.map fun _ => ctx)

-- -------------------------------------------------------------- service_account

/-- What `ReadFileOrThrow` throws. -/
def keyFileError (secretName keyFile why : Str) : Exn :=
  .io (secretPrefix secretName ++ str "service-account key file "
    ++ (if why = str "not found or not readable" then why else str "cannot be used, " ++ why)
    ++ str ": '" ++ keyFile
    ++ str "'. Check the KEY_FILE path, or recreate the secret, e.g.:\n  CREATE SECRET "
    ++ secretName
    ++ str " (TYPE gdrive, PROVIDER service_account, KEY_FILE '/etc/creds/sa.json');")

/-- `BuildContextFromServiceAccount`. The key file is looked at for the cache
key, then read and parsed; the source keeps the parsed key. -/
def buildContextFromServiceAccount (kv : KeyValueSecret) (maxAgeSeconds : Int) (address : Nat) :
    Prog Auth (Except Exn GDriveAuthContext) :=
  let keyFile := kv.getOrEmpty (str "key_file")
  if keyFile.isEmpty then
    .ret (.error (.invalidInput (str "gdrive secret '" ++ kv.name
      ++ str "' (PROVIDER service_account) is missing KEY_FILE.")))
  else
    .ask (.stat keyFile) fun st : Option FileStat =>
      (readCredentialFile keyFile).bind fun contents =>
        match contents with
        | .error why => .ret (.error (keyFileError kv.name keyFile why))
        | .ok keyJson =>
            match parseServiceAccountKey pj keyJson with
            | .error e =>
                .ret (.error (.invalidInput (secretPrefix kv.name
                  ++ str "invalid service-account key file '" ++ keyFile ++ str "': " ++ e)))
            | .ok key =>
                openContext pj expiresIn sign sha256 (kv.context (.cached
                  { slot :=
                      { secretName := kv.name
                        provider := str "service_account"
                        material :=
                          [keyFileStamp keyFile st, kv.driveScope,
                            kv.getOrEmpty (str "subject")] }
                    address
                    mint := some (.keyFile key kv.driveScope)
                    maxAgeSeconds }) [])

-- ------------------------------------------------------------- credential_chain

/-- `GetEnvOrEmpty`. -/
def getEnvOrEmpty (name : Str) : Prog Auth Str :=
  .ask (.getenv name) fun value : Option Str => .ret (value.getD [])

/-- `ResolveChainAdcPath`: the setting outranks the environment. -/
def resolveChainAdcPath : Prog Auth Str :=
  .ask .adcFileSetting fun setting : Option Str =>
    if !(setting.getD []).isEmpty then .ret (setting.getD [])
    else
      (getEnvOrEmpty (str "GOOGLE_APPLICATION_CREDENTIALS")).bind fun credentials =>
        (getEnvOrEmpty (str "CLOUDSDK_CONFIG")).bind fun config =>
          (getEnvOrEmpty (str "HOME")).bind fun home =>
            (getEnvOrEmpty (str "APPDATA")).bind fun appdata =>
              .ret (resolveAdcPath ⟨credentials, config, home, appdata⟩)

/-- Drive wants a project of a user's credentials, and of nobody else's. -/
def AdcDocument.quotaProject : AdcDocument → Str
  | .authorizedUser _ _ _ quotaProjectId => quotaProjectId
  | _ => []

def AdcDocument.lacksQuotaProject : AdcDocument → Bool
  | .authorizedUser _ _ _ quotaProjectId => quotaProjectId.isEmpty
  | _ => false

/-- `BuildContextFromCredentialChain`. The document is read, then looked at for
the cache key. -/
def buildContextFromCredentialChain (kv : KeyValueSecret) (maxAgeSeconds : Int) (address : Nat) :
    Prog Auth (Except Exn GDriveAuthContext) :=
  resolveChainAdcPath.bind fun adcPath =>
    if adcPath.isEmpty then
      .ret (.error (.io (secretPrefix kv.name ++ noCredentialsMessage)))
    else
      (readCredentialFile adcPath).bind fun contents =>
        match contents with
        | .error why =>
            .ret (.error (.io (secretPrefix kv.name ++ str "no usable credentials file at '"
              ++ adcPath ++ str "' (" ++ why ++ str ").\n\n" ++ noCredentialsMessage)))
        | .ok adcJson =>
            match parseAdcJson pj adcJson with
            | .error e =>
                .ret (.error (.invalidInput (secretPrefix kv.name ++ str "credentials file '"
                  ++ adcPath ++ str "' is unusable: " ++ e)))
            | .ok doc =>
                if doc.lacksQuotaProject then
                  .ret (.error (.io (secretPrefix kv.name ++ str "the credentials at '" ++ adcPath
                    ++ str "' name no quota project, and Drive refuses a user credential without one. Set it with:\n  gcloud auth application-default set-quota-project <PROJECT_ID>\nor use a service-account key, which carries its own project association\n  CREATE SECRET (TYPE gdrive, PROVIDER service_account, KEY_FILE '/path/to/key.json');")))
                else
                  .ask (.stat adcPath) fun st : Option FileStat =>
                    openContext pj expiresIn sign sha256 (kv.context (.cached
                      { slot :=
                          { secretName := kv.name
                            provider := str "credential_chain"
                            material := [keyFileStamp adcPath st, kv.driveScope] }
                        address
                        mint := some (.adc doc adcPath kv.driveScope)
                        maxAgeSeconds }) doc.quotaProject)

-- ------------------------------------------------------------------------ config

/-- What there is to say where a token can neither be used nor minted. -/
def unusableConfig (secretName : Str) : Exn :=
  .invalidInput (str "gdrive secret '" ++ secretName
    ++ str "' (PROVIDER config) has no usable ACCESS_TOKEN, and refreshing needs all three of REFRESH_TOKEN, CLIENT_ID and CLIENT_SECRET (at least one is missing). Recreate it with either a fresh token:\n  CREATE SECRET "
    ++ secretName
    ++ str " (TYPE gdrive, PROVIDER config, ACCESS_TOKEN '...');\nor a refreshable one:\n  CREATE SECRET "
    ++ secretName
    ++ str " (TYPE gdrive, PROVIDER config, CLIENT_ID '...', CLIENT_SECRET '...', REFRESH_TOKEN '...');")

/-- `BuildContextFromConfig`. A pasted token is part of the key that it is the
seed of. -/
def buildContextFromConfig (kv : KeyValueSecret) (maxAgeSeconds : Int) (address : Nat) :
    Prog Auth (Except Exn GDriveAuthContext) :=
  let accessToken := kv.getOrEmpty (str "access_token")
  let refreshToken := kv.getOrEmpty (str "refresh_token")
  let clientId := kv.getOrEmpty (str "client_id")
  let clientSecret := kv.getOrEmpty (str "client_secret")
  let canRefresh := !refreshToken.isEmpty && !clientId.isEmpty && !clientSecret.isEmpty
  let source (material : List Str) : CachedTokenSource :=
    { slot := ⟨kv.name, str "config", material⟩
      address
      mint := some (.refreshGrant clientId clientSecret refreshToken)
      maxAgeSeconds }
  if !accessToken.isEmpty then
    if !canRefresh then
      openContext pj expiresIn sign sha256 (kv.context (.static accessToken) [])
    else
      let src := source [clientId, clientSecret, refreshToken, accessToken]
      (src.construct sha256 accessToken).bind fun _ =>
        openContext pj expiresIn sign sha256 (kv.context (.cached src) [])
  else if !canRefresh then .ret (.error (unusableConfig kv.name))
  else
    openContext pj expiresIn sign sha256
      (kv.context (.cached (source [clientId, clientSecret, refreshToken])) [])

-- ----------------------------------------------------------- authorization_code

/-- Can a browser be launched? Only a POSIX desktop tells. -/
def canLaunchBrowser (posixNonApple : Bool) (display waylandDisplay : Str) : Bool :=
  !posixNonApple || !display.isEmpty || !waylandDisplay.isEmpty

def noBrowserMessage : Str :=
  str "no browser is available on this machine (neither DISPLAY nor WAYLAND_DISPLAY is set), so the interactive consent flow cannot run.\nUse a provider that needs no browser:\n  CREATE SECRET (TYPE gdrive, PROVIDER credential_chain);\n    -- uses `gcloud auth application-default login`, run on a machine that has one\n  CREATE SECRET (TYPE gdrive, PROVIDER service_account, KEY_FILE '/path/to/key.json');\nOr complete the consent flow on a desktop machine and copy the resulting refresh token into a PROVIDER config secret."

/-- The flow's configuration for a secret; the endpoints are constants. -/
def KeyValueSecret.consentConfig (kv : KeyValueSecret) : OAuth2Config where
  clientId := kv.getOrEmpty (str "client_id")
  clientSecret := kv.getOrEmpty (str "client_secret")
  scope := kv.driveScope
  redirectUri :=
    str "http://localhost:"
      ++ (if (kv.getOrEmpty (str "redirect_port")).isEmpty then str "8020"
        else kv.getOrEmpty (str "redirect_port"))

/-- The source of an authorization_code secret with a refresh token or none. -/
def KeyValueSecret.consentSource (kv : KeyValueSecret) (refreshToken : Str) (maxAgeSeconds : Int)
    (address : Nat) : CachedTokenSource where
  slot :=
    { secretName := kv.name
      provider := str "authorization_code"
      material :=
        [kv.getOrEmpty (str "client_id"), kv.getOrEmpty (str "client_secret"), kv.driveScope,
          refreshToken] }
  address
  mint :=
    if refreshToken.isEmpty then none
    else
      some (.refreshGrant (kv.getOrEmpty (str "client_id")) (kv.getOrEmpty (str "client_secret"))
        refreshToken)
  maxAgeSeconds

/-- The tokens of a flow are cached under the key that the next resolution will
compute, which finds the new refresh token in the secret. -/
def keepConsent (kv : KeyValueSecret) (maxAgeSeconds : Int) (address : Nat) (storedRefresh : Str)
    (tokens : OAuth2Tokens) : Prog Auth (Except Exn GDriveAuthContext) :=
  let src := kv.consentSource
    (if tokens.refreshToken.isEmpty then storedRefresh else tokens.refreshToken) maxAgeSeconds
    address
  .ask .now fun nowUnix : Int =>
    .ask .now fun mintedAt : Int =>
      .ask (.store (src.cacheKey sha256)
          ⟨tokens.accessToken,
            nowUnix + (if 0 < tokens.expiresIn then tokens.expiresIn else 3600), mintedAt⟩)
        fun _ =>
          .ask (.countMint (src.cacheKey sha256)) fun _ =>
            .ret (.ok (kv.context (.cached
              { src with
                mint := if tokens.refreshToken.isEmpty then none else src.mint }) []))

/-- The browser flow, and what becomes of its tokens. -/
def consentFlow (posixNonApple : Bool) (kv : KeyValueSecret) (maxAgeSeconds : Int) (address : Nat)
    (storedRefresh : Str) : Prog Auth (Except Exn GDriveAuthContext) :=
  (getEnvOrEmpty (str "DISPLAY")).bind fun display =>
    (getEnvOrEmpty (str "WAYLAND_DISPLAY")).bind fun waylandDisplay =>
      if !canLaunchBrowser posixNonApple display waylandDisplay then
        .ret (.error (.io (secretPrefix kv.name ++ noBrowserMessage)))
      else
        .ask (.consent kv.consentConfig) fun r : Except Str OAuth2Tokens =>
          match r with
          | .error what =>
              .ret (.error (.io (secretPrefix kv.name
                ++ str "the browser consent flow did not complete: " ++ what
                ++ str "\nThis flow needs a browser on this machine and a free port for the redirect ("
                ++ kv.consentConfig.redirectUri
                ++ str "). On a headless host use PROVIDER credential_chain or PROVIDER service_account instead.")))
          | .ok tokens =>
              if tokens.accessToken.isEmpty then
                .ret (.error (.io (secretPrefix kv.name
                  ++ str "the browser consent flow returned no access token.")))
              else if tokens.refreshToken.isEmpty then
                keepConsent sha256 kv maxAgeSeconds address storedRefresh tokens
              else
                .ask (.updateSecret kv.name tokens.accessToken
                    (if 0 < tokens.expiresIn then tokens.expiresIn else 3600) tokens.refreshToken)
                  fun r : Except Exn Unit =>
                    match r with
                    | .error e => .ret (.error e)
                    | .ok _ => keepConsent sha256 kv maxAgeSeconds address storedRefresh tokens

/-- `BuildContextFromAuthorizationCode`. A refresh token that no longer works is
no error: there is a new consent. -/
def buildContextFromAuthorizationCode (posixNonApple : Bool) (kv : KeyValueSecret)
    (maxAgeSeconds : Int) (address : Nat) : Prog Auth (Except Exn GDriveAuthContext) :=
  let storedRefresh := kv.getOrEmpty (str "refresh_token")
  let src := kv.consentSource storedRefresh maxAgeSeconds address
  if (kv.getOrEmpty (str "client_id")).isEmpty || (kv.getOrEmpty (str "client_secret")).isEmpty then
    .ret (.error (.invalidInput (str "gdrive secret '" ++ kv.name
      ++ str "' (PROVIDER authorization_code) is missing CLIENT_ID or CLIENT_SECRET.")))
  else if !storedRefresh.isEmpty then
    (src.token pj expiresIn sign sha256).bind fun r =>
      match r with
      | .ok _ => .ret (.ok (kv.context (.cached src) []))
      | .error _ => consentFlow sha256 posixNonApple kv maxAgeSeconds address storedRefresh
  else
    .ask (.tryFresh (src.cacheKey sha256) maxAgeSeconds) fun cached : Option Str =>
      match cached with
      | some _ => .ret (.ok (kv.context (.cached src) []))
      | none => consentFlow sha256 posixNonApple kv maxAgeSeconds address storedRefresh

-- -------------------------------------------------------------- GetAuthContext

/-- What a secret's provider resolves to, for the identity. -/
def identitySource (kv : KeyValueSecret) : Prog Auth Str :=
  if kv.provider = str "service_account" then
    .ask (.stat (kv.getOrEmpty (str "key_file"))) fun st : Option FileStat =>
      .ret (keyFileStamp (kv.getOrEmpty (str "key_file")) st)
  else if kv.provider = str "credential_chain" then
    resolveChainAdcPath.bind fun adcPath =>
      .ask (.stat adcPath) fun st : Option FileStat => .ret (keyFileStamp adcPath st)
  else .ret []

/-- The secret as its identity sees it: a NULL is the text of one. -/
def KeyValueSecret.secret (kv : KeyValueSecret) (source : Str) : Secret where
  provider := kv.provider
  name := kv.name
  fields := kv.fields.map fun f => (f.1, f.2.getD (str "NULL"))
  source

/-- The cap on a token's age, where the setting is one. -/
def maxAgeOf (setting : Option Int64) : Except Exn Int :=
  match setting with
  | none => .ok 0
  | some requested =>
      match TokenPolicy.normalizeMaxAgeSeconds requested with
      | some effective => .ok effective.toInt
      | none =>
          .error (.invalidInput
            (str "gdrive: gdrive_debug_token_max_age_seconds must be 0 (no cap) or positive, got "
              ++ signedDecimal requested.toInt))

/-- The context of a secret, by its provider. -/
def buildContext (posixNonApple : Bool) (path : Str) (kv : KeyValueSecret) (maxAgeSeconds : Int)
    (address : Nat) : Prog Auth (Except Exn GDriveAuthContext) :=
  if kv.provider = str "service_account" then
    buildContextFromServiceAccount pj expiresIn sign sha256 kv maxAgeSeconds address
  else if kv.provider = str "config" then
    buildContextFromConfig pj expiresIn sign sha256 kv maxAgeSeconds address
  else if kv.provider = str "credential_chain" then
    buildContextFromCredentialChain pj expiresIn sign sha256 kv maxAgeSeconds address
  else if kv.provider = str "authorization_code" then
    .ask .clientContext fun there : Bool =>
      if there then
        buildContextFromAuthorizationCode pj expiresIn sign sha256 posixNonApple kv maxAgeSeconds
          address
      else
        .ret (.error (.io (str "gdrive secret '" ++ kv.name
          ++ str "' (PROVIDER authorization_code) needs a client connection to refresh its tokens, and '"
          ++ path
          ++ str "' was opened without one (e.g. by ATTACH). Use a service_account, config or credential_chain secret for it.")))
  else
    .ret (.error (.invalidInput (str "gdrive secret '" ++ kv.name
      ++ str "' has unsupported provider '" ++ kv.provider
      ++ str "'; expected 'service_account', 'config', 'credential_chain' or 'authorization_code'.")))

/-- No secret applies: there may be others. -/
def noMatchError (path : Str) (any : Bool) : Exn :=
  if any then
    .io (str "gdrive: a gdrive secret exists, but none of them apply to '" ++ path
      ++ str "'.\nA secret's SCOPE clause limits which paths it covers. If you meant to set the OAuth scope, the parameter is DRIVE_SCOPE -- SCOPE is DuckDB's path filter:\n  CREATE SECRET g (TYPE gdrive, PROVIDER config, ACCESS_TOKEN '...',\n                   DRIVE_SCOPE 'https://www.googleapis.com/auth/drive');\nCheck what is registered with: SELECT name, scope FROM duckdb_secrets();")
  else
    .io (str "gdrive: no secret configured for path '" ++ path
      ++ str "'. Create one first, e.g.:\n  CREATE SECRET gdrive_sa (TYPE gdrive, PROVIDER service_account, KEY_FILE '/etc/creds/sa.json');\nor, with a pre-obtained token:\n  CREATE SECRET gdrive_tok (TYPE gdrive, PROVIDER config, ACCESS_TOKEN '...');")

/-- `GetAuthContext`. -/
def getAuthContext (posixNonApple : Bool) (address : Nat) (path : Str) :
    Prog Auth (Except Exn GDriveAuthContext) :=
  .ask (.lookupSecret path) fun found : SecretMatch =>
    match found with
    | .noContext =>
        .ret (.error (.io (str "gdrive: '" ++ path
          ++ str "' was opened without a database context, so no secret can be looked up")))
    | .noMatch => .ask .hasAnySecret fun any : Bool => .ret (.error (noMatchError path any))
    | .otherKind name =>
        .ret (.error (.invalidInput (str "gdrive secret '" ++ name
          ++ str "' is not a key-value secret")))
    | .keyValue kv =>
        (identitySource kv).bind fun source =>
          .ask .maxAgeSetting fun setting : Option Int64 =>
            match maxAgeOf setting with
            | .error e => .ret (.error e)
            | .ok maxAgeSeconds =>
                (buildContext pj expiresIn sign sha256 posixNonApple path kv maxAgeSeconds
                    address).bind fun r =>
                  .ret (r.map fun ctx =>
                    { ctx with identity := (kv.secret source).identity sha256 address })

end Sources

end GDrive
