/-
Credential documents (gdrive_adc.cpp, `ParseServiceAccountKey` of
gdrive_service_account_pure.cpp), pure.

# Where a document is looked for

`resolveAdcPath` takes the environment as a record of values and returns the
first path that Google's order of precedence gives.

# What a document must have

A document is a JSON object of one of three types. Each parser refuses with a
text of its own for every way to be unusable, and none of the texts quotes a
value but that of `type`. What is accepted has every field that a token is
obtained with (`AdcDocument.Complete`).
-/
import GDrive.Auth.TokenRequests

namespace GDrive

-- ========================================================= where a document is

/-- The environment, as far as it says where credentials are. -/
structure AdcPathInputs where
  googleApplicationCredentials : Str := []
  cloudsdkConfig : Str := []
  home : Str := []
  appdata : Str := []

def kAdcFileName : Str := str "application_default_credentials.json"

/-- `Join`: one separator, unless there is one. -/
def adcJoin (dir leaf : Str) : Str :=
  match dir.getLast? with
  | none => leaf
  | some last =>
      if last = 47 ∨ last = 92 then dir ++ leaf -- '/', '\'
      else dir ++ str "/" ++ leaf

def resolveAdcPath (inputs : AdcPathInputs) : Str :=
  if !inputs.googleApplicationCredentials.isEmpty then inputs.googleApplicationCredentials
  else if !inputs.cloudsdkConfig.isEmpty then adcJoin inputs.cloudsdkConfig kAdcFileName
  else if !inputs.home.isEmpty then
    adcJoin (adcJoin inputs.home (str ".config/gcloud")) kAdcFileName
  else if !inputs.appdata.isEmpty then adcJoin (adcJoin inputs.appdata (str "gcloud")) kAdcFileName
  else []

def noCredentialsMessage : Str :=
  str "gdrive: no Google credentials found.\n\n"
    ++ str "1. Log in with your own Google account (most common):\n"
    ++ str "     gcloud auth application-default login \\\n"
    ++ str "       --scopes=openid,https://www.googleapis.com/auth/drive\n\n"
    ++ str "   The --scopes flag is required. Without it gcloud requests\n"
    ++ str "   cloud-platform, which does NOT include Drive, and every read\n"
    ++ str "   fails with a 403 that looks like a permissions problem.\n\n"
    ++ str "   Note: plain `gcloud auth login` is not sufficient -- it\n"
    ++ str "   configures the CLI, not Application Default Credentials.\n\n"
    ++ str "2. Point at a service-account key:\n"
    ++ str "     export GOOGLE_APPLICATION_CREDENTIALS=/path/to/key.json\n\n"
    ++ str "3. Or configure a secret explicitly:\n"
    ++ str "     CREATE SECRET (TYPE gdrive, PROVIDER service_account,\n"
    ++ str "                    KEY_FILE '/path/to/key.json');\n"
    ++ str "     CREATE SECRET (TYPE gdrive, PROVIDER config, ACCESS_TOKEN '...');\n"

-- ==================================================== a service account's key

/-- The fields of a key document: those of the assertion, and the key. -/
structure ServiceAccountDocument extends ServiceAccountKey where
  privateKey : Str
  projectId : Str := []

/-- Is there such a member? -/
def hasField (obj : List (Str × Json)) (key : Str) : Bool := (Json.field obj key).isSome

/-- `FindString` of gdrive_adc.cpp: empty where there is no such string. -/
def findString (obj : List (Str × Json)) (key : Str) : Str := (getString obj key).getD []

/-- The checks that follow those of the type. -/
def serviceAccountFields (obj : List (Str × Json)) : Except Str ServiceAccountDocument :=
  if (findString obj (str "client_email")).isEmpty then
    .error (str "service-account key is missing required field \"client_email\"")
  else if (findString obj (str "private_key")).isEmpty then
    .error (str "service-account key is missing required field \"private_key\"")
  else
    .ok
      { clientEmail := findString obj (str "client_email")
        privateKeyId := findString obj (str "private_key_id")
        tokenUri :=
          if (findString obj (str "token_uri")).isEmpty then googleTokenUrl
          else findString obj (str "token_uri")
        privateKey := findString obj (str "private_key")
        projectId := findString obj (str "project_id") }

/-- `ParseServiceAccountKey`. A client document of OAuth has no `type`, so it is
recognised first. -/
def parseServiceAccountKey (pj : Picojson) (jsonText : Str) : Except Str ServiceAccountDocument :=
  match pj.parse jsonText with
  | none => .error (str "service-account key document is not valid JSON")
  | some (.object obj) =>
      if hasField obj (str "installed") || hasField obj (str "web") then
        .error (str "this looks like an OAuth *client* JSON (has an \"installed\"/\"web\" section), not a service-account key; download the service-account key from IAM & Admin > Service Accounts > Keys instead")
      else
        match getString obj (str "type") with
        | some type =>
            if type = str "service_account" then serviceAccountFields obj
            else
              .error (str "service-account key has \"type\":\"" ++ assertionEscape type
                ++ str "\" but expected \"service_account\"")
        | none => serviceAccountFields obj
  | some _ => .error (str "service-account key document must be a JSON object")

-- ============================================================= an ADC document

/-- What a document turned out to be. -/
inductive AdcDocument
  | authorizedUser (clientId clientSecret refreshToken quotaProjectId : Str)
  | serviceAccount (key : ServiceAccountDocument)
  | externalAccount (ext : AdcExternalAccount)

/-- The empty ones of the fields, by name. -/
def missingFields (obj : List (Str × Json)) (names : List Str) : List Str :=
  names.filter fun name => (findString obj name).isEmpty

def parseAuthorizedUser (obj : List (Str × Json)) : Except Str AdcDocument :=
  let missing :=
    missingFields obj [str "client_id", str "client_secret", str "refresh_token"]
  if missing.isEmpty then
    .ok (.authorizedUser (findString obj (str "client_id")) (findString obj (str "client_secret"))
      (findString obj (str "refresh_token")) (findString obj (str "quota_project_id")))
  else
    .error (str "an \"authorized_user\" document is missing " ++ (str ", ").intercalate missing
      ++ str ". Re-run `gcloud auth application-default login`.")

/-- Is the file the token itself? A format that is no object, or whose type is
no string, is none that is supported. -/
def isTextFormat (src : List (Str × Json)) : Bool :=
  match Json.field src (str "format") with
  | none => true
  | some (.object fmt) =>
      match Json.field fmt (str "type") with
      | none => true
      | some (.string type) => type.isEmpty || decide (type = str "text")
      | some _ => false
  | some _ => false

/-- The first of the required fields that is empty. -/
def missingExternal (ext : AdcExternalAccount) : Option Str :=
  if ext.audience.isEmpty then some (str "audience")
  else if ext.tokenUrl.isEmpty then some (str "token_url")
  else if ext.subjectTokenType.isEmpty then some (str "subject_token_type")
  else none

def parseExternalAccount (obj : List (Str × Json)) : Except Str AdcDocument :=
  match Json.field obj (str "credential_source") with
  | some (.object src) =>
      let ext : AdcExternalAccount :=
        { audience := findString obj (str "audience")
          subjectTokenType := findString obj (str "subject_token_type")
          tokenUrl := findString obj (str "token_url")
          serviceAccountImpersonationUrl :=
            findString obj (str "service_account_impersonation_url")
          subjectTokenPath := findString src (str "file") }
      if ext.subjectTokenPath.isEmpty then
        .error (str "this \"external_account\" document has no \"credential_source\".\"file\". Only a file-sourced subject token is supported (a projected Kubernetes token, for example); url-, AWS- and executable-sourced tokens are not.")
      else if !isTextFormat src then
        .error (str "this \"external_account\" document's \"credential_source\".\"format\" is not supported. Only \"type\": \"text\" (the default: the file holds the bare token) is; a \"json\" format, with the token in \"subject_token_field_name\", is not.")
      else
        match missingExternal ext with
        | some missing =>
            .error (str "an \"external_account\" document is missing " ++ missing ++ str ".")
        | none => .ok (.externalAccount ext)
  | _ =>
      .error (str "an \"external_account\" document is missing \"credential_source\", so there is no subject token to exchange.")

/-- `ParseAdcJson`. A service account's key is parsed by its own parser. -/
def parseAdcJson (pj : Picojson) (jsonText : Str) : Except Str AdcDocument :=
  match pj.parseObject jsonText with
  | none =>
      .error (str "not valid JSON. An Application Default Credentials file is written by `gcloud auth application-default login`; if you edited it by hand, re-run that command.")
  | some obj =>
      let type := findString obj (str "type")
      if type.isEmpty then
        if hasField obj (str "installed") || hasField obj (str "web") then
          .error (str "this looks like an OAuth client JSON (it has an \"installed\" or \"web\" wrapper and no \"type\" field), not an Application Default Credentials file. An OAuth client is used with PROVIDER authorization_code, not credential_chain.")
        else
          .error (str "no \"type\" field, so this is not an Application Default Credentials document. Expected \"authorized_user\" or \"service_account\".")
      else if type = str "authorized_user" then parseAuthorizedUser obj
      else if type = str "service_account" then
        (parseServiceAccountKey pj jsonText).map .serviceAccount
      else if type = str "external_account" then parseExternalAccount obj
      else
        .error (str "unexpected credential type \"" ++ type
          ++ str "\". Expected \"authorized_user\" or \"service_account\".")

-- ===================================================================== accepted

/-- Every field that obtaining a token takes. -/
structure ServiceAccountDocument.Complete (key : ServiceAccountDocument) : Prop where
  clientEmail : key.clientEmail ≠ []
  privateKey : key.privateKey ≠ []
  tokenUri : key.tokenUri ≠ []

structure AdcExternalAccount.Complete (ext : AdcExternalAccount) : Prop where
  audience : ext.audience ≠ []
  subjectTokenType : ext.subjectTokenType ≠ []
  tokenUrl : ext.tokenUrl ≠ []
  subjectTokenPath : ext.subjectTokenPath ≠ []

def AdcDocument.Complete : AdcDocument → Prop
  | .authorizedUser clientId clientSecret refreshToken _ =>
      clientId ≠ [] ∧ clientSecret ≠ [] ∧ refreshToken ≠ []
  | .serviceAccount key => key.Complete
  | .externalAccount ext => ext.Complete

theorem serviceAccountFields_complete {obj : List (Str × Json)} {key : ServiceAccountDocument}
    (h : serviceAccountFields obj = .ok key) : key.Complete := by
  unfold serviceAccountFields at h
  split at h
  · cases h
  · rename_i hemail
    split at h
    · cases h
    · rename_i hkey
      cases h
      refine ⟨by simpa using hemail, by simpa using hkey, ?_⟩
      show (if (findString obj (str "token_uri")).isEmpty then googleTokenUrl
        else findString obj (str "token_uri")) ≠ []
      split
      · decide
      · rename_i huri
        simpa using huri

theorem parseServiceAccountKey_complete {pj : Picojson} {jsonText : Str}
    {key : ServiceAccountDocument} (h : parseServiceAccountKey pj jsonText = .ok key) :
    key.Complete := by
  unfold parseServiceAccountKey at h
  split at h
  · cases h
  · split at h
    · cases h
    · split at h
      · split at h
        · exact serviceAccountFields_complete h
        · cases h
      · exact serviceAccountFields_complete h
  · cases h

theorem parseAuthorizedUser_complete {obj : List (Str × Json)} {doc : AdcDocument}
    (h : parseAuthorizedUser obj = .ok doc) : doc.Complete := by
  unfold parseAuthorizedUser at h
  simp only at h
  split at h
  · rename_i hmissing
    cases h
    have hall : ∀ name ∈ [str "client_id", str "client_secret", str "refresh_token"],
        findString obj name ≠ [] := by
      have hfilter := List.filter_eq_nil_iff.mp (List.isEmpty_iff.mp hmissing)
      intro name hname hempty
      exact hfilter name hname (by rw [hempty]; rfl)
    exact ⟨hall _ (by simp), hall _ (by simp), hall _ (by simp)⟩
  · cases h

theorem parseExternalAccount_complete {obj : List (Str × Json)} {doc : AdcDocument}
    (h : parseExternalAccount obj = .ok doc) : doc.Complete := by
  unfold parseExternalAccount at h
  split at h
  · simp only at h
    split at h
    · cases h
    · rename_i hpath
      split at h
      · cases h
      · split at h
        · cases h
        · rename_i hmissing
          cases h
          unfold missingExternal at hmissing
          split at hmissing
          · cases hmissing
          · rename_i haudience
            split at hmissing
            · cases hmissing
            · rename_i hurl
              split at hmissing
              · cases hmissing
              · rename_i htype
                exact ⟨by simpa using haudience, by simpa using htype, by simpa using hurl,
                  by simpa using hpath⟩
  · cases h

/-- An accepted document lacks nothing that a token takes. -/
theorem parseAdcJson_complete {pj : Picojson} {jsonText : Str} {doc : AdcDocument}
    (h : parseAdcJson pj jsonText = .ok doc) : doc.Complete := by
  unfold parseAdcJson at h
  split at h
  · cases h
  · simp only at h
    split at h
    · split at h
      · cases h
      · cases h
    · split at h
      · exact parseAuthorizedUser_complete h
      · split at h
        · cases hkey : parseServiceAccountKey pj jsonText with
          | error e =>
              rw [hkey] at h
              cases h
          | ok key =>
              rw [hkey] at h
              cases h
              exact parseServiceAccountKey_complete hkey
        · split at h
          · exact parseExternalAccount_complete h
          · cases h

end GDrive
