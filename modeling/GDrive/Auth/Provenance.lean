/-
Where an access token can come from and where a credential may go, as the
record of a process tells it.

# Requests and replies

A request `Asks` for a grant where it goes to that endpoint and is read there
as this grant. `Credential.Sends` are the requests that a credential may be
spent on, `Credential.Received` says which of them a token was received for:
for an impersonated service account there are two, the second with the token
of the first.

# Slots

A cache key is made of a `Slot`. `Slot.Holds` are the credentials that can
stand behind one, `Slot.Origin` is where a token in it can be from: pasted into
the secret, the secret's own browser flow, or received for such a credential.
`KeyValueSecret.Slots` are the slots that are a secret's own.
-/
import GDrive.Auth.Process

namespace GDrive

open Interaction

section Provenance

variable (pj : Picojson) (expiresIn : Str → Int) (sign : Str → Str → Str)

-- ==================================================================== received

/-- A request to the endpoint of a URL, that is read there as the grant. -/
def TokenPost.Asks (p : TokenPost) (url : Str) (grant : TokenGrant) : Prop :=
  splitUrl url = some (p.schemeHostPort, p.path) ∧ readGrant pj p = some grant

/-- A request for the grant was answered with a 200. -/
def AuthWorld.Answered (w : AuthWorld) (url : Str) (grant : TokenGrant) (reply : TokenReply) :
    Prop :=
  ∃ p, (p, some reply) ∈ w.posts ∧ p.Asks pj url grant ∧ reply.status = 200

/-- The token of an answer. -/
def TokenReply.accessToken (reply : TokenReply) : Str :=
  (parseTokenResponse pj expiresIn reply.body).accessToken

/-- A file was read, from its beginning. -/
def AuthWorld.Read (w : AuthWorld) (path contents : Str) : Prop :=
  ∃ bytes n, (path, bytes) ∈ w.reads ∧ contents = bytes.take n

/-- The assertion of a key at a time: it lives for an hour, and speaks for
nobody else. -/
def ServiceAccountDocument.jwt (key : ServiceAccountDocument) (scope : Str) (nowUnix : Int) :
    JwtAssertion where
  keyId := key.privateKeyId
  issuer := key.clientEmail
  scope
  audience := assertionAudience key.toServiceAccountKey
  expires := Int.bmod (nowUnix + 3600) (2 ^ 64)
  issuedAt := nowUnix
  subject := none
  signature :=
    sign (buildAssertionParts key.toServiceAccountKey scope nowUnix 3600 []).signingInput
      key.privateKey

/-- The first hop of a workload: the subject token in its file. -/
def AdcExternalAccount.exchangeGrant (ext : AdcExternalAccount) (contents : Str) : TokenGrant :=
  .exchange ext.audience cloudPlatformScope accessTokenType ext.subjectTokenType
    (trimLineEnds contents)

/-- Received for a refresh token. -/
def AuthWorld.ForRefresh (w : AuthWorld) (clientId clientSecret refreshToken token : Str) : Prop :=
  ∃ reply, w.Answered pj googleTokenUrl (.refresh clientId clientSecret refreshToken) reply ∧
    reply.accessToken pj expiresIn = token

/-- Received for an assertion signed with a key. -/
def AuthWorld.ForAssertion (w : AuthWorld) (key : ServiceAccountDocument) (scope token : Str) :
    Prop :=
  ∃ nowUnix reply,
    w.Answered pj (assertionAudience key.toServiceAccountKey)
      (.assertion (key.jwt sign scope nowUnix)) reply ∧
    reply.accessToken pj expiresIn = token

/-- Received by impersonation, with a token received for the subject token in
the workload's file. -/
def AuthWorld.ForWorkload (w : AuthWorld) (ext : AdcExternalAccount) (scope token : Str) : Prop :=
  ∃ contents federated reply obj,
    w.Read ext.subjectTokenPath contents ∧
    w.Answered pj ext.tokenUrl (ext.exchangeGrant contents) federated ∧
    w.Answered pj ext.serviceAccountImpersonationUrl
      (.impersonation (federated.accessToken pj expiresIn) [scope] (str "3600s")) reply ∧
    pj.parseObject reply.body = some obj ∧ getString obj (str "accessToken") = some token

/-- Received for what a mint function has captured. -/
def Credential.Received (w : AuthWorld) (token : Str) : Credential → Prop
  | .refreshGrant clientId clientSecret refreshToken =>
      w.ForRefresh pj expiresIn clientId clientSecret refreshToken token
  | .keyFile key scope => w.ForAssertion pj expiresIn sign key scope token
  | .adc (.authorizedUser clientId clientSecret refreshToken _) _ _ =>
      w.ForRefresh pj expiresIn clientId clientSecret refreshToken token
  | .adc (.serviceAccount key) _ scope => w.ForAssertion pj expiresIn sign key scope token
  | .adc (.externalAccount ext) _ scope => w.ForWorkload pj expiresIn ext scope token

/-- The requests of a workload: the file's subject token to the token URL, and
what was received for it to the impersonation URL. -/
def AdcExternalAccount.Sends (w : AuthWorld) (p : TokenPost) (ext : AdcExternalAccount)
    (scope : Str) : Prop :=
  ∃ contents, w.Read ext.subjectTokenPath contents ∧
    (p.Asks pj ext.tokenUrl (ext.exchangeGrant contents) ∨
      ∃ federated, w.Answered pj ext.tokenUrl (ext.exchangeGrant contents) federated ∧
        p.Asks pj ext.serviceAccountImpersonationUrl
          (.impersonation (federated.accessToken pj expiresIn) [scope] (str "3600s")))

/-- The requests that a credential may be spent on. Of a key there is nothing in
them but a signature. -/
def Credential.Sends (w : AuthWorld) (p : TokenPost) : Credential → Prop
  | .refreshGrant clientId clientSecret refreshToken =>
      p.Asks pj googleTokenUrl (.refresh clientId clientSecret refreshToken)
  | .keyFile key scope =>
      ∃ nowUnix, p.Asks pj (assertionAudience key.toServiceAccountKey)
        (.assertion (key.jwt sign scope nowUnix))
  | .adc (.authorizedUser clientId clientSecret refreshToken _) _ _ =>
      p.Asks pj googleTokenUrl (.refresh clientId clientSecret refreshToken)
  | .adc (.serviceAccount key) _ scope =>
      ∃ nowUnix, p.Asks pj (assertionAudience key.toServiceAccountKey)
        (.assertion (key.jwt sign scope nowUnix))
  | .adc (.externalAccount ext) _ scope => ext.Sends pj expiresIn w p scope

variable {pj expiresIn sign} {w w' : AuthWorld}

theorem AuthWorld.Answered.mono {url : Str} {grant : TokenGrant} {reply : TokenReply}
    (h : w.Answered pj url grant reply) (hw : w.Grows w') : w'.Answered pj url grant reply := by
  obtain ⟨p, hp, hrest⟩ := h
  exact ⟨p, hw.posts _ hp, hrest⟩

theorem AuthWorld.Read.mono {path contents : Str} (h : w.Read path contents) (hw : w.Grows w') :
    w'.Read path contents := by
  obtain ⟨bytes, n, hread, hcontents⟩ := h
  exact ⟨bytes, n, hw.reads _ hread, hcontents⟩

theorem Credential.Received.mono {c : Credential} {token : Str}
    (h : c.Received pj expiresIn sign w token) (hw : w.Grows w') :
    c.Received pj expiresIn sign w' token := by
  have hrefresh : ∀ {clientId clientSecret refreshToken : Str},
      w.ForRefresh pj expiresIn clientId clientSecret refreshToken token →
      w'.ForRefresh pj expiresIn clientId clientSecret refreshToken token := by
    rintro clientId clientSecret refreshToken ⟨reply, hanswered, htoken⟩
    exact ⟨reply, hanswered.mono hw, htoken⟩
  have hassertion : ∀ {key : ServiceAccountDocument} {scope : Str},
      w.ForAssertion pj expiresIn sign key scope token →
      w'.ForAssertion pj expiresIn sign key scope token := by
    rintro key scope ⟨nowUnix, reply, hanswered, htoken⟩
    exact ⟨nowUnix, reply, hanswered.mono hw, htoken⟩
  cases c with
  | refreshGrant clientId clientSecret refreshToken => exact hrefresh h
  | keyFile key scope => exact hassertion h
  | adc doc adcPath scope =>
      cases doc with
      | authorizedUser clientId clientSecret refreshToken quotaProjectId => exact hrefresh h
      | serviceAccount key => exact hassertion h
      | externalAccount ext =>
          obtain ⟨contents, federated, reply, obj, hread, hfirst, hsecond, hrest⟩ := h
          exact ⟨contents, federated, reply, obj, hread.mono hw, hfirst.mono hw, hsecond.mono hw,
            hrest⟩

theorem Credential.Sends.mono {c : Credential} {p : TokenPost}
    (h : c.Sends pj expiresIn sign w p) (hw : w.Grows w') : c.Sends pj expiresIn sign w' p := by
  cases c with
  | refreshGrant clientId clientSecret refreshToken => exact h
  | keyFile key scope => exact h
  | adc doc adcPath scope =>
      cases doc with
      | authorizedUser clientId clientSecret refreshToken quotaProjectId => exact h
      | serviceAccount key => exact h
      | externalAccount ext =>
          obtain ⟨contents, hread, hsends⟩ := h
          refine ⟨contents, hread.mono hw, hsends.imp_right ?_⟩
          rintro ⟨federated, hfirst, hasks⟩
          exact ⟨federated, hfirst.mono hw, hasks⟩

-- ======================================================================= slots

variable (pj expiresIn sign)

/-- The credentials that can be behind a slot: the values that the key is made
of, or a document that was read under the stamp in it. -/
inductive Slot.Holds (w : AuthWorld) : Slot → Credential → Prop
  | config (name clientId clientSecret refreshToken : Str) :
      Holds w ⟨name, str "config", [clientId, clientSecret, refreshToken]⟩
        (.refreshGrant clientId clientSecret refreshToken)
  | seeded (name clientId clientSecret refreshToken accessToken : Str) :
      Holds w ⟨name, str "config", [clientId, clientSecret, refreshToken, accessToken]⟩
        (.refreshGrant clientId clientSecret refreshToken)
  | consent (name clientId clientSecret scope refreshToken : Str) :
      Holds w ⟨name, str "authorization_code", [clientId, clientSecret, scope, refreshToken]⟩
        (.refreshGrant clientId clientSecret refreshToken)
  | keyFile (name keyFile : Str) (st : Option FileStat) (contents scope subject : Str)
      (key : ServiceAccountDocument) :
      w.Read keyFile contents → parseServiceAccountKey pj contents = .ok key →
      Holds w ⟨name, str "service_account", [keyFileStamp keyFile st, scope, subject]⟩
        (.keyFile key scope)
  | adc (name adcPath : Str) (st : Option FileStat) (contents scope : Str) (doc : AdcDocument) :
      w.Read adcPath contents → parseAdcJson pj contents = .ok doc →
      Holds w ⟨name, str "credential_chain", [keyFileStamp adcPath st, scope]⟩
        (.adc doc adcPath scope)

/-- Where a token in a slot can be from. -/
inductive Slot.Origin (w : AuthWorld) : Slot → Str → Prop
  | pasted (name clientId clientSecret refreshToken accessToken : Str) :
      Origin w ⟨name, str "config", [clientId, clientSecret, refreshToken, accessToken]⟩ accessToken
  | consented (name refreshToken : Str) (config : OAuth2Config) (tokens : OAuth2Tokens) :
      (config, tokens) ∈ w.consents →
      (tokens.refreshToken = refreshToken ∨ tokens.refreshToken = []) →
      Origin w ⟨name, str "authorization_code",
        [config.clientId, config.clientSecret, config.scope, refreshToken]⟩ tokens.accessToken
  | received (slot : Slot) (c : Credential) (token : Str) :
      slot.Holds pj w c → c.Received pj expiresIn sign w token → Origin w slot token

variable {pj expiresIn sign}

theorem Slot.Holds.mono {slot : Slot} {c : Credential} (h : slot.Holds pj w c)
    (hw : w.Grows w') : slot.Holds pj w' c := by
  cases h with
  | config name clientId clientSecret refreshToken => exact .config ..
  | seeded name clientId clientSecret refreshToken accessToken => exact .seeded ..
  | consent name clientId clientSecret scope refreshToken => exact .consent ..
  | keyFile name keyFile st contents scope subject key hread hparse =>
      exact .keyFile name keyFile st contents scope subject key (hread.mono hw) hparse
  | adc name adcPath st contents scope doc hread hparse =>
      exact .adc name adcPath st contents scope doc (hread.mono hw) hparse

theorem Slot.Origin.mono {slot : Slot} {token : Str} (h : slot.Origin pj expiresIn sign w token)
    (hw : w.Grows w') : slot.Origin pj expiresIn sign w' token := by
  cases h with
  | pasted name clientId clientSecret refreshToken accessToken => exact .pasted ..
  | consented name refreshToken config tokens hconsent htokens =>
      exact .consented name refreshToken config tokens (hw.consents _ hconsent) htokens
  | received slot c token hholds hreceived =>
      exact .received slot c token (hholds.mono hw) (hreceived.mono hw)

-- ===================================================================== secrets

/-- The slots that are a secret's own. After a browser flow it has a new refresh
token. -/
inductive KeyValueSecret.Slots (w : AuthWorld) (kv : KeyValueSecret) : Slot → Prop
  | config : kv.provider = str "config" →
      Slots w kv ⟨kv.name, str "config",
        [kv.getOrEmpty (str "client_id"), kv.getOrEmpty (str "client_secret"),
          kv.getOrEmpty (str "refresh_token")]⟩
  | seeded : kv.provider = str "config" →
      Slots w kv ⟨kv.name, str "config",
        [kv.getOrEmpty (str "client_id"), kv.getOrEmpty (str "client_secret"),
          kv.getOrEmpty (str "refresh_token"), kv.getOrEmpty (str "access_token")]⟩
  | consent (refreshToken : Str) : kv.provider = str "authorization_code" →
      (refreshToken = kv.getOrEmpty (str "refresh_token") ∨
        ∃ tokens, (kv.consentConfig, tokens) ∈ w.consents ∧ tokens.refreshToken = refreshToken) →
      Slots w kv ⟨kv.name, str "authorization_code",
        [kv.getOrEmpty (str "client_id"), kv.getOrEmpty (str "client_secret"), kv.driveScope,
          refreshToken]⟩
  | keyFile (st : Option FileStat) : kv.provider = str "service_account" →
      Slots w kv ⟨kv.name, str "service_account",
        [keyFileStamp (kv.getOrEmpty (str "key_file")) st, kv.driveScope,
          kv.getOrEmpty (str "subject")]⟩
  | adc (adcPath : Str) (st : Option FileStat) : kv.provider = str "credential_chain" →
      Slots w kv ⟨kv.name, str "credential_chain", [keyFileStamp adcPath st, kv.driveScope]⟩

theorem KeyValueSecret.Slots.mono {kv : KeyValueSecret} {slot : Slot} (h : kv.Slots w slot)
    (hw : w.Grows w') : kv.Slots w' slot := by
  cases h with
  | config hprovider => exact .config hprovider
  | seeded hprovider => exact .seeded hprovider
  | consent refreshToken hprovider hrefresh =>
      refine .consent refreshToken hprovider (hrefresh.imp_right ?_)
      rintro ⟨tokens, hconsent, htokens⟩
      exact ⟨tokens, hw.consents _ hconsent, htokens⟩
  | keyFile st hprovider => exact .keyFile st hprovider
  | adc adcPath st hprovider => exact .adc adcPath st hprovider

/-- The secret was found, for some path. -/
def AuthWorld.Found (w : AuthWorld) (kv : KeyValueSecret) : Prop := ∃ path, (path, kv) ∈ w.lookups

theorem AuthWorld.Found.mono {kv : KeyValueSecret} (h : w.Found kv) (hw : w.Grows w') :
    w'.Found kv := by
  obtain ⟨path, hpath⟩ := h
  exact ⟨path, hw.lookups _ hpath⟩

/-- A credential of a secret that was found. -/
def AuthWorld.Holds (pj : Picojson) (w : AuthWorld) (c : Credential) : Prop :=
  ∃ kv slot, w.Found kv ∧ kv.Slots w slot ∧ slot.Holds pj w c

theorem AuthWorld.Holds.mono {c : Credential} (h : w.Holds pj c) (hw : w.Grows w') :
    w'.Holds pj c := by
  obtain ⟨kv, slot, hfound, hslot, hholds⟩ := h
  exact ⟨kv, slot, hfound.mono hw, hslot.mono hw, hholds.mono hw⟩

-- ============================================================= keys and slots

/-- No separator in what a key is made of. -/
structure Slot.Separable (slot : Slot) : Prop where
  secretName : 31 ∉ slot.secretName
  provider : 31 ∉ slot.provider
  material : ∀ m ∈ slot.material, 31 ∉ m

def Slot.cacheKey (sha256 : Str → Option Str) (address : Nat) (slot : Slot) : Str :=
  fingerprintKey sha256 address slot.secretName slot.provider slot.material

end Provenance

end GDrive
