/-
What every thread of the process keeps true of tokens and credentials.

# The invariant

`AuthSafe`: every token the process has cached is from where a token of that
slot can be from, and whatever has gone out, to a token endpoint, into a
browser flow or back into a secret, was a secret's own to send. A request has
to be one that keeps this (`AuthReq.Kept`, `authSafe_step`), and every program
of Mint and Sources is walked through once with it.
-/
import GDrive.Auth.Provenance

namespace GDrive

open Interaction

section Custody

variable (pj : Picojson) (expiresIn : Str → Int) (sign : Str → Str → Str)
  (sha256 : Str → Option Str)

-- =============================================================== the invariant

/-- The token is one that this key's slot can have. -/
def AuthWorld.Owned (w : AuthWorld) (cacheKey token : Str) : Prop :=
  ∃ slot : Slot, ∃ address, slot.Separable ∧ slot.cacheKey sha256 address = cacheKey ∧
    slot.Origin pj expiresIn sign w token

/-- The request is one for a credential of a secret that was found. -/
def AuthWorld.MayPost (w : AuthWorld) (p : TokenPost) : Prop :=
  ∃ c, w.Holds pj c ∧ c.Sends pj expiresIn sign w p

/-- The flow is that of a secret that was found. -/
def AuthWorld.MayAsk (w : AuthWorld) (config : OAuth2Config) : Prop :=
  ∃ kv, w.Found kv ∧ kv.provider = str "authorization_code" ∧ config = kv.consentConfig

/-- What is written into a secret is from its own flow. -/
def AuthWorld.MayUpdate (w : AuthWorld) (u : SecretUpdate) : Prop :=
  ∃ kv tokens, w.Found kv ∧ (kv.consentConfig, tokens) ∈ w.consents ∧ u.secretName = kv.name ∧
    u.accessToken = tokens.accessToken ∧ u.refreshToken = tokens.refreshToken

structure AuthSafe (w : AuthWorld) : Prop where
  tokens : ∀ cacheKey token, (w.entries cacheKey).cached = some token →
    w.Owned pj expiresIn sign sha256 cacheKey token.accessToken
  posts : ∀ p reply, (p, reply) ∈ w.posts → w.MayPost pj expiresIn sign p
  consents : ∀ config tokens, (config, tokens) ∈ w.consents → w.MayAsk config
  updates : ∀ u ∈ w.updates, w.MayUpdate u

/-- What is written is owned, and what is sent may be sent. -/
def AuthReq.Kept (w : AuthWorld) : AuthReq → Prop
  | .store cacheKey token => w.Owned pj expiresIn sign sha256 cacheKey token.accessToken
  | .seed cacheKey token => w.Owned pj expiresIn sign sha256 cacheKey token
  | .post p => w.MayPost pj expiresIn sign p
  | .consent config => w.MayAsk config
  | .updateSecret secretName accessToken expiresIn refreshToken =>
      w.MayUpdate ⟨secretName, accessToken, expiresIn, refreshToken⟩
  | _ => True

variable {pj expiresIn sign sha256} {w w' : AuthWorld} {t : Nat}

theorem AuthWorld.Owned.mono {cacheKey token : Str}
    (h : w.Owned pj expiresIn sign sha256 cacheKey token) (hw : w.Grows w') :
    w'.Owned pj expiresIn sign sha256 cacheKey token := by
  obtain ⟨slot, address, hslot, hkey, horigin⟩ := h
  exact ⟨slot, address, hslot, hkey, horigin.mono hw⟩

theorem AuthWorld.MayPost.mono {p : TokenPost} (h : w.MayPost pj expiresIn sign p)
    (hw : w.Grows w') : w'.MayPost pj expiresIn sign p := by
  obtain ⟨c, hholds, hsends⟩ := h
  exact ⟨c, hholds.mono hw, hsends.mono hw⟩

theorem AuthWorld.MayAsk.mono {config : OAuth2Config} (h : w.MayAsk config) (hw : w.Grows w') :
    w'.MayAsk config := by
  obtain ⟨kv, hfound, hrest⟩ := h
  exact ⟨kv, hfound.mono hw, hrest⟩

theorem AuthWorld.MayUpdate.mono {u : SecretUpdate} (h : w.MayUpdate u) (hw : w.Grows w') :
    w'.MayUpdate u := by
  obtain ⟨kv, tokens, hfound, hconsent, hrest⟩ := h
  exact ⟨kv, tokens, hfound.mono hw, hw.consents _ hconsent, hrest⟩

theorem AuthReq.Kept.mono {q : AuthReq} (h : q.Kept pj expiresIn sign sha256 w)
    (hw : w.Grows w') : q.Kept pj expiresIn sign sha256 w' := by
  cases q with
  | store cacheKey token => exact AuthWorld.Owned.mono h hw
  | seed cacheKey token => exact AuthWorld.Owned.mono h hw
  | post p => exact AuthWorld.MayPost.mono h hw
  | consent config => exact AuthWorld.MayAsk.mono h hw
  | updateSecret secretName accessToken expiresIn refreshToken =>
      exact AuthWorld.MayUpdate.mono h hw
  | _ => trivial

/-- What was safe before is safe; what is new has to be. -/
theorem AuthSafe.of_grows (h : AuthSafe pj expiresIn sign sha256 w) (hw : w.Grows w')
    (hcached : ∀ cacheKey token, (w'.entries cacheKey).cached = some token →
      (w.entries cacheKey).cached = some token ∨
        w.Owned pj expiresIn sign sha256 cacheKey token.accessToken)
    (hposts : ∀ p reply, (p, reply) ∈ w'.posts →
      (p, reply) ∈ w.posts ∨ w.MayPost pj expiresIn sign p)
    (hconsents : ∀ config tokens, (config, tokens) ∈ w'.consents →
      (config, tokens) ∈ w.consents ∨ w.MayAsk config)
    (hupdates : ∀ u ∈ w'.updates, u ∈ w.updates ∨ w.MayUpdate u) :
    AuthSafe pj expiresIn sign sha256 w' := by
  refine ⟨?_, ?_, ?_, ?_⟩
  · intro cacheKey token htoken
    rcases hcached cacheKey token htoken with hold | howned
    · exact (h.tokens cacheKey token hold).mono hw
    · exact howned.mono hw
  · intro p reply hp
    rcases hposts p reply hp with hold | hmay
    · exact (h.posts p reply hold).mono hw
    · exact hmay.mono hw
  · intro config tokens hconsent
    rcases hconsents config tokens hconsent with hold | hmay
    · exact (h.consents config tokens hold).mono hw
    · exact hmay.mono hw
  · intro u hu
    rcases hupdates u hu with hold | hmay
    · exact (h.updates u hold).mono hw
    · exact hmay.mono hw

/-- One key's entry is replaced by one with a token that is owned. -/
theorem AuthSafe.set (h : AuthSafe pj expiresIn sign sha256 w) {cacheKey : Str}
    {e : TokenEntry Exn}
    (he : ∀ token, e.cached = some token → (w.entries cacheKey).cached = some token ∨
      w.Owned pj expiresIn sign sha256 cacheKey token.accessToken) :
    AuthSafe pj expiresIn sign sha256 (w.set cacheKey e) := by
  refine h.of_grows (.set ..) ?_ (fun _ _ hp => .inl hp) (fun _ _ hconsent => .inl hconsent)
    fun _ hu => .inl hu
  intro cacheKey' token htoken
  unfold AuthWorld.set at htoken
  simp only at htoken
  by_cases hkey : cacheKey' = cacheKey
  · rw [hkey, Function.update_self] at htoken
    rw [hkey]
    exact he token htoken
  · rw [Function.update_of_ne hkey] at htoken
    exact .inl htoken

/-- A seed is cached only where nothing is. -/
theorem TokenEntry.seed_cached {e : TokenEntry Exn} {now : Int} {seed : Str}
    {token : CachedTokenState} (h : (e.seed now seed).cached = some token) :
    e.cached = some token ∨ token.accessToken = seed := by
  unfold TokenEntry.seed at h
  split at h
  · exact .inl h
  · split at h
    · exact .inl h
    · cases h
      exact .inr rfl

/-- A source's key is separable, its slot is that of a secret that was found,
and its mint function is one for this slot. -/
structure CachedTokenSource.Sound (pj : Picojson) (src : CachedTokenSource) (w : AuthWorld) :
    Prop where
  slot : src.slot.Separable
  secret : ∃ kv, w.Found kv ∧ kv.Slots w src.slot
  mint : ∀ c, src.mint = some c → src.slot.Holds pj w c

theorem CachedTokenSource.Sound.mono {src : CachedTokenSource} (h : src.Sound pj w)
    (hw : w.Grows w') : src.Sound pj w' := by
  obtain ⟨kv, hfound, hslot⟩ := h.secret
  exact ⟨h.slot, ⟨kv, hfound.mono hw, hslot.mono hw⟩, fun c hc => (h.mint c hc).mono hw⟩

theorem CachedTokenSource.Sound.holds {src : CachedTokenSource} (h : src.Sound pj w)
    {c : Credential} (hc : src.mint = some c) : w.Holds pj c := by
  obtain ⟨kv, hfound, hslot⟩ := h.secret
  exact ⟨kv, src.slot, hfound, hslot, h.mint c hc⟩

/-- What a source hands out: nothing, or a token its slot can have. -/
def CachedTokenSource.HandsOut (pj : Picojson) (expiresIn : Str → Int) (sign : Str → Str → Str)
    (src : CachedTokenSource) (r : Except Exn Str) (w : AuthWorld) : Prop :=
  ∀ token, r = .ok token → token = [] ∨ src.slot.Origin pj expiresIn sign w token

variable {src : CachedTokenSource}

theorem CachedTokenSource.HandsOut.mono {r : Except Exn Str}
    (h : src.HandsOut pj expiresIn sign r w) (hw : w.Grows w') :
    src.HandsOut pj expiresIn sign r w' := fun token heq => (h token heq).imp_right (·.mono hw)

end Custody

end GDrive
