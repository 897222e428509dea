/-
Cache identities (gdrive_identity.cpp, `FingerprintKey` of gdrive_auth.cpp)
and the keys that are built from them.

A secret's identity is its provider, its name and a digest of what
determines whom it authenticates as. The digest is of concatenated fields,
the keys of the caches are concatenations of the identity and more fields;
one separator byte holds all of them apart, from the left, so the last field
of a key may be any text (`identity_separation`).

The hash function is not part of the repository: `sha256` is a parameter.
-/
import Mathlib.Logic.Equiv.Basic
import GDrive.Read.Reader

namespace GDrive

-- ==================================================================== secrets

/-- What of a secret goes into its identity. -/
structure Secret where
  provider : Str
  name : Str
  fields : List (Str × Str) := []
  /-- The stamp of the credential file that was resolved, if any. -/
  source : Str := []

/-- A field that the authorization_code flow rewrites itself. -/
def rewritesField (provider key : Str) : Bool :=
  provider = str "authorization_code" &&
    (key = str "access_token" || key = str "token_expiry" || (str "expires").isPrefixOf key)

/-- The fields that count, their keys in lower case. -/
def identityFields (provider : Str) (secretFields : List (Str × Str)) : List (Str × Str) :=
  (secretFields.map fun field => (field.1.map toLower, field.2)).filter fun field =>
    !rewritesField provider field.1

def identityMaterial (provider : Str) (secretFields : List (Str × Str)) (identitySource : Str) :
    List Str :=
  (identityFields provider secretFields).map (fun field => field.1 ++ [61] ++ field.2)
    ++ [str "source=" ++ identitySource]

def hexOf (digest : Str) : Str :=
  digest.flatMap fun b => [hexDigit (b.toNat / 16), hexDigit (b.toNat % 16)]

/-- `FingerprintKey`. Where hashing fails the key has the `address` of the
text in it. -/
def fingerprintKey (sha256 : Str → Option Str) (address : Nat) (secretName provider : Str)
    (material : List Str) : Str :=
  let hex :=
    match sha256 (material.flatMap fun m => m ++ separator) with
    | some digest => hexOf digest
    | none => str "unhashable-" ++ decimal address
  provider ++ separator ++ secretName ++ separator ++ hex

/-- `GDriveAuthContext::identity`. -/
def Secret.identity (sha256 : Str → Option Str) (address : Nat) (s : Secret) : Str :=
  fingerprintKey sha256 address s.name s.provider (identityMaterial s.provider s.fields s.source)

/-- The hash function succeeds, and no two texts have one digest. -/
structure Hashes (sha256 : Str → Option Str) : Prop where
  succeeds : ∀ s, ∃ digest, sha256 s = some digest
  injective : ∀ s s', sha256 s = sha256 s' → s = s'

-- ========================================================== fields in a key

theorem hexDigit_spec : ∀ a < 16, hexDigit a ≠ 31 ∧ ∀ b < 16, hexDigit a = hexDigit b → a = b := by
  decide

theorem hexOf_injective {a b : Str} (h : hexOf a = hexOf b) : a = b := by
  induction a generalizing b with
  | nil =>
      cases b with
      | nil => rfl
      | cons d b => cases h
  | cons c a ih =>
      cases b with
      | nil => cases h
      | cons d b =>
          have hbounds : ∀ e : UInt8, e.toNat / 16 < 16 ∧ e.toNat % 16 < 16 := by
            intro e
            have hlt := e.toNat_lt
            omega
          obtain ⟨hhigh, hrest⟩ := List.cons.inj h
          obtain ⟨hlow, hrest⟩ := List.cons.inj hrest
          have hdiv := (hexDigit_spec _ (hbounds c).1).2 _ (hbounds d).1 hhigh
          have hmod := (hexDigit_spec _ (hbounds c).2).2 _ (hbounds d).2 hlow
          have hcd : c = d := by
            apply UInt8.toNat_inj.mp
            omega
          rw [hcd, ih hrest]

theorem separator_notMem_hexOf (digest : Str) : 31 ∉ hexOf digest := by
  intro h
  obtain ⟨b, -, hb⟩ := List.mem_flatMap.mp h
  have hlt := b.toNat_lt
  rcases List.mem_cons.mp hb with heq | hb
  · exact (hexDigit_spec (b.toNat / 16) (by omega)).1 heq.symm
  · exact (hexDigit_spec (b.toNat % 16) (by omega)).1 (List.mem_singleton.mp hb).symm

-- =============================================================== the material

/-- No separator where the code relies on there being none. -/
structure Secret.Separable (s : Secret) : Prop where
  provider : 31 ∉ s.provider
  name : 31 ∉ s.name
  fields : ∀ f ∈ s.fields, 31 ∉ f.1 ∧ 61 ∉ f.1 ∧ 31 ∉ f.2

/-- No field has the name that the source has in the material. -/
def Secret.KeepsSource (s : Secret) : Prop := ∀ f ∈ s.fields, f.1.map toLower ≠ str "source"

theorem toLower_special {c : UInt8} : (toLower c = 31 ↔ c = 31) ∧ (toLower c = 61 ↔ c = 61) := by
  have hall : ∀ n < 256, (toLower (UInt8.ofNat n) = 31 ↔ UInt8.ofNat n = 31) ∧
      (toLower (UInt8.ofNat n) = 61 ↔ UInt8.ofNat n = 61) := by decide +kernel
  have hc := hall c.toNat c.toNat_lt
  rwa [UInt8.ofNat_toNat] at hc

theorem mem_identityFields {provider : Str} {fields : List (Str × Str)} {f : Str × Str}
    (h : f ∈ identityFields provider fields) : ∃ g ∈ fields, f = (g.1.map toLower, g.2) := by
  obtain ⟨g, hg, rfl⟩ := List.mem_map.mp (List.mem_filter.mp h).1
  exact ⟨g, hg, rfl⟩

/-- A field of the material, cut from the text that follows it. -/
structure Entry (f : Str × Str) : Prop where
  key_separator : 31 ∉ f.1
  key_equals : 61 ∉ f.1
  value : 31 ∉ f.2

theorem Secret.Separable.entry {s : Secret} (hs : s.Separable) :
    ∀ f ∈ identityFields s.provider s.fields, Entry f := by
  intro f hf
  obtain ⟨g, hg, rfl⟩ := mem_identityFields hf
  obtain ⟨hkey, hequals, hvalue⟩ := hs.fields g hg
  refine ⟨?_, ?_, hvalue⟩
  · intro hmem
    obtain ⟨c, hc, heq⟩ := List.mem_map.mp hmem
    rw [toLower_special.1.mp heq] at hc
    exact hkey hc
  · intro hmem
    obtain ⟨c, hc, heq⟩ := List.mem_map.mp hmem
    rw [toLower_special.2.mp heq] at hc
    exact hequals hc

/-- The text that is hashed. -/
def joined (fields : List (Str × Str)) (source : Str) : Str :=
  (fields.flatMap fun f => f.1 ++ 61 :: (f.2 ++ [31])) ++ (str "source" ++ 61 :: (source ++ [31]))

theorem joined_cons (f : Str × Str) (fields : List (Str × Str)) (source : Str) :
    joined (f :: fields) source = f.1 ++ 61 :: (f.2 ++ 31 :: joined fields source) := by
  simp [joined]

theorem joined_material (provider : Str) (fields : List (Str × Str)) (source : Str) :
    ((identityMaterial provider fields source).flatMap fun m => m ++ separator) =
      joined (identityFields provider fields) source := by
  have hsource : str "source=" = str "source" ++ [61] := by decide
  simp [identityMaterial, joined, List.flatMap_map, separator, hsource]

/-- A field cannot be read as the source. -/
theorem joined_ne {f : Str × Str} {fields : List (Str × Str)} {source source' : Str} (hf : Entry f)
    (hsource : 31 ∉ source' ∨ f.1 ≠ str "source") :
    joined (f :: fields) source ≠ joined [] source' := by
  intro h
  rw [joined_cons] at h
  have h' : f.1 ++ 61 :: (f.2 ++ 31 :: joined fields source) =
      str "source" ++ 61 :: (source' ++ 31 :: []) := h
  obtain ⟨hkey, hrest⟩ := cancel_field hf.key_equals (by decide) h'
  rcases hsource with hsource | hname
  · obtain ⟨-, hnil⟩ := cancel_field hf.value hsource hrest
    unfold joined at hnil
    simp at hnil
  · exact hname hkey

/-- The fields and the source can be read back. -/
theorem joined_injective {fields fields' : List (Str × Str)} {source source' : Str}
    (hf : ∀ f ∈ fields, Entry f) (hf' : ∀ f ∈ fields', Entry f)
    (hsource : (31 ∉ source ∧ 31 ∉ source') ∨
      (∀ f ∈ fields, f.1 ≠ str "source") ∧ ∀ f ∈ fields', f.1 ≠ str "source")
    (h : joined fields source = joined fields' source') : fields = fields' ∧ source = source' := by
  induction fields generalizing fields' with
  | nil =>
      cases fields' with
      | nil =>
          have h' : str "source" ++ 61 :: (source ++ [31]) = str "source" ++ 61 :: (source' ++ [31]) := h
          have htail := (List.cons.inj (List.append_cancel_left h')).2
          exact ⟨rfl, List.append_cancel_right htail⟩
      | cons f fields' =>
          refine absurd h.symm (joined_ne (hf' f List.mem_cons_self) ?_)
          exact hsource.imp (·.1) fun hnames => hnames.2 f List.mem_cons_self
  | cons f fields ih =>
      cases fields' with
      | nil =>
          refine absurd h (joined_ne (hf f List.mem_cons_self) ?_)
          exact hsource.imp (·.2) fun hnames => hnames.1 f List.mem_cons_self
      | cons f' fields' =>
          rw [joined_cons, joined_cons] at h
          have he := hf f List.mem_cons_self
          have he' := hf' f' List.mem_cons_self
          obtain ⟨hkey, hrest⟩ := cancel_field he.key_equals he'.key_equals h
          obtain ⟨hvalue, hrest⟩ := cancel_field he.value he'.value hrest
          obtain ⟨rfl, hsources⟩ := ih (fun g hg => hf g (List.mem_cons_of_mem _ hg))
            (fun g hg => hf' g (List.mem_cons_of_mem _ hg))
            (hsource.imp_right fun hnames =>
              ⟨fun g hg => hnames.1 g (List.mem_cons_of_mem _ hg),
                fun g hg => hnames.2 g (List.mem_cons_of_mem _ hg)⟩) hrest
          exact ⟨by rw [Prod.ext hkey hvalue], hsources⟩

/-- One identity, one secret, as far as its fields count. -/
theorem identity_injective {sha256 : Str → Option Str} (hsha : Hashes sha256) {s s' : Secret}
    (hs : s.Separable) (hs' : s'.Separable)
    (hsource : (31 ∉ s.source ∧ 31 ∉ s'.source) ∨ (s.KeepsSource ∧ s'.KeepsSource))
    {address address' : Nat} (h : s.identity sha256 address = s'.identity sha256 address') :
    s.provider = s'.provider ∧ s.name = s'.name ∧ s.source = s'.source ∧
      identityFields s.provider s.fields = identityFields s'.provider s'.fields := by
  obtain ⟨digest, hdigest⟩ := hsha.succeeds (joined (identityFields s.provider s.fields) s.source)
  obtain ⟨digest', hdigest'⟩ :=
    hsha.succeeds (joined (identityFields s'.provider s'.fields) s'.source)
  unfold Secret.identity fingerprintKey at h
  rw [joined_material, joined_material, hdigest, hdigest'] at h
  have h' : s.provider ++ 31 :: (s.name ++ 31 :: hexOf digest) =
      s'.provider ++ 31 :: (s'.name ++ 31 :: hexOf digest') := by
    simpa [separator] using h
  obtain ⟨hprovider, hrest⟩ := cancel_field hs.provider hs'.provider h'
  obtain ⟨hname, hhex⟩ := cancel_field hs.name hs'.name hrest
  rw [hexOf_injective hhex, ← hdigest'] at hdigest
  have hnames : ∀ {s : Secret}, s.KeepsSource →
      ∀ f ∈ identityFields s.provider s.fields, f.1 ≠ str "source" := by
    intro s hkeeps f hf
    obtain ⟨g, hg, rfl⟩ := mem_identityFields hf
    exact hkeeps g hg
  obtain ⟨hfields, hsources⟩ := joined_injective hs.entry hs'.entry
    (hsource.imp_right fun hkeeps => ⟨hnames hkeeps.1, hnames hkeeps.2⟩) (hsha.injective _ _ hdigest)
  exact ⟨hprovider, hname, hsources, hfields⟩

-- =================================================================== the keys

/-- An identity is three fields. -/
structure Identity (identity : Str) : Prop where
  fields : ∃ provider name hex, 31 ∉ provider ∧ 31 ∉ name ∧ 31 ∉ hex ∧
    identity = provider ++ 31 :: (name ++ 31 :: hex)

theorem Secret.Separable.identity {sha256 : Str → Option Str} (hsha : Hashes sha256) {s : Secret}
    (hs : s.Separable) (address : Nat) : Identity (s.identity sha256 address) := by
  obtain ⟨digest, hdigest⟩ := hsha.succeeds (joined (identityFields s.provider s.fields) s.source)
  refine ⟨s.provider, s.name, hexOf digest, hs.provider, hs.name, separator_notMem_hexOf digest, ?_⟩
  unfold Secret.identity fingerprintKey
  rw [joined_material, hdigest]
  simp [separator]

/-- What an identity is followed by does not change it. -/
theorem cancel_identity {i i' x y : Str} (hi : Identity i) (hi' : Identity i')
    (h : i ++ 31 :: x = i' ++ 31 :: y) : i = i' ∧ x = y := by
  obtain ⟨p, n, d, hp, hn, hd, rfl⟩ := hi.fields
  obtain ⟨p', n', d', hp', hn', hd', rfl⟩ := hi'.fields
  have h' : p ++ 31 :: (n ++ 31 :: (d ++ 31 :: x)) = p' ++ 31 :: (n' ++ 31 :: (d' ++ 31 :: y)) := by
    simpa using h
  obtain ⟨hprovider, hrest⟩ := cancel_field hp hp' h'
  obtain ⟨hname, hrest⟩ := cancel_field hn hn' hrest
  obtain ⟨hdigest, hxy⟩ := cancel_field hd hd' hrest
  rw [hprovider, hname, hdigest]
  exact ⟨rfl, hxy⟩

/-- A context whose keys can be read back. -/
structure AuthContext.Separable (auth : AuthContext) : Prop where
  identity : Identity auth.identity
  driveId : 31 ∉ auth.driveId
  rootFolderId : 31 ∉ auth.rootFolderId

theorem cancel_keyPrefix {auth auth' : AuthContext} (ha : auth.Separable) (ha' : auth'.Separable)
    {x y : Str} (h : auth.keyPrefix ++ x = auth'.keyPrefix ++ y) : auth = auth' ∧ x = y := by
  obtain ⟨i, d, r⟩ := auth
  obtain ⟨i', d', r'⟩ := auth'
  have h' : i ++ 31 :: (d ++ 31 :: (r ++ 31 :: x)) = i' ++ 31 :: (d' ++ 31 :: (r' ++ 31 :: y)) := by
    simpa [AuthContext.keyPrefix, separator] using h
  obtain ⟨hidentity, hrest⟩ := cancel_identity ha.identity ha'.identity h'
  obtain ⟨hdrive, hrest⟩ := cancel_field ha.driveId ha'.driveId hrest
  obtain ⟨hroot, hxy⟩ := cancel_field ha.rootFolderId ha'.rootFolderId hrest
  simp only at hidentity hdrive hroot
  rw [hidentity, hdrive, hroot]
  exact ⟨rfl, hxy⟩

theorem cancel_blockKey {auth auth' : AuthContext} (ha : auth.Separable) (ha' : auth'.Separable)
    {file file' : DriveFileMeta} (hid : 31 ∉ file.id) (hid' : 31 ∉ file'.id) {bs bs' i i' : Nat}
    (h : fullBlockKey (buildBlockKey auth file) bs i =
      fullBlockKey (buildBlockKey auth' file') bs' i') :
    auth = auth' ∧ file.id = file'.id ∧ file.headRevisionId = file'.headRevisionId ∧ bs = bs' ∧
      i = i' := by
  obtain ⟨h', hbs, hi⟩ := fullBlockKey_injective h
  have hkey : auth.keyPrefix ++ (file.id ++ 31 :: file.headRevisionId) =
      auth'.keyPrefix ++ (file'.id ++ 31 :: file'.headRevisionId) := by
    simpa [buildBlockKey, separator] using h'
  obtain ⟨hauth, hrest⟩ := cancel_keyPrefix ha ha' hkey
  obtain ⟨hid, hrevision⟩ := cancel_field hid hid' hrest
  exact ⟨hauth, hid, hrevision, hbs, hi⟩

-- ================================================================= separation

/-- The context of a secret's requests. -/
def Secret.auth (sha256 : Str → Option Str) (address : Nat) (driveId rootFolderId : Str)
    (s : Secret) : AuthContext :=
  ⟨s.identity sha256 address, driveId, rootFolderId⟩

/-- One identity is one secret, one path key one request for a path, one
block key one block of one revision, each under one identity. -/
theorem identity_separation {sha256 : Str → Option Str} (hsha : Hashes sha256) {s s' : Secret}
    (hs : s.Separable) (hs' : s'.Separable)
    (hsource : (31 ∉ s.source ∧ 31 ∉ s'.source) ∨ (s.KeepsSource ∧ s'.KeepsSource))
    (address address' : Nat) :
    (s.identity sha256 address = s'.identity sha256 address' →
      s.provider = s'.provider ∧ s.name = s'.name ∧ s.source = s'.source ∧
        identityFields s.provider s.fields = identityFields s'.provider s'.fields) ∧
      ∀ driveId driveId' rootId rootId' : Str, 31 ∉ driveId → 31 ∉ driveId' → 31 ∉ rootId →
        31 ∉ rootId' →
        (∀ path path' : Str,
          CacheKey.toString ⟨s.auth sha256 address driveId rootId, path⟩ =
              CacheKey.toString ⟨s'.auth sha256 address' driveId' rootId', path'⟩ →
            s.identity sha256 address = s'.identity sha256 address' ∧ driveId = driveId' ∧
              rootId = rootId' ∧ path = path') ∧
          ∀ (file file' : DriveFileMeta) (bs bs' i i' : Nat), 31 ∉ file.id → 31 ∉ file'.id →
            fullBlockKey (buildBlockKey (s.auth sha256 address driveId rootId) file) bs i =
                fullBlockKey (buildBlockKey (s'.auth sha256 address' driveId' rootId') file') bs' i' →
              s.identity sha256 address = s'.identity sha256 address' ∧ driveId = driveId' ∧
                rootId = rootId' ∧ file.id = file'.id ∧ file.headRevisionId = file'.headRevisionId ∧
                bs = bs' ∧ i = i' := by
  refine ⟨identity_injective hsha hs hs' hsource, ?_⟩
  intro driveId driveId' rootId rootId' hdrive hdrive' hroot hroot'
  have hauth : (s.auth sha256 address driveId rootId).Separable :=
    ⟨hs.identity hsha address, hdrive, hroot⟩
  have hauth' : (s'.auth sha256 address' driveId' rootId').Separable :=
    ⟨hs'.identity hsha address', hdrive', hroot'⟩
  refine ⟨?_, ?_⟩
  · intro path path' h
    obtain ⟨hcontext, hpath⟩ := cancel_keyPrefix hauth hauth' h
    obtain ⟨hidentity, hdriveId, hrootId⟩ := AuthContext.mk.inj hcontext
    exact ⟨hidentity, hdriveId, hrootId, hpath⟩
  · intro file file' bs bs' i i' hid hid' h
    obtain ⟨hcontext, hfile, hrevision, hbs, hi⟩ := cancel_blockKey hauth hauth' hid hid' h
    obtain ⟨hidentity, hdriveId, hrootId⟩ := AuthContext.mk.inj hcontext
    exact ⟨hidentity, hdriveId, hrootId, hfile, hrevision, hbs, hi⟩

/-- The SHA-256 digest of "drive_scope=rw␟source=/a:1␟". -/
def scopeDigest : Str :=
  [18, 169, 206, 61, 56, 15, 198, 4, 205, 90, 220, 189, 153, 165, 126, 52, 85, 154, 26, 10, 49, 139,
    248, 173, 172, 95, 8, 196, 129, 4, 155, 105]

/-- The case of a field's name does not count. -/
theorem identity_separation_case :
    identityFields (str "credential_chain") [(str "DRIVE_SCOPE", str "rw")] =
      identityFields (str "credential_chain") [(str "drive_scope", str "rw")] :=
  ((@identity_separation
    (fun t => some (Equiv.swap (joined [(str "drive_scope", str "rw")] (str "/a:1"))
      scopeDigest t))
    ⟨fun _ => ⟨_, rfl⟩, fun _ _ h => (Equiv.swap _ _).injective (Option.some.inj h)⟩
    ⟨str "credential_chain", str "g", [(str "DRIVE_SCOPE", str "rw")], str "/a:1"⟩
    ⟨str "credential_chain", str "g", [(str "drive_scope", str "rw")], str "/a:1"⟩
    ⟨by decide, by decide, by decide⟩ ⟨by decide, by decide, by decide⟩
    (.inl ⟨by decide, by decide⟩) 0 0).1 (by decide +kernel)).2.2.2

/-- A source that contains the separator can pass for a field and another
source. -/
theorem identity_separation_source :
    let s : Secret := ⟨str "credential_chain", str "g", [(str "source", str "a")], str "b"⟩
    let s' : Secret :=
      ⟨str "credential_chain", str "g", [], str "a" ++ separator ++ str "source=b"⟩
    s.Separable ∧ s'.Separable ∧
      (∀ sha256 address, s.identity sha256 address = s'.identity sha256 address) ∧
      s.source ≠ s'.source ∧
      identityFields s.provider s.fields ≠ identityFields s'.provider s'.fields := by
  refine ⟨⟨by decide, by decide, by decide⟩, ⟨by decide, by decide, by decide⟩, ?_, by decide,
    by decide⟩
  intro sha256 address
  unfold Secret.identity
  rw [show identityMaterial (str "credential_chain") [(str "source", str "a")] (str "b") =
    [str "source=a", str "source=b"] by decide]
  rfl

end GDrive
