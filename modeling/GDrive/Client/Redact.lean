/-
Messages for the user (gdrive_errors.cpp): the texts of
`FormatUserMessage`, and the redaction of whatever in them looks like a
credential.

# The passes

`RedactCredentials` runs nine loops over the text, each on what the one
before it left: PEM blocks, the authorization header, bearer tokens, the two
prefixes of Google's tokens, the values of five keys. Each loop is a `Pass`,
so each ends (`formatUserMessage_ends`).

# The markers

The replacement cannot be part of a marker, nor complete one with the text
around it, so a marker that one pass has removed does not come back
(`format_user_message_markers`).
-/
import GDrive.Client.Errors
import GDrive.Rewriting.Pass

namespace GDrive

open Rewriting

-- ================================================================ the alphabet

def isIdentifierChar (c : UInt8) : Bool := isAlnum c || c == 95 -- '_'

/-- What a run behind a token's prefix goes on with. -/
def isRunChar (c : UInt8) : Bool :=
  isAlnum c || c == 46 || c == 45 || c == 95 || c == 47 -- '.', '-', '_', '/'

/-- What may stand between a key and its value. -/
def isDelimiter (c : UInt8) : Bool :=
  c == 34 || c == 39 || c == 58 || c == 61 || isBlank c -- '"', '\'', ':', '='

/-- What a value ends at. -/
def endsValue (c : UInt8) : Bool :=
  c == 34 || c == 39 || c == 44 || c == 125 || c == 38 || isSpace c -- '"', '\'', ',', '}', '&'

def kRedacted : Str := str "[redacted]"

/-- Does the text start with the needle, in any letter case? -/
def startsLower (needle s : Str) : Bool := needle.isPrefixOf (s.map toLower)

-- ================================================================== the passes

section Cuts

variable {needle h : Str}

theorem length_of_startsLower (hs : startsLower needle h = true) : needle.length ≤ h.length := by
  have hlen := (List.isPrefixOf_iff_prefix.mp hs).length_le
  rwa [List.length_map] at hlen

/-- The rest of a cut is shorter when the needle has been passed. -/
theorem rest_lt_of_prefix {c : Cut UInt8} (hne : needle ≠ [])
    (heq : c.kept ++ c.dropped ++ c.rest = h) (hlen : needle.length ≤ (c.kept ++ c.dropped).length) :
    c.rest.length < h.length := by
  have hpos := List.length_pos_iff.mpr hne
  have hsum := congrArg List.length heq
  rw [List.length_append] at hsum
  omega

end Cuts

/-- "-----BEGIN" up to the end of the matching "-----END ...-----", or of the
text. -/
def pemCut (h : Str) : Cut UInt8 :=
  match splitAtFirst ((str "-----END").isPrefixOf ·) h with
  | none => ⟨[], h, []⟩
  | some (u, e) =>
      match splitAtFirst ((str "-----").isPrefixOf ·) (e.drop 8) with
      | none => ⟨[], h, []⟩
      | some (v, trailer) => ⟨[], u ++ e.take 8 ++ v ++ trailer.take 5, trailer.drop 5⟩

theorem pemCut_eq (h : Str) : (pemCut h).kept ++ (pemCut h).dropped ++ (pemCut h).rest = h := by
  unfold pemCut
  split
  · simp
  · rename_i u e hu
    obtain ⟨rfl, -, -, -⟩ := splitAtFirst_eq_some hu
    split
    · simp
    · rename_i v trailer hv
      obtain ⟨hdrop, -, -, -⟩ := splitAtFirst_eq_some hv
      simp only [List.nil_append, List.append_assoc, List.take_append_drop]
      rw [← hdrop, List.take_append_drop]

theorem pemCut_dropped {h : Str} (hne : h ≠ []) : (pemCut h).dropped ≠ [] := by
  unfold pemCut
  split
  · exact hne
  · split
    · exact hne
    · rename_i v trailer hv
      obtain ⟨-, hstart, -, -⟩ := splitAtFirst_eq_some hv
      intro hnil
      rw [List.append_eq_nil_iff] at hnil
      have htake := hnil.2
      obtain ⟨rest, hrest⟩ := List.isPrefixOf_iff_prefix.mp hstart
      rw [← hrest] at htake
      cases htake

/-- PEM blocks. -/
def pemBlock : Pass UInt8 where
  starts := ((str "-----BEGIN").isPrefixOf ·)
  cut _ h := pemCut h
  cut_eq _ h _ := pemCut_eq h
  progress _ h hs := by
    have hne : h ≠ [] := by
      intro hnil
      rw [hnil] at hs
      cases hs
    have hsum := congrArg List.length (pemCut_eq h)
    have hpos := List.length_pos_iff.mpr (pemCut_dropped hne)
    rw [List.length_append, List.length_append] at hsum
    omega

/-- `RedactKeywordToken`, from the keyword on. A token needs a blank before
it. -/
def keywordCut (keyword h : Str) : Cut UInt8 :=
  let after := h.drop keyword.length
  let tail := after.dropWhile isBlank
  let token := tail.takeWhile (!isSpace ·)
  if (after.takeWhile isBlank).isEmpty || token.isEmpty then ⟨h.take keyword.length, [], after⟩
  else ⟨h.take keyword.length ++ after.takeWhile isBlank, token, tail.dropWhile (!isSpace ·)⟩

/-- `RedactKeyValue`, from the key on: a whole word, a delimiter, a value. -/
def keyValueCut (key : Str) (l : Option UInt8) (h : Str) : Cut UInt8 :=
  let after := h.drop key.length
  let tail := after.dropWhile isDelimiter
  let value := tail.takeWhile (!endsValue ·)
  if l.any isIdentifierChar || after.head?.any isIdentifierChar then ⟨h.take key.length, [], after⟩
  else if (after.takeWhile isDelimiter).isEmpty || value.isEmpty then ⟨h.take key.length, [], after⟩
  else ⟨h.take key.length ++ after.takeWhile isDelimiter, value, tail.dropWhile (!endsValue ·)⟩

/-- "authorization" and its length. -/
def kAuthorization : Str := str "authorization"

/-- `RedactAuthorizationHeader`, from the name on: the scheme stays, the
value goes. -/
def authorizationCut (h : Str) : Cut UInt8 :=
  let after := h.drop kAuthorization.length
  let sep := after.takeWhile fun c => c == 58 || isBlank c
  let tail := after.dropWhile fun c => c == 58 || isBlank c
  let scheme := tail.takeWhile (!isSpace ·)
  let behind := tail.dropWhile (!isSpace ·)
  let value := (behind.dropWhile isBlank).takeWhile (!isSpace ·)
  if scheme.isEmpty then ⟨h.take kAuthorization.length ++ sep, [], tail⟩
  else if (behind.takeWhile isBlank).isEmpty || value.isEmpty then
    ⟨h.take kAuthorization.length ++ sep ++ scheme, [], behind⟩
  else
    ⟨h.take kAuthorization.length ++ sep ++ scheme ++ behind.takeWhile isBlank, value,
      (behind.dropWhile isBlank).dropWhile (!isSpace ·)⟩

theorem keywordCut_eq (keyword h : Str) :
    (keywordCut keyword h).kept ++ (keywordCut keyword h).dropped ++ (keywordCut keyword h).rest = h ∧
      h.take keyword.length <+: (keywordCut keyword h).kept := by
  unfold keywordCut
  simp only
  split
  · simp
  · simp

theorem keyValueCut_eq (key : Str) (l : Option UInt8) (h : Str) :
    (keyValueCut key l h).kept ++ (keyValueCut key l h).dropped ++ (keyValueCut key l h).rest = h ∧
      h.take key.length <+: (keyValueCut key l h).kept := by
  unfold keyValueCut
  simp only
  split
  · simp
  · split
    · simp
    · simp

theorem authorizationCut_eq (h : Str) :
    (authorizationCut h).kept ++ (authorizationCut h).dropped ++ (authorizationCut h).rest = h ∧
      h.take kAuthorization.length <+: (authorizationCut h).kept := by
  unfold authorizationCut
  simp only
  split
  · simp
  · split
    · simp
    · simp

/-- A loop that looks for a word in any letter case and keeps it. -/
def wordPass (needle : Str) (hne : needle ≠ []) (cut : Option UInt8 → Str → Cut UInt8)
    (hcut : ∀ l h, (cut l h).kept ++ (cut l h).dropped ++ (cut l h).rest = h ∧
      h.take needle.length <+: (cut l h).kept) : Pass UInt8 where
  starts := startsLower needle
  cut := cut
  cut_eq l h _ := (hcut l h).1
  progress l h hs := by
    refine rest_lt_of_prefix hne (hcut l h).1 ?_
    have hlen := length_of_startsLower hs
    have htake := (hcut l h).2.length_le
    rw [List.length_take_of_le hlen] at htake
    rw [List.length_append]
    omega

def authorizationHeader : Pass UInt8 :=
  wordPass kAuthorization (by decide) (fun _ => authorizationCut) fun _ => authorizationCut_eq

def keywordToken (keyword : Str) (hne : keyword ≠ []) : Pass UInt8 :=
  wordPass keyword hne (fun _ => keywordCut keyword) fun _ => keywordCut_eq keyword

def keyValue (key : Str) (hne : key ≠ []) : Pass UInt8 :=
  wordPass key hne (keyValueCut key) (keyValueCut_eq key)

/-- `RedactPrefixedRun`: the run of token letters that starts with the
prefix. -/
def prefixedRun (pre : Str) (hpre : pre.head?.any isRunChar = true) : Pass UInt8 where
  starts := (pre.isPrefixOf ·)
  cut _ h := ⟨[], h.takeWhile isRunChar, h.dropWhile isRunChar⟩
  cut_eq _ h _ := by simp
  progress _ h hs := by
    obtain ⟨rest, rfl⟩ := List.isPrefixOf_iff_prefix.mp hs
    cases pre with
    | nil => cases hpre
    | cons c pre =>
        have hc : isRunChar c = true := by simpa using hpre
        rw [List.cons_append, List.dropWhile_cons_of_pos hc, List.length_cons]
        exact Nat.lt_succ_of_le (List.dropWhile_sublist _).length_le

/-- The keys whose values are redacted. -/
def credentialKeys : List Str :=
  [str "access_token", str "refresh_token", str "private_key", str "client_secret", str "id_token"]

/-- The loop for one key; there is none for an empty key. -/
def redactKeyValue (fuel : Nat) (out key : Str) : Option Str :=
  if hne : key = [] then some out else (keyValue key hne).run kRedacted fuel none out

/-- `RedactCredentials`, each loop with `fuel` rounds. -/
def redactCredentials (fuel : Nat) (input : Str) : Option Str := do
  let out ← pemBlock.restart kRedacted fuel input
  let out ← authorizationHeader.run kRedacted fuel none out
  let out ← (keywordToken (str "bearer") (by decide)).run kRedacted fuel none out
  let out ← (prefixedRun (str "ya29.") (by decide)).run kRedacted fuel none out
  let out ← (prefixedRun (str "1//") (by decide)).run kRedacted fuel none out
  credentialKeys.foldlM (redactKeyValue fuel) out

-- ================================================================ the messages

/-- What each kind of error says of the context. -/
def kindText (error : GDriveError) (context : Str) : Str :=
  match error.kind with
  | .notFound => str "no such file: " ++ context
  | .unauthenticated =>
      str "authentication failed for " ++ context
        ++ str ": the credential is missing, malformed, or expired; re-authenticate (recreate the gdrive access configuration) and retry"
  | .permissionDenied =>
      str "permission denied for " ++ context
        ++ str ": the authenticated identity does not have sufficient access to this file"
  | .insufficientScope =>
      str "insufficient OAuth scope for " ++ context
        ++ str ": the access token was not granted a Google Drive scope. This is not a file-sharing problem.\nIf the credential came from gcloud, request the Drive scope explicitly:\n  gcloud auth application-default login \\\n    --scopes=openid,https://www.googleapis.com/auth/drive\n(gcloud's default scope, cloud-platform, does not include Drive.)\nFor a gdrive secret, set DRIVE_SCOPE to a Drive scope such as 'https://www.googleapis.com/auth/drive'."
  | .storageQuota =>
      str "Drive storage quota exceeded while accessing " ++ context
        ++ str ": the account has no storage quota available to complete this write (service accounts do not have storage quota outside a Shared Drive)"
  | .rateLimit =>
      str "Drive API quota exceeded while accessing " ++ context
        ++ str ": this request was rate-limited"
        ++ (if 0 < error.retryAfterSeconds then
            str " and can be retried after " ++ decimal error.retryAfterSeconds.toNat
              ++ str " second(s)"
          else str "; retry with backoff")
  | .transient =>
      str "temporary Drive API failure while accessing " ++ context ++ str ": retry with backoff"
  | .invalidRequest =>
      str "invalid Drive API request for " ++ context ++ str " (internal error, not a user mistake)"
  | .notDownloadable =>
      context ++ str " has no downloadable content (a native Google format); export it instead"
  | .unknown => str "Drive API request failed for " ++ context

/-- The text before its own redaction. A raw message is redacted on its own
first, and left out where it may be an echo of the credential. -/
def foldMessage (fuel : Nat) (error : GDriveError) (context : Str) : Option Str :=
  if error.message.isEmpty || error.kind = .unauthenticated then some (kindText error context)
  else
    (redactCredentials fuel error.message).map fun message =>
      kindText error context ++ str " (" ++ message ++ str ")"

/-- `FormatUserMessage`, each loop with `fuel` rounds. -/
def formatUserMessage (fuel : Nat) (error : GDriveError) (context : Str) : Option Str :=
  (foldMessage fuel error context).bind (redactCredentials fuel)

-- =============================================================== each loop ends

/-- The value of a key, redacted. -/
def redactedKeyValue (out key : Str) : Str :=
  if hne : key = [] then out else (keyValue key hne).apply kRedacted none out

/-- What `RedactCredentials` comes to. -/
def redacted (input : Str) : Str :=
  let out := pemBlock.apply kRedacted none input
  let out := authorizationHeader.apply kRedacted none out
  let out := (keywordToken (str "bearer") (by decide)).apply kRedacted none out
  let out := (prefixedRun (str "ya29.") (by decide)).apply kRedacted none out
  let out := (prefixedRun (str "1//") (by decide)).apply kRedacted none out
  credentialKeys.foldl redactedKeyValue out

/-- A word that can only stand on one side of the replacement. -/
theorem separates_redacted {m : Str} (hopen : 91 ∉ m) (hclose : 93 ∉ m)
    (hinner : ¬m <:+: str "redacted") : Separates kRedacted m :=
  separates_of_ends hopen hclose hinner

theorem pemBlock_drops : pemBlock.Drops := by
  intro l h hs
  have hne : h ≠ [] := by
    intro hnil
    rw [hnil] at hs
    cases hs
  refine ⟨?_, pemCut_dropped hne⟩
  show (pemCut h).kept = []
  unfold pemCut
  split
  · rfl
  · split <;> rfl

theorem prefixedRun_drops {pre : Str} (hpre : pre.head?.any isRunChar = true) :
    (prefixedRun pre hpre).Drops := by
  intro l h hs
  obtain ⟨rest, rfl⟩ := List.isPrefixOf_iff_prefix.mp hs
  refine ⟨rfl, ?_⟩
  cases pre with
  | nil => cases hpre
  | cons c pre =>
      have hc : isRunChar c = true := by simpa using hpre
      show ((c :: pre ++ rest).takeWhile isRunChar) ≠ []
      rw [List.cons_append, List.takeWhile_cons_of_pos hc]
      exact List.cons_ne_nil _ _

theorem kRedacted_eq : kRedacted = 91 :: str "redacted]" := by decide

theorem begin_eq : str "-----BEGIN" = 45 :: str "----BEGIN" := by decide

/-- The replacement is part of no marker. -/
theorem pemBlock_inert : pemBlock.Inert kRedacted := by
  intro a b r hab hb
  cases hs : pemBlock.starts (b ++ r) with
  | false => rfl
  | true =>
      cases b with
      | nil => exact absurd rfl hb
      | cons c b =>
          obtain ⟨e, he⟩ := List.isPrefixOf_iff_prefix.mp hs
          rw [begin_eq] at he
          have hmem : c ∈ kRedacted := by
            rw [hab]
            exact List.mem_append_right _ List.mem_cons_self
          rw [← (List.cons.inj he).1] at hmem
          exact absurd hmem (by decide)

theorem pemBlock_apart : pemBlock.Apart kRedacted := by
  intro b r r' hb hs
  obtain ⟨e, he⟩ := List.isPrefixOf_iff_prefix.mp hs
  refine List.isPrefixOf_iff_prefix.mpr ?_
  rw [List.append_assoc] at he
  rcases List.append_eq_append_iff.mp he with ⟨d, rfl, -⟩ | ⟨d, hd, hrest⟩
  · exact ⟨d ++ r', by simp⟩
  · cases d with
    | nil => exact ⟨r', by rw [hd, List.append_nil]⟩
    | cons c d =>
        rw [kRedacted_eq] at hrest
        have hmem : c ∈ str "-----BEGIN" := by
          rw [hd]
          exact List.mem_append_right _ List.mem_cons_self
        rw [← (List.cons.inj hrest).1] at hmem
        exact absurd hmem (by decide)

/-- A PEM block is found again from the beginning where it was found going
on. -/
theorem pemBlock_restart (fuel : Nat) (s : Str) :
    pemBlock.restart kRedacted fuel s = pemBlock.run kRedacted fuel none s := by
  have h := Pass.restart_eq (l := none) (s := s) pemBlock_drops (fun _ _ _ => rfl) pemBlock_inert
    pemBlock_apart fuel (fun a b r hab hb => absurd (List.append_eq_nil_iff.mp hab.symm).2 hb)
  rw [List.nil_append] at h
  rw [h]
  cases pemBlock.run kRedacted fuel none s <;> rfl

theorem redactKeyValue_ends (key out : Str) :
    Ends (redactKeyValue · out key) (redactedKeyValue out key) := by
  unfold redactKeyValue redactedKeyValue
  split
  · exact ⟨0, fun _ _ => rfl⟩
  · exact Pass.run_ends _ _ _ _

theorem redactKeyValues_ends (keys : List Str) (out : Str) :
    Ends (fun fuel => keys.foldlM (redactKeyValue fuel) out) (keys.foldl redactedKeyValue out) := by
  induction keys generalizing out with
  | nil => exact ⟨0, fun _ _ => rfl⟩
  | cons key keys ih => exact (redactKeyValue_ends key out).bind (ih _)

theorem redactCredentials_ends (input : Str) : Ends (redactCredentials · input) (redacted input) := by
  unfold redactCredentials redacted
  refine Ends.bind ?_ (Ends.bind (Pass.run_ends _ _ _ _) (Ends.bind (Pass.run_ends _ _ _ _)
    (Ends.bind (Pass.run_ends _ _ _ _) (Ends.bind (Pass.run_ends _ _ _ _)
      (redactKeyValues_ends _ _)))))
  simp only [pemBlock_restart]
  exact Pass.run_ends _ _ _ _

/-- The text that is redacted last. -/
def foldedMessage (error : GDriveError) (context : Str) : Str :=
  if error.message.isEmpty || error.kind = .unauthenticated then kindText error context
  else kindText error context ++ str " (" ++ redacted error.message ++ str ")"

theorem foldMessage_ends (error : GDriveError) (context : Str) :
    Ends (foldMessage · error context) (foldedMessage error context) := by
  unfold foldMessage foldedMessage
  split
  · exact ⟨0, fun _ _ => rfl⟩
  · obtain ⟨n, hn⟩ := redactCredentials_ends error.message
    refine ⟨n, ?_⟩
    intro fuel hfuel
    have hfuel' : redactCredentials fuel error.message = some (redacted error.message) :=
      hn fuel hfuel
    simp only [hfuel', Option.map_some]

/-- Every loop behind a message ends. -/
theorem formatUserMessage_ends (error : GDriveError) (context : Str) :
    Ends (formatUserMessage · error context) (redacted (foldedMessage error context)) :=
  (foldMessage_ends error context).bind (redactCredentials_ends _)

-- ================================================================== less fuel

theorem redactKeyValues_eq {fuel : Nat} {keys : List Str} {s out : Str}
    (h : keys.foldlM (redactKeyValue fuel) s = some out) : out = keys.foldl redactedKeyValue s := by
  induction keys generalizing s with
  | nil => exact (Option.some.inj h).symm
  | cons key keys ih =>
      rw [List.foldlM_cons, Option.bind_eq_bind, Option.bind_eq_some_iff] at h
      obtain ⟨s', hs', hrest⟩ := h
      have hone : s' = redactedKeyValue s key := by
        unfold redactKeyValue at hs'
        unfold redactedKeyValue
        split at hs'
        · rename_i hne
          rw [dif_pos hne]
          exact (Option.some.inj hs').symm
        · rename_i hne
          rw [dif_neg hne]
          exact Pass.apply_of_run hs'
      rw [List.foldl_cons, ← hone]
      exact ih hrest

/-- Whatever the fuel, a run that ends comes to the same. -/
theorem redactCredentials_eq {fuel : Nat} {input out : Str}
    (h : redactCredentials fuel input = some out) : out = redacted input := by
  unfold redactCredentials at h
  simp only [pemBlock_restart, Option.bind_eq_bind, Option.bind_eq_some_iff] at h
  obtain ⟨_, h₁, _, h₂, _, h₃, _, h₄, _, h₅, h₆⟩ := h
  rw [Pass.apply_of_run h₁] at h₂
  rw [Pass.apply_of_run h₂] at h₃
  rw [Pass.apply_of_run h₃] at h₄
  rw [Pass.apply_of_run h₄] at h₅
  rw [Pass.apply_of_run h₅] at h₆
  exact redactKeyValues_eq h₆

theorem formatUserMessage_eq {fuel : Nat} {error : GDriveError} {context out : Str}
    (h : formatUserMessage fuel error context = some out) :
    out = redacted (foldedMessage error context) := by
  unfold formatUserMessage foldMessage at h
  unfold foldedMessage
  split at h
  · rename_i hcase
    rw [if_pos hcase]
    exact redactCredentials_eq h
  · rename_i hcase
    rw [if_neg hcase]
    simp only [Option.bind_eq_some_iff, Option.map_eq_some_iff] at h
    obtain ⟨_, ⟨message, hmessage, rfl⟩, hout⟩ := h
    rw [← redactCredentials_eq hmessage]
    exact redactCredentials_eq hout

-- ================================================================= the markers

/-- What no message may contain. -/
def credentialMarkers : List Str := [str "ya29.", str "1//", str "-----BEGIN"]

theorem separates_marker {m : Str} (hm : m ∈ credentialMarkers) : Separates kRedacted m := by
  have hall : ∀ m ∈ credentialMarkers, 91 ∉ m ∧ 93 ∉ m ∧ ¬m <:+: str "redacted" := by decide
  obtain ⟨hopen, hclose, hinner⟩ := hall m hm
  exact separates_redacted hopen hclose hinner

/-- A loop brings no marker back. -/
theorem apply_without (p : Pass UInt8) {m s : Str} (hm : m ∈ credentialMarkers) (h : ¬m <:+: s) :
    ¬m <:+: p.apply kRedacted none s :=
  Pass.apply_avoids (separates_marker hm) (x := []) h

theorem redactedKeyValues_without {m : Str} (hm : m ∈ credentialMarkers) {keys : List Str} {s : Str}
    (h : ¬m <:+: s) : ¬m <:+: keys.foldl redactedKeyValue s := by
  induction keys generalizing s with
  | nil => exact h
  | cons key keys ih =>
      rw [List.foldl_cons]
      apply ih
      unfold redactedKeyValue
      split
      · exact h
      · exact apply_without _ hm h

theorem prefixedRun_clears {pre : Str} (hpre : pre.head?.any isRunChar = true)
    (hm : pre ∈ credentialMarkers) (s : Str) :
    ¬pre <:+: (prefixedRun pre hpre).apply kRedacted none s := by
  refine Pass.apply_clears (separates_marker hm) (prefixedRun_drops hpre) ?_ ?_
  · rintro rfl
    cases hpre
  · intro a
    exact List.isPrefixOf_iff_prefix.mpr (List.prefix_append _ _)

theorem redacted_without {m : Str} (hm : m ∈ credentialMarkers) (input : Str) :
    ¬m <:+: redacted input := by
  have hcases : m = str "ya29." ∨ m = str "1//" ∨ m = str "-----BEGIN" := by
    simpa [credentialMarkers] using hm
  unfold redacted
  apply redactedKeyValues_without hm
  rcases hcases with rfl | rfl | rfl
  · exact apply_without _ hm (prefixedRun_clears _ hm _)
  · exact prefixedRun_clears _ hm _
  · refine apply_without _ hm (apply_without _ hm (apply_without _ hm (apply_without _ hm ?_)))
    refine Pass.apply_clears (separates_marker hm) pemBlock_drops (by decide) ?_
    intro a
    exact List.isPrefixOf_iff_prefix.mpr (List.prefix_append _ _)

-- =============================================================== the PEM blocks

/-- A word none of whose ends is one of its beginnings cannot overlap
itself. -/
theorem prefix_of_unbordered {m b x : Str} (hm : ∀ k < m.length, 0 < k → ¬m.drop k <+: m)
    (hb : b ≠ []) (h : m <+: b ++ (m ++ x)) : m <+: b := by
  by_cases hlen : m.length ≤ b.length
  · exact List.prefix_of_prefix_length_le h (List.prefix_append _ _) hlen
  · have hbm : b <+: m :=
      List.prefix_of_prefix_length_le (List.prefix_append _ _) h (by omega)
    obtain ⟨e, rfl⟩ := hbm
    have hpos := List.length_pos_iff.mpr hb
    rw [List.length_append] at hlen
    have hrest : e <+: (b ++ e) ++ x := (List.prefix_append_right_inj b).mp h
    have hborder : e <+: b ++ e :=
      List.prefix_of_prefix_length_le hrest (List.prefix_append _ _) (by simp)
    refine absurd ?_ (hm b.length (by rw [List.length_append]; omega) hpos)
    rwa [List.drop_left]

/-- No end marker begins inside a begin marker. -/
theorem end_in_body {body : Str} (h : str "-----END" <:+: str "-----BEGIN" ++ body) :
    str "-----END" <:+: body := by
  have hsplit : str "-----BEGIN" ++ body = str "-----BEG" ++ 73 :: (78 :: body) := by
    rw [show str "-----BEGIN" = str "-----BEG" ++ [73, 78] by decide]
    simp
  rw [hsplit] at h
  rcases infix_of_letter (by decide) h with hleft | hright
  · exact absurd hleft (by decide)
  · rcases List.infix_cons_iff.mp hright with hbegins | hin
    · obtain ⟨e, he⟩ := hbegins
      rw [show str "-----END" = 45 :: str "----END" by decide] at he
      exact absurd (List.cons.inj he).1 (by decide)
    · exact hin

/-- What stands behind a PEM block. -/
def behindBlock (post : Str) : Str :=
  match splitAtFirst ((str "-----").isPrefixOf ·) (post.drop 8) with
  | none => []
  | some (_, trailer) => trailer.drop 5

/-- A block is cut where its body does not matter. -/
theorem pemCut_block {body post : Str} (hbody : ¬str "-----END" <:+: body)
    (hpost : post = [] ∨ str "-----END" <+: post) :
    (pemCut (str "-----BEGIN" ++ body ++ post)).rest = behindBlock post := by
  have hinner : ∀ a b, str "-----BEGIN" ++ body = a ++ b → b ≠ [] →
      (str "-----END").isPrefixOf (b ++ post) = false := by
    intro a b hab hb
    cases hs : (str "-----END").isPrefixOf (b ++ post) with
    | false => rfl
    | true =>
        have hbegins := List.isPrefixOf_iff_prefix.mp hs
        have hin : str "-----END" <+: b := by
          rcases hpost with rfl | ⟨y, rfl⟩
          · rwa [List.append_nil] at hbegins
          · exact prefix_of_unbordered (by decide) hb hbegins
        refine absurd (end_in_body ?_) hbody
        rw [hab]
        exact hin.isInfix.trans (List.suffix_append _ _).isInfix
  unfold pemCut behindBlock
  rw [splitAtFirst_append hinner]
  rcases hpost with rfl | ⟨y, rfl⟩
  · rfl
  · have hstart : (str "-----END").isPrefixOf (str "-----END" ++ y) = true :=
      List.isPrefixOf_iff_prefix.mpr (List.prefix_append _ _)
    rw [show str "-----END" ++ y = 45 :: (str "----END" ++ y) from rfl] at hstart ⊢
    rw [splitAtFirst_cons_of_starts hstart]
    simp only [Option.map_some]
    split
    · rfl
    · rfl

/-- The first block of a message is redacted whole. -/
theorem pemBlock_block {fuel : Nat} {pre body post : Str} (hpre : ¬str "-----" <:+: pre)
    (hbody : ¬str "-----END" <:+: body) (hpost : post = [] ∨ str "-----END" <+: post) :
    pemBlock.restart kRedacted (fuel + 1) (pre ++ str "-----BEGIN" ++ body ++ post) =
      pemBlock.restart kRedacted fuel (pre ++ kRedacted ++ behindBlock post) := by
  have hfirst : ∀ a b, pre = a ++ b → b ≠ [] →
      pemBlock.starts (b ++ (str "-----BEGIN" ++ body ++ post)) = false := by
    intro a b hab hb
    cases hs : pemBlock.starts (b ++ (str "-----BEGIN" ++ body ++ post)) with
    | false => rfl
    | true =>
        have hbegins : str "-----BEGIN" <+: b ++ (str "-----BEGIN" ++ (body ++ post)) := by
          rw [← List.append_assoc (str "-----BEGIN")]
          exact List.isPrefixOf_iff_prefix.mp hs
        have hin := prefix_of_unbordered (by decide) hb hbegins
        refine absurd ?_ hpre
        rw [hab]
        have hdashes : str "-----" <+: str "-----BEGIN" := by decide
        exact (hdashes.trans hin).isInfix.trans (List.suffix_append _ _).isInfix
  have hstart : pemBlock.starts (str "-----BEGIN" ++ body ++ post) = true := by
    refine List.isPrefixOf_iff_prefix.mpr ⟨body ++ post, ?_⟩
    rw [List.append_assoc]
  have hsplit : splitAtFirst pemBlock.starts (pre ++ (str "-----BEGIN" ++ body ++ post)) =
      some (pre, str "-----BEGIN" ++ body ++ post) := by
    have hhere : splitAtFirst pemBlock.starts (str "-----BEGIN" ++ body ++ post) =
        some ([], str "-----BEGIN" ++ body ++ post) := by
      rw [begin_eq] at hstart ⊢
      exact splitAtFirst_cons_of_starts hstart
    rw [splitAtFirst_append hfirst, hhere]
    simp
  rw [Pass.restart, List.append_assoc, List.append_assoc, ← List.append_assoc (str "-----BEGIN"),
    hsplit]
  simp only
  rw [Pass.round_of_drops pemBlock_drops hsplit]
  show pemBlock.restart kRedacted fuel
    (pre ++ kRedacted ++ (pemCut (str "-----BEGIN" ++ body ++ post)).rest) = _
  rw [pemCut_block hbody hpost]

theorem redactCredentials_block {fuel : Nat} {pre body body' post : Str}
    (hpre : ¬str "-----" <:+: pre) (hbody : ¬str "-----END" <:+: body)
    (hbody' : ¬str "-----END" <:+: body') (hpost : post = [] ∨ str "-----END" <+: post) :
    redactCredentials fuel (pre ++ str "-----BEGIN" ++ body ++ post) =
      redactCredentials fuel (pre ++ str "-----BEGIN" ++ body' ++ post) := by
  unfold redactCredentials
  cases fuel with
  | zero => rfl
  | succ fuel => rw [pemBlock_block hpre hbody hpost, pemBlock_block hpre hbody' hpost]

-- =================================================================== the result

/-- Every loop behind a message ends, no message contains a marker, and the
body of a PEM block in the raw message does not matter. -/
theorem format_user_message_markers (error : GDriveError) (context : Str) :
    (∃ out, Ends (formatUserMessage · error context) out) ∧
      (∀ fuel out, formatUserMessage fuel error context = some out →
        ∀ marker ∈ credentialMarkers, ¬marker <:+: out) ∧
      ∀ pre body body' post, ¬str "-----" <:+: pre → ¬str "-----END" <:+: body →
        ¬str "-----END" <:+: body' → (post = [] ∨ str "-----END" <+: post) →
        ∀ fuel,
          formatUserMessage fuel
              { error with message := pre ++ str "-----BEGIN" ++ body ++ post } context =
            formatUserMessage fuel
              { error with message := pre ++ str "-----BEGIN" ++ body' ++ post } context := by
  refine ⟨⟨_, formatUserMessage_ends error context⟩, ?_, ?_⟩
  · intro fuel out hout marker hmarker
    rw [formatUserMessage_eq hout]
    exact redacted_without hmarker _
  · intro pre body body' post hpre hbody hbody' hpost fuel
    have hne : ∀ b, (pre ++ str "-----BEGIN" ++ b ++ post).isEmpty = false := by
      intro b
      rw [begin_eq]
      cases pre <;> rfl
    unfold formatUserMessage foldMessage
    simp only [hne, Bool.false_or]
    rw [redactCredentials_block hpre hbody hbody' hpost]
    rfl

/-- A token and two keys. -/
theorem format_user_message_markers_key :
    (∀ marker ∈ credentialMarkers,
        ¬marker <:+: str "no such file: gdrive://x (token [redacted] is bad)") ∧
      ∀ fuel,
        formatUserMessage fuel
            { message := str "key " ++ str "-----BEGIN" ++ str " KEY-----AB" ++
                str "-----END KEY-----" } (str "gdrive://x") =
          formatUserMessage fuel
            { message := str "key " ++ str "-----BEGIN" ++ str " KEY-----CD" ++
                str "-----END KEY-----" } (str "gdrive://x") := by
  refine ⟨?_, ?_⟩
  · exact (format_user_message_markers
      { kind := .notFound, message := str "token ya29.a0-b is bad" } (str "gdrive://x")).2.1 80 _
      (by decide +kernel)
  · exact (format_user_message_markers {} (str "gdrive://x")).2.2 _ _ _ _ (by decide) (by decide)
      (by decide) (.inr (by decide))

end GDrive
