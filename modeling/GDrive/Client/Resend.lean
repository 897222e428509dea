/-
How often one logical call is sent.

The outside is a script (`Outside`): what the token source answers and the
stream of HTTP replies, in the order they arrive. Against every script a
call of any method sends at most `kMaxAttempts + 1` requests
(`executeLoop_requests`), and a POST or PATCH that may not be repeated is
sent once, or twice when its first reply is taken for unauthenticated and
the source had another token (`httpReplies_not_repeatable`).

# Where the 401 rule leaks

The comment on the re-send says a 401 is decided before Drive applies
anything. The code does not look at the status: it looks at the classified
kind, and `classifyKind_unauthenticated` says which other replies share it.
`at_most_once_iff` is the exact account.
-/
import GDrive.Client.Retry

namespace GDrive

open Interaction

/-- A token source and the replies to a call's requests, by their number. -/
structure Outside where
  token : Except Exn Str
  refresh : Str → Except Exn Str
  reply : Nat → RawResult

/-- The replies to API requests in the record of a run. -/
def httpReplies : List (Σ q, Wire.Ans q) → List RawResult
  | [] => []
  | ⟨.http _ _, raw⟩ :: l => raw :: httpReplies l
  | _ :: l => httpReplies l

theorem httpReplies_append (l l' : List (Σ q, Wire.Ans q)) :
    httpReplies (l ++ l') = httpReplies l ++ httpReplies l' := by
  induction l with
  | nil => rfl
  | cons e l ih =>
      obtain ⟨q, ans⟩ := e
      cases q <;> simp only [List.cons_append, httpReplies, ih]

/-- The scripted answer to a request, after the run so far. -/
def Outside.answerTo (out : Outside) (l : List (Σ q, Wire.Ans q)) : (q : WireReq) → Wire.Ans q
  | .token => out.token
  | .refresh rejected => out.refresh rejected
  | .http _ _ => out.reply (httpReplies l).length
  | .session _ _ _ => ({} : RawResult)
  | .cancelSession _ => ()
  | .sleep _ _ => ()

def Outside.party (out : Outside) (l : List (Σ q, Wire.Ans q)) (q : WireReq) :
    Wire.Ans q × List (Σ q, Wire.Ans q) :=
  (out.answerTo l q, l ++ [⟨q, out.answerTo l q⟩])

/-- The record of one call against a script. -/
def callRecord (pj : Picojson) (op : DriveOp) (success : List Nat) (retryNonIdempotent : Bool)
    (depth : Nat) (out : Outside) : List (Σ q, Wire.Ans q) :=
  ((executeWithRetry pj op success retryNonIdempotent depth).play out.party []).2

-- ============================================================= every method

section Bound

variable (pj : Picojson) (op : DriveOp) (success : List Nat) (retryNonIdempotent : Bool)

private theorem afterRefusal_requests {N : Nat} {raw : RawResult} {attempt : Nat}
    {again : Prog Wire (Except Exn DriveResponse)} {l : List (Σ q, Wire.Ans q)}
    (hl : (httpReplies l).length ≤ N)
    (h : attempt < kMaxAttempts → ∀ l', httpReplies l' = httpReplies l →
      (Env.ofRel (Rel.log Wire) fun l => (httpReplies l).length ≤ N).wp again
        (fun _ l => (httpReplies l).length ≤ N) l') :
    (Env.ofRel (Rel.log Wire) fun l => (httpReplies l).length ≤ N).wp
      (afterRefusal pj op success retryNonIdempotent raw attempt again)
      (fun _ l => (httpReplies l).length ≤ N) l := by
  unfold afterRefusal
  split
  · rename_i hc
    simp only [Bool.and_eq_true, decide_eq_true_eq] at hc
    refine ⟨hl, ?_⟩
    intro ans l' hl'
    refine h hc.1.2 l' ?_
    rw [hl', httpReplies_append]
    exact List.append_nil _
  · exact hl

/-- The number of requests sent so far and the number left never exceed
what there was to begin with. -/
theorem executeLoop_requests {N : Nat} (depth attempt : Nat) (accessToken : Str)
    (refreshed : Bool) (l : List (Σ q, Wire.Ans q)) (hattempt : attempt < kMaxAttempts)
    (hN : (httpReplies l).length + requestsLeft attempt refreshed ≤ N) :
    (Env.ofRel (Rel.log Wire) fun l => (httpReplies l).length ≤ N).wp
      (executeLoop pj op success retryNonIdempotent depth attempt accessToken refreshed)
      (fun _ l => (httpReplies l).length ≤ N) l := by
  induction depth generalizing attempt accessToken refreshed l with
  | zero =>
      show (httpReplies l).length ≤ N
      omega
  | succ depth ih =>
      refine ⟨by show (httpReplies l).length ≤ N; omega, ?_⟩
      intro (raw : RawResult) l₁ hl₁
      have hsent : (httpReplies l₁).length = (httpReplies l).length + 1 := by
        rw [hl₁, httpReplies_append, List.length_append]
        rfl
      have hleft : 1 ≤ requestsLeft attempt refreshed := by
        unfold requestsLeft
        omega
      have hnow : (httpReplies l₁).length ≤ N := by omega
      -- A further counted attempt, after requests that send nothing.
      have hnext : ∀ t r l₂, (refreshed = true → r = true) → attempt + 1 < kMaxAttempts →
          httpReplies l₂ = httpReplies l₁ → _ := fun t r l₂ hr hlt hl₂ =>
        ih (attempt + 1) t r l₂ hlt (by
          rw [hl₂, hsent]
          unfold requestsLeft at hN ⊢
          cases refreshed <;> cases r <;> simp at hr hN ⊢ <;> omega)
      simp only
      split
      · split
        · rename_i hc
          simp only [Bool.and_eq_true, decide_eq_true_eq] at hc
          refine ⟨hnow, ?_⟩
          intro ans l₂ hl₂
          refine hnext _ _ l₂ id hc.2 ?_
          rw [hl₂, httpReplies_append]
          exact List.append_nil _
        · exact hnow
      · split
        · exact hnow
        · split
          · rename_i hauth
            refine ⟨hnow, ?_⟩
            intro (r : Except Exn Str) l₂ hl₂
            have hsame : httpReplies l₂ = httpReplies l₁ := by
              rw [hl₂, httpReplies_append]
              exact List.append_nil _
            cases r with
            | error e =>
                show (httpReplies l₂).length ≤ N
                rw [hsame]
                exact hnow
            | ok replacement =>
                simp only
                split
                · refine ih attempt _ _ l₂ hattempt ?_
                  rw [hsame, hsent]
                  unfold requestsLeft at hN ⊢
                  rw [hauth.2] at hN
                  simp at hN ⊢
                  omega
                · refine afterRefusal_requests _ _ _ _ (by rw [hsame]; exact hnow) ?_
                  intro hlt l₃ hl₃
                  exact hnext _ _ l₃ (fun _ => rfl) hlt (hl₃.trans hsame)
          · refine afterRefusal_requests _ _ _ _ hnow ?_
            intro hlt l₂ hl₂
            exact hnext _ _ l₂ id hlt hl₂

/-- A call ends, and has sent at most `kMaxAttempts + 1` requests. -/
theorem callRecord_requests {depth : Nat} (hdepth : kMaxAttempts + 1 ≤ depth) (out : Outside) :
    (httpReplies (callRecord pj op success retryNonIdempotent depth out)).length
      ≤ kMaxAttempts + 1 := by
  have hreach := Prog.play_reaches (R := Rel.log Wire) (f := out.party) (fun _ _ => rfl)
    (executeWithRetry pj op success retryNonIdempotent depth) []
  obtain ⟨r, hr⟩ := (executeWithRetry_ends pj op success retryNonIdempotent hdepth).play
    (f := out.party) []
  rw [hr] at hreach
  have hwp : (Env.ofRel (Rel.log Wire) fun l => (httpReplies l).length ≤ kMaxAttempts + 1).wp
      (executeWithRetry pj op success retryNonIdempotent depth)
      (fun _ l => (httpReplies l).length ≤ kMaxAttempts + 1) [] := by
    refine ⟨Nat.zero_le _, ?_⟩
    intro (token : Except Exn Str) l hl
    have hl' : httpReplies l = [] := by
      rw [hl]
      rfl
    cases token with
    | error e =>
        show (httpReplies l).length ≤ kMaxAttempts + 1
        rw [hl']
        exact Nat.zero_le _
    | ok accessToken =>
        refine executeLoop_requests _ _ _ _ depth 0 _ _ l (by decide) ?_
        rw [hl']
        decide
  exact Env.wp_returns (P := fun _ l => (httpReplies l).length ≤ kMaxAttempts + 1) hwp hreach

end Bound

-- ================================================== calls sent at most once

section AtMostOnce

variable (pj : Picojson) (op : DriveOp) (success : List Nat)

/-- The source had a token to replace the rejected one with. -/
def Outside.Replaces (out : Outside) : Prop :=
  ∃ accessToken replacement, out.token = .ok accessToken ∧
    out.refresh accessToken = .ok replacement ∧
    shouldResendAfter401 false accessToken replacement = true

/-- A reply that is taken for unauthenticated: delivered, no success, and
classified so. -/
def TakenForUnauthenticated (raw : RawResult) : Prop :=
  raw.transportOk = true ∧ raw.status ∉ success ∧ (errorOf pj raw).kind = .unauthenticated

private theorem mayRetry_eq_false (hop : op.method = .post ∨ op.method = .patch) :
    mayRetry op false = false := by
  rcases hop with h | h <;> simp [mayRetry, isIdempotent, h]

/-- A loop that may not retry and has used its refresh sends one request. -/
private theorem httpReplies_refreshed (hop : op.method = .post ∨ op.method = .patch)
    (depth attempt : Nat) (accessToken : Str) (out : Outside) (l : List (Σ q, Wire.Ans q)) :
    httpReplies ((executeLoop pj op success false (depth + 1) attempt accessToken true).play
      out.party l).2 = httpReplies l ++ [out.reply (httpReplies l).length] := by
  have hend : ∀ raw again l', ((afterRefusal pj op success false raw (attempt + 1) again).play
      out.party l').2 = l' := by
    intro raw again l'
    rw [afterRefusal, mayRetry_eq_false op hop, Bool.and_false]
    rfl
  have hone : httpReplies (l ++ [⟨.http accessToken op, out.reply (httpReplies l).length⟩]) =
      httpReplies l ++ [out.reply (httpReplies l).length] := httpReplies_append _ _
  simp only [executeLoop, Prog.play, Outside.party, Outside.answerTo]
  rw [mayRetry_eq_false op hop]
  simp only [Bool.false_and, Bool.false_eq_true, if_false, reduceCtorEq, and_false]
  split
  · exact hone
  · split
    · exact hone
    · rw [hend]
      exact hone

/-- The first round of a loop that may not retry: one request, and a second
one when the reply is taken for unauthenticated and `Refresh` gives another
token. -/
private theorem httpReplies_fresh (hop : op.method = .post ∨ op.method = .patch)
    (depth attempt : Nat) (accessToken : Str) (out : Outside) (l : List (Σ q, Wire.Ans q))
    (raw : RawResult) (hraw : out.reply (httpReplies l).length = raw) :
    (httpReplies ((executeLoop pj op success false (depth + 2) attempt accessToken false).play
        out.party l).2 = httpReplies l ++ [raw] ∧
      ¬(TakenForUnauthenticated pj success raw ∧ ∃ replacement,
        out.refresh accessToken = .ok replacement ∧
          shouldResendAfter401 false accessToken replacement = true)) ∨
    (httpReplies ((executeLoop pj op success false (depth + 2) attempt accessToken false).play
        out.party l).2 =
        httpReplies l ++ [raw, out.reply ((httpReplies l).length + 1)] ∧
      TakenForUnauthenticated pj success raw ∧ ∃ replacement,
        out.refresh accessToken = .ok replacement ∧
          shouldResendAfter401 false accessToken replacement = true) := by
  have hend : ∀ raw again l', ((afterRefusal pj op success false raw (attempt + 1) again).play
      out.party l').2 = l' := by
    intro raw again l'
    rw [afterRefusal, mayRetry_eq_false op hop, Bool.and_false]
    rfl
  have hone : httpReplies (l ++ [⟨.http accessToken op, raw⟩]) = httpReplies l ++ [raw] :=
    httpReplies_append _ _
  have hquiet : ∀ (r : Except Exn Str), httpReplies
      (l ++ [⟨.http accessToken op, raw⟩] ++ [⟨.refresh accessToken, r⟩]) =
      httpReplies l ++ [raw] := by
    intro r
    rw [httpReplies_append, hone]
    exact List.append_nil _
  rw [executeLoop]
  simp only [Prog.play, Outside.party, Outside.answerTo, hraw]
  rw [mayRetry_eq_false op hop]
  simp only [Bool.false_and, Bool.false_eq_true, if_false]
  by_cases hok : raw.transportOk = true
  · rw [hok]
    simp only [Bool.not_true, Bool.false_eq_true, if_false]
    by_cases hs : raw.status ∈ success
    · rw [if_pos hs]
      exact .inl ⟨hone, fun h => h.1.2.1 hs⟩
    · rw [if_neg hs]
      by_cases hauth : (errorOf pj raw).kind = .unauthenticated
      · rw [if_pos ⟨hauth, trivial⟩]
        simp only [Prog.play, Outside.party, Outside.answerTo]
        cases hr : out.refresh accessToken with
        | error e => exact .inl ⟨hquiet _, fun h => by simp at h⟩
        | ok replacement =>
            simp only
            by_cases hresend : shouldResendAfter401 false accessToken replacement = true
            · rw [if_pos hresend]
              refine .inr ⟨?_, ⟨hok, hs, hauth⟩, replacement, rfl, hresend⟩
              rw [httpReplies_refreshed pj op success hop, hquiet, List.length_append,
                List.append_assoc]
              rfl
            · rw [if_neg hresend, hend]
              refine .inl ⟨hquiet _, ?_⟩
              intro h
              obtain ⟨-, replacement', heq, h'⟩ := h
              cases heq
              exact hresend h'
      · rw [if_neg fun h => hauth h.1, hend]
        exact .inl ⟨hone, fun h => hauth h.1.2.2⟩
  · rw [Bool.not_eq_true] at hok
    rw [hok]
    refine .inl ⟨hone, fun h => ?_⟩
    rw [h.1.1] at hok
    cases hok

/-- What a POST or PATCH that may not be repeated sends: nothing without a
token, one request, and a second one after a reply taken for
unauthenticated when the source has another token. -/
theorem httpReplies_not_repeatable (hop : op.method = .post ∨ op.method = .patch)
    (depth : Nat) (out : Outside) :
    (httpReplies (callRecord pj op success false (depth + 2) out) = [] ∧ ¬out.Replaces) ∨
    (httpReplies (callRecord pj op success false (depth + 2) out) = [out.reply 0] ∧
      ¬(TakenForUnauthenticated pj success (out.reply 0) ∧ out.Replaces)) ∨
    (httpReplies (callRecord pj op success false (depth + 2) out) =
        [out.reply 0, out.reply 1] ∧
      TakenForUnauthenticated pj success (out.reply 0) ∧ out.Replaces) := by
  unfold Outside.Replaces
  simp only [callRecord, executeWithRetry, Prog.play, Outside.party, Outside.answerTo]
  cases out.token with
  | error e => exact .inl ⟨rfl, by simp⟩
  | ok accessToken =>
      simp only [Except.ok.injEq, exists_and_left, exists_eq_left']
      exact .inr (httpReplies_fresh pj op success hop depth 0 accessToken out _ _ rfl)

/-- Sent again only after a 401, and at most once more. -/
def AtMostOnce (replies : List RawResult) : Prop :=
  (∀ i raw, replies[i]? = some raw → i + 1 < replies.length →
    raw.transportOk = true ∧ raw.status = 401) ∧ replies.length ≤ 2

/-- The first reply is a refusal with another status than 401 (and 429)
whose body gives `authError` or `required` as the reason, and the source
has another token. -/
structure Outside.SpuriousUnauthenticated (out : Outside) : Prop where
  delivered : (out.reply 0).transportOk = true
  refused : (out.reply 0).status ∉ success
  not_401 : (out.reply 0).status ≠ 401
  not_429 : (out.reply 0).status ≠ 429
  detail : (parseErrorBody pj (out.reply 0).body).detailReason ≠
    str "ACCESS_TOKEN_SCOPE_INSUFFICIENT"
  reason : (parseErrorBody pj (out.reply 0).body).reason = str "authError" ∨
    (parseErrorBody pj (out.reply 0).body).reason = str "required"
  replaces : out.Replaces

/-- Taken for unauthenticated without being a 401, spelled out. -/
theorem spuriousUnauthenticated_iff {out : Outside} :
    out.SpuriousUnauthenticated pj success ↔
      (TakenForUnauthenticated pj success (out.reply 0) ∧ out.Replaces) ∧
        (out.reply 0).status ≠ 401 := by
  have hkind : (errorOf pj (out.reply 0)).kind =
      classifyKind (out.reply 0).status (parseErrorBody pj (out.reply 0).body) := rfl
  unfold TakenForUnauthenticated
  rw [hkind, classifyKind_unauthenticated]
  constructor
  · intro h
    exact ⟨⟨⟨h.delivered, h.refused, h.detail, h.not_429, .inl h.reason⟩, h.replaces⟩,
      h.not_401⟩
  · intro h
    obtain ⟨⟨⟨hok, hs, hdetail, h429, hwhy⟩, hrep⟩, h401⟩ := h
    rcases hwhy with hreason | ⟨h, -⟩
    · exact ⟨hok, hs, h401, h429, hdetail, hreason, hrep⟩
    · exact absurd h h401

/-- Every call ends within `kMaxAttempts + 1` requests; and a POST or PATCH
that may not be repeated is sent again only after a 401, and at most once,
exactly where its first reply is no spurious `unauthenticated`. -/
theorem at_most_once_iff (depth : Nat) (hdepth : kMaxAttempts + 1 ≤ depth) (out : Outside) :
    (∀ retryNonIdempotent,
      (executeWithRetry pj op success retryNonIdempotent depth).Ends ∧
      (httpReplies (callRecord pj op success retryNonIdempotent depth out)).length
        ≤ kMaxAttempts + 1) ∧
    (op.method = .post ∨ op.method = .patch →
      (AtMostOnce (httpReplies (callRecord pj op success false depth out)) ↔
        ¬out.SpuriousUnauthenticated pj success)) := by
  constructor
  · intro flag
    exact ⟨executeWithRetry_ends pj op success flag hdepth,
      callRecord_requests pj op success flag hdepth out⟩
  · intro hop
    obtain ⟨depth, rfl⟩ : ∃ d, depth = d + 2 :=
      ⟨depth - 2, by have : kMaxAttempts = 5 := rfl; omega⟩
    rw [spuriousUnauthenticated_iff]
    rcases httpReplies_not_repeatable pj op success hop depth out with ⟨h, hno⟩ | ⟨h, hno⟩ | ⟨h, hyes⟩
    · rw [h]
      exact ⟨fun _ hs => hno hs.1.2, fun _ => ⟨by simp, by simp⟩⟩
    · rw [h]
      exact ⟨fun _ hs => hno hs.1, fun _ => ⟨by simp, by simp⟩⟩
    · rw [h]
      constructor
      · intro hone hs
        exact hs.2 (hone.1 0 (out.reply 0) rfl (Nat.lt_add_one 1)).2
      · intro hs
        refine ⟨?_, Nat.le_refl _⟩
        intro i raw hi hlt
        obtain rfl : i = 0 := by
          have : i + 1 < 2 := hlt
          omega
        obtain rfl : out.reply 0 = raw := by simpa using hi
        exact ⟨hyes.1.1, Decidable.byContradiction fun h401 => hs ⟨hyes, h401⟩⟩

/-- Drive's answer to a request that misses a parameter. -/
def requiredBody : Str :=
  str "\x7b\"error\":\x7b\"errors\":[\x7b\"reason\":\"required\"\x7d]\x7d\x7d"

/-- The library on that body. -/
def requiredJson : Picojson where
  parse body :=
    if body = requiredBody then
      some (.object [(str "error", .object
        [(str "errors", .array [.object [(str "reason", .string (str "required"))]])])])
    else none
  serialize _ := []

/-- A token source with a second token, and Drive answering 400 with reason
`required`. -/
def required400 : Outside where
  token := .ok (str "a")
  refresh _ := .ok (str "b")
  reply _ := { transportOk := true, status := 400, body := requiredBody }

/-- The same with a 401: sent twice, as it should be. -/
theorem at_most_once_401 :
    AtMostOnce (httpReplies (callRecord requiredJson (.createMultipart {} [] []) [200] false
      (kMaxAttempts + 1)
      { required400 with
        reply := fun _ => { transportOk := true, status := 401, body := requiredBody } })) :=
  ((at_most_once_iff requiredJson (.createMultipart {} [] []) [200] (kMaxAttempts + 1)
    (by decide) _).2 (.inl rfl)).mpr fun h => h.not_401 rfl

/-- A multipart create answered 400 is sent a second time. -/
theorem at_most_once_required400 :
    (DriveOp.createMultipart {} [] []).method = .post ∧
      ¬AtMostOnce (httpReplies (callRecord requiredJson (.createMultipart {} [] []) [200] false
        (kMaxAttempts + 1) required400)) := by
  refine ⟨rfl, ?_⟩
  have h : httpReplies (callRecord requiredJson (.createMultipart {} [] []) [200] false
      (kMaxAttempts + 1) required400) = [required400.reply 0, required400.reply 1] := by decide
  rw [h]
  intro hone
  have h401 := (hone.1 0 (required400.reply 0) rfl (by decide)).2
  cases h401

end AtMostOnce

end GDrive
