/-
`GDriveClientImpl::ExecuteWithRetry`: one logical API call as a bounded
loop of HTTP requests.

Two mechanisms interleave. A transient failure is retried up to
`kMaxAttempts` attempts, for a method or a call that may be repeated. An
unauthenticated reply is answered by one refresh of the token and, given a
different one, one re-send that does not count as an attempt.

`wp_executeLoop` is the rule callers use: what one request must keep for
the loop to go round again, and what a reply that ends the loop must give.
-/
import GDrive.Client.Wire

namespace GDrive

open Interaction

/-- HTTP attempts of one logical call; a re-send after a 401 comes on top. -/
def kMaxAttempts : Nat := 5

/-- A request that got a 401 is re-sent at most once, and only with a
token that is actually different. -/
def shouldResendAfter401 (alreadyRefreshed : Bool) (rejected replacement : Str) : Bool :=
  !alreadyRefreshed && !replacement.isEmpty && replacement != rejected

section Loop

variable (pj : Picojson) (op : DriveOp) (success : List Nat) (retryNonIdempotent : Bool)

/-- May this call be repeated when its outcome is unknown? -/
def mayRetry : Bool := retryNonIdempotent || isIdempotent op.method

/-- The response to a request that got no reply. -/
def transportFailure (retried : Bool) : DriveResponse where
  error :=
    { kind := .transient
      message :=
        if retried then str "network transport failure (no response from Drive)"
        else str "network transport failure with no response from Drive; the change may or may not have been applied. It was NOT retried automatically, because repeating a write whose outcome is unknown can create a second file with the same name (a path with duplicate names cannot be addressed). Check the destination before retrying." }

/-- The classified error of a reply. -/
def errorOf (raw : RawResult) : GDriveError :=
  classifyDriveError pj raw.status raw.body raw.retryAfter

/-- The response to the reply the loop ends on. -/
def responseOf (raw : RawResult) : DriveResponse :=
  if !raw.transportOk then transportFailure (mayRetry op retryNonIdempotent)
  else if raw.status ∈ success then
    { ok := true, httpStatus := raw.status, body := raw.body, location := raw.location }
  else { httpStatus := raw.status, body := raw.body, error := errorOf pj raw }

/-- A refused request that is not re-sent: retried while it may be. -/
def afterRefusal (raw : RawResult) (attempt : Nat)
    (again : Prog Wire (Except Exn DriveResponse)) : Prog Wire (Except Exn DriveResponse) :=
  if (errorOf pj raw).isRetryable && decide (attempt < kMaxAttempts)
      && mayRetry op retryNonIdempotent then
    .ask (.sleep attempt (errorOf pj raw).retryAfterSeconds) fun _ => again
  else .ret (.ok (responseOf pj op success retryNonIdempotent raw))

/-- The loop, `depth` rounds of it, after `attempt` counted attempts. -/
def executeLoop : Nat → Nat → Str → Bool → Prog Wire (Except Exn DriveResponse)
  | 0, _, _, _ => .cut
  | depth + 1, attempt, accessToken, refreshed =>
      .ask (.http accessToken op) fun raw : RawResult =>
        if !raw.transportOk then
          if mayRetry op retryNonIdempotent && decide (attempt + 1 < kMaxAttempts) then
            .ask (.sleep (attempt + 1) 0) fun _ =>
              executeLoop depth (attempt + 1) accessToken refreshed
          else .ret (.ok (responseOf pj op success retryNonIdempotent raw))
        else if raw.status ∈ success then
          .ret (.ok (responseOf pj op success retryNonIdempotent raw))
        else if (errorOf pj raw).kind = .unauthenticated ∧ refreshed = false then
          .ask (.refresh accessToken) fun r : Except Exn Str =>
            match r with
            | .error e => .ret (.error e)
            | .ok replacement =>
                if shouldResendAfter401 refreshed accessToken replacement then
                  -- Not a failed attempt: the count goes back by one.
                  executeLoop depth attempt replacement true
                else
                  afterRefusal pj op success retryNonIdempotent raw (attempt + 1)
                    (executeLoop depth (attempt + 1) accessToken true)
        else
          afterRefusal pj op success retryNonIdempotent raw (attempt + 1)
            (executeLoop depth (attempt + 1) accessToken refreshed)

/-- One logical call: a token valid now, then the loop. -/
def executeWithRetry (depth : Nat) : Prog Wire (Except Exn DriveResponse) :=
  .ask .token fun r : Except Exn Str =>
    match r with
    | .error e => .ret (.error e)
    | .ok accessToken => executeLoop pj op success retryNonIdempotent depth 0 accessToken false

/-- The replies after which the loop may go round again. -/
def GoesOn (raw : RawResult) : Prop :=
  if raw.transportOk = false then mayRetry op retryNonIdempotent = true
  else raw.status ∉ success ∧
    ((errorOf pj raw).kind = .unauthenticated ∨
      ((errorOf pj raw).isRetryable = true ∧ mayRetry op retryNonIdempotent = true))

-- ================================================================== the rule

section Rule

variable {pj op success retryNonIdempotent} {W : Type} {E : Env Wire W} {I : W → Prop}
  {Q : Except Exn DriveResponse → W → Prop}

private theorem wp_afterRefusal {raw : RawResult} {attempt : Nat} {w : W}
    {again : Prog Wire (Except Exn DriveResponse)}
    (hsleep : ∀ attempt seconds (P : Unit → W → Prop) w, I w → P () w →
      E.ask (.sleep attempt seconds) P w)
    (hraw : (errorOf pj raw).isRetryable = true → mayRetry op retryNonIdempotent = true →
      I w)
    (hagain : I w → E.wp again Q w)
    (hQ : Q (.ok (responseOf pj op success retryNonIdempotent raw)) w) :
    E.wp (afterRefusal pj op success retryNonIdempotent raw attempt again) Q w := by
  unfold afterRefusal
  split
  · rename_i h
    simp only [Bool.and_eq_true] at h
    have hI := hraw h.1.1 h.2
    exact hsleep _ _ _ _ hI (hagain hI)
  · exact hQ

/-- The loop's rule, where the world may see the token source fail. -/
theorem wp_executeLoop_of
    (hstop : ∀ w, I w → E.stop w)
    (hsleep : ∀ attempt seconds (P : Unit → W → Prop) w, I w → P () w →
      E.ask (.sleep attempt seconds) P w)
    (hrefresh : ∀ rejected (P : Except Exn Str → W → Prop) w, I w → (∀ t, P (.ok t) w) →
      (∀ e w', Q (.error e) w' → P (.error e) w') → E.ask (.refresh rejected) P w)
    (hhttp : ∀ accessToken w, I w → E.ask (.http accessToken op)
      (fun (raw : RawResult) w' =>
        (GoesOn pj op success retryNonIdempotent raw → I w') ∧
          Q (.ok (responseOf pj op success retryNonIdempotent raw)) w') w) :
    ∀ (depth attempt : Nat) (accessToken : Str) (refreshed : Bool) (w : W), I w →
      E.wp (executeLoop pj op success retryNonIdempotent depth attempt accessToken refreshed)
        Q w := by
  intro depth
  induction depth with
  | zero => exact fun _ _ _ w hI => hstop w hI
  | succ depth ih =>
      intro attempt accessToken refreshed w hI
      refine E.mono ?_ (hhttp accessToken w hI)
      intro (raw : RawResult) w' h
      obtain ⟨hgo, hQ⟩ := h
      unfold GoesOn at hgo
      simp only
      by_cases hok : raw.transportOk = false
      · rw [if_pos hok] at hgo
        rw [hok]
        simp only [Bool.not_false, if_true]
        split
        · rename_i hmay
          have hI' := hgo (Bool.and_eq_true_iff.mp hmay).1
          exact hsleep _ _ _ _ hI' (ih _ _ _ _ hI')
        · exact hQ
      · rw [if_neg hok] at hgo
        rw [Bool.not_eq_false] at hok
        rw [hok]
        simp only [Bool.not_true, Bool.false_eq_true, if_false]
        split
        · exact hQ
        · rename_i hsuccess
          have hretry : (errorOf pj raw).isRetryable = true →
              mayRetry op retryNonIdempotent = true → I w' :=
            fun h₁ h₂ => hgo ⟨hsuccess, .inr ⟨h₁, h₂⟩⟩
          split
          · rename_i hauth
            have hI' := hgo ⟨hsuccess, .inl hauth.1⟩
            refine hrefresh _ _ _ hI' ?_ fun _ _ he => he
            intro replacement
            simp only
            split
            · exact ih _ _ _ _ hI'
            · exact wp_afterRefusal hsleep hretry (ih _ _ _ _) hQ
          · exact wp_afterRefusal hsleep hretry (ih _ _ _ _) hQ

/-- The loop's rule. `I` holds of the world whenever a request is sent:
each request has to bring it back when its reply lets the loop go on, and
to give the postcondition of the response built from its reply. -/
theorem wp_executeLoop
    (hstop : ∀ w, I w → E.stop w)
    (hquiet : ∀ (q : WireReq) (P : Wire.Ans q → W → Prop) w, q.quiet = true → I w →
      (∀ ans, P ans w) → E.ask q P w)
    (hthrow : ∀ e w, I w → Q (.error e) w)
    (hhttp : ∀ accessToken w, I w → E.ask (.http accessToken op)
      (fun (raw : RawResult) w' =>
        (GoesOn pj op success retryNonIdempotent raw → I w') ∧
          Q (.ok (responseOf pj op success retryNonIdempotent raw)) w') w) :
    ∀ (depth attempt : Nat) (accessToken : Str) (refreshed : Bool) (w : W), I w →
      E.wp (executeLoop pj op success retryNonIdempotent depth attempt accessToken refreshed)
        Q w := by
  refine wp_executeLoop_of hstop ?_ ?_ hhttp
  · exact fun _ _ P w hI hP => hquiet (.sleep _ _) P w rfl hI fun _ => hP
  · intro rejected P w hI hok herr
    refine hquiet (.refresh rejected) P w rfl hI ?_
    intro (r : Except Exn Str)
    cases r with
    | error e => exact herr e w (hthrow e w hI)
    | ok t => exact hok t

/-- The rule for a whole call. -/
theorem wp_executeWithRetry
    (hstop : ∀ w, I w → E.stop w)
    (hquiet : ∀ (q : WireReq) (P : Wire.Ans q → W → Prop) w, q.quiet = true → I w →
      (∀ ans, P ans w) → E.ask q P w)
    (hthrow : ∀ e w, I w → Q (.error e) w)
    (hhttp : ∀ accessToken w, I w → E.ask (.http accessToken op)
      (fun (raw : RawResult) w' =>
        (GoesOn pj op success retryNonIdempotent raw → I w') ∧
          Q (.ok (responseOf pj op success retryNonIdempotent raw)) w') w)
    (depth : Nat) {w : W} (hI : I w) :
    E.wp (executeWithRetry pj op success retryNonIdempotent depth) Q w := by
  refine hquiet .token _ _ rfl hI ?_
  intro (r : Except Exn Str)
  cases r with
  | error e => exact hthrow e w hI
  | ok accessToken => exact wp_executeLoop hstop hquiet hthrow hhttp depth 0 _ _ _ hI

end Rule

-- ============================================================ it ends in time

/-- The requests the loop has left: the attempts, and one re-send. -/
def requestsLeft (attempt : Nat) (refreshed : Bool) : Nat :=
  kMaxAttempts - attempt + if refreshed then 0 else 1

private theorem afterRefusal_ends {raw : RawResult} {attempt : Nat}
    {again : Prog Wire (Except Exn DriveResponse)}
    (h : attempt < kMaxAttempts → again.Ends) :
    (afterRefusal pj op success retryNonIdempotent raw attempt again).Ends := by
  unfold afterRefusal
  split
  · rename_i hc
    simp only [Bool.and_eq_true, decide_eq_true_eq] at hc
    exact fun _ => h hc.1.2
  · trivial

/-- As many rounds as there are requests left are enough: the loop returns
whatever is answered. -/
theorem executeLoop_ends (depth attempt : Nat) (accessToken : Str) (refreshed : Bool)
    (hattempt : attempt < kMaxAttempts) (hdepth : requestsLeft attempt refreshed ≤ depth) :
    (executeLoop pj op success retryNonIdempotent depth attempt accessToken refreshed).Ends := by
  induction depth generalizing attempt accessToken refreshed with
  | zero =>
      unfold requestsLeft at hdepth
      omega
  | succ depth ih =>
      have hnext : ∀ t r, (refreshed = true → r = true) → attempt + 1 < kMaxAttempts →
          (executeLoop pj op success retryNonIdempotent depth (attempt + 1) t r).Ends := by
        intro t r hr hlt
        refine ih _ _ _ hlt ?_
        unfold requestsLeft at hdepth ⊢
        cases refreshed <;> cases r <;> simp at hr hdepth ⊢ <;> omega
      intro (raw : RawResult)
      simp only
      split
      · split
        · rename_i hc
          simp only [Bool.and_eq_true, decide_eq_true_eq] at hc
          exact fun _ => hnext _ _ id hc.2
        · trivial
      · split
        · trivial
        · split
          · rename_i hauth
            intro (r : Except Exn Str)
            cases r with
            | error e => trivial
            | ok replacement =>
                simp only
                split
                · refine ih _ _ _ hattempt ?_
                  unfold requestsLeft at hdepth ⊢
                  rw [hauth.2] at hdepth
                  simp at hdepth ⊢
                  omega
                · exact afterRefusal_ends _ _ _ _ (hnext _ _ fun _ => rfl)
          · exact afterRefusal_ends _ _ _ _ (hnext _ _ id)

theorem executeWithRetry_ends {depth : Nat} (hdepth : kMaxAttempts + 1 ≤ depth) :
    (executeWithRetry pj op success retryNonIdempotent depth).Ends := by
  intro (r : Except Exn Str)
  cases r with
  | error e => trivial
  | ok accessToken =>
      exact executeLoop_ends _ _ _ _ depth 0 _ _ (by decide) hdepth

end Loop

end GDrive
