/-
`GDriveClientImpl::UploadChunk`: the loop that drives one chunk through a
resumable session (gdrive_client.cpp).

The decisions are `nextUploadStep`'s; the loop only does the I/O a step
asks for. `feed` runs the same machine over a list of replies without any
I/O, and `uploadChunkLoop_feed` says the loop is exactly that: what it has
been told so far determines its step.

# The verdict on a final chunk

Drive publishes a file while it serves a request that carries the total,
and the client need not see that reply. `final_chunk_verdict` is the law
the "may or may not have been applied" error rests on: a failure without
that mark means nothing was published.
-/
import GDrive.Client.Retry

namespace GDrive

open Interaction

section Loop

variable (pj : Picojson)

/-- Does the reply carry an error to classify? -/
def needsError (raw : RawResult) : Bool :=
  raw.transportOk && (raw.status != 308 && (decide (raw.status < 200) || decide (300 ≤ raw.status)))

/-- The classified error of a session's reply; no error at all otherwise. -/
def replyError (raw : RawResult) : GDriveError := if needsError raw then errorOf pj raw else {}

/-- The reply as the machine reads it. -/
def replyOf (raw : RawResult) : UploadReply where
  transportOk := raw.transportOk
  status := raw.status
  range := raw.range
  retryable := (replyError pj raw).isRetryable

variable (buf : ChunkedUploadBuffer) (final : Bool)

/-- Is the next request a data PUT? Everything else is a status query. -/
def sendsData (step : UploadStep) (state : ChunkUploadState) : Bool :=
  step.kind = .send ∧ state.skip < buf.pending.length

def requestRange (step : UploadStep) (state : ChunkUploadState) : ContentRange :=
  if sendsData buf step state then buf.contentRange final state.skip
  else .query (buf.totalOf final)

def requestData (step : UploadStep) (state : ChunkUploadState) : Str :=
  if sendsData buf step state then buf.pending.drop state.skip else []

/-- The loop: one request, one step, until the step is the last one. -/
def uploadChunkLoop (path : Str) :
    Nat → UploadStep → ChunkUploadState → Prog Wire (UploadStep × RawResult)
  | 0, _, _ => .cut
  | depth + 1, step, state =>
      .ask (.session path (requestRange buf final step state) (requestData buf step state))
        fun raw : RawResult =>
          let next := nextUploadStep buf final state (replyOf pj raw)
          if next.1.kind = .send ∨ next.1.kind = .askStatus then
            if next.1.backoff then
              .ask
                (.sleep (max 1 (max next.2.failures next.2.stalls))
                  (if raw.transportOk then (replyError pj raw).retryAfterSeconds else 0))
                fun _ => uploadChunkLoop path depth next.1 next.2
            else uploadChunkLoop path depth next.1 next.2
          else .ret (next.1, raw)

/-- The error of a chunk that failed. -/
def chunkError (step : UploadStep) (raw : RawResult) : GDriveError :=
  if step.ambiguous then
    { kind := .transient
      message := str "the final chunk of a resumable upload got no usable answer from Drive; the change may or may not have been applied. Check the destination before retrying." }
  else if needsError raw then replyError pj raw
  else { kind := if raw.transportOk then .unknown else .transient, message := step.error }

/-- The response built from the loop's last step and reply. -/
def chunkResponse (step : UploadStep) (raw : RawResult) : DriveResponse :=
  if step.kind = .done then { ok := true, httpStatus := raw.status, body := raw.body }
  else if step.kind = .accepted then { ok := true, httpStatus := 308 }
  else
    { httpStatus := if raw.transportOk then raw.status else 0
      body := raw.body
      error := chunkError pj step raw }

def uploadChunk (depth : Nat) (sessionUri : Str) : Prog Wire DriveResponse :=
  match driveSessionPath sessionUri with
  | none =>
      .ret
        { error :=
            { kind := .unknown
              message := str "refusing to upload to a resumable-session URI that is not https on www.googleapis.com" } }
  | some path =>
      (uploadChunkLoop pj buf final path depth {} {}).bind fun r =>
        .ret (chunkResponse pj r.1 r.2)

-- =========================================================== the machine alone

/-- The machine over a list of replies. -/
def feed (replies : List RawResult) : UploadStep × ChunkUploadState :=
  replies.foldl (fun s raw => nextUploadStep buf final s.2 (replyOf pj raw)) ({}, {})

theorem feed_append (replies : List RawResult) (raw : RawResult) :
    feed pj buf final (replies ++ [raw]) =
      nextUploadStep buf final (feed pj buf final replies).2 (replyOf pj raw) := by
  unfold feed
  rw [List.foldl_append]
  rfl

/-- The request may have been applied although the client saw no success. -/
def RawResult.lost (raw : RawResult) : Bool := !raw.transportOk || decide (500 ≤ raw.status)

/-- A 200 or 201. -/
def RawResult.Published (raw : RawResult) : Prop :=
  raw.transportOk = true ∧ (raw.status = 200 ∨ raw.status = 201)

/-- On a final chunk the mark is the disjunction of everything lost. -/
theorem feed_finalMaybeSent (replies : List RawResult) :
    (feed pj buf true replies).2.finalMaybeSent = replies.any RawResult.lost := by
  induction replies using List.reverseRecOn with
  | nil => rfl
  | append_singleton replies raw ih =>
      rw [feed_append, nextUploadStep_finalMaybeSent, ih, List.any_append]
      rw [Bool.true_and, List.any_cons, List.any_nil, Bool.or_false]
      rfl

-- ================================================================== the rule

variable {pj buf final} in
/-- The loop's rule. `I` holds at the top of every round; a request has to
bring it back for a step that goes on, and to give the postcondition for
one that does not. -/
theorem wp_uploadChunkLoop {W : Type} {E : Env Wire W} {path : Str}
    {I : UploadStep → ChunkUploadState → W → Prop}
    {Q : UploadStep × RawResult → W → Prop}
    (hstop : ∀ step state w, I step state w → E.stop w)
    (hquiet : ∀ step state (q : WireReq) (P : Wire.Ans q → W → Prop) w, q.quiet = true →
      I step state w → (∀ ans, P ans w) → E.ask q P w)
    (hask : ∀ step state w, I step state w →
      E.ask (.session path (requestRange buf final step state) (requestData buf step state))
        (fun (raw : RawResult) w' =>
          let next := nextUploadStep buf final state (replyOf pj raw)
          if next.1.kind = .send ∨ next.1.kind = .askStatus then I next.1 next.2 w'
          else Q (next.1, raw) w') w) :
    ∀ (depth : Nat) (step : UploadStep) (state : ChunkUploadState) (w : W),
      I step state w → E.wp (uploadChunkLoop pj buf final path depth step state) Q w := by
  intro depth
  induction depth with
  | zero => exact fun step state w hI => hstop step state w hI
  | succ depth ih =>
      intro step state w hI
      refine E.mono ?_ (hask step state w hI)
      intro (raw : RawResult) w' h
      simp only at h ⊢
      split
      · rename_i hgo
        rw [if_pos hgo] at h
        split
        · exact hquiet _ _ (.sleep _ _) _ _ rfl h fun _ => ih _ _ _ h
        · exact ih _ _ _ h
      · rename_i hgo
        rw [if_neg hgo] at h
        exact h

-- ================================================================= the verdict

/-- Whether the file is published, and the replies the client saw. -/
structure PublishWorld where
  published : Bool := false
  replies : List RawResult := []

/-- Drive may publish while it serves a request of a final chunk that the
client sees answered 200 or 201, or lost. -/
def publishRel : Rel Wire PublishWorld
  | w, .session _ _ _, (raw : RawResult), w' =>
      w'.replies = w.replies ++ [raw] ∧
        (w'.published = true → w.published = true ∨ raw.Published ∨ raw.lost = true)
  | w, _, _, w' => w' = w

theorem publishRel_quiet : QuietRel publishRel := by
  intro w q ans w' hq hw
  cases q with
  | token => exact hw
  | refresh => exact hw
  | sleep => exact hw
  | http => cases hq
  | session => cases hq
  | cancelSession => cases hq

/-- What holds of a final chunk's loop at every moment: the step and state
are the machine's, and what is published without the client knowing is
marked. -/
structure FinalChunk (step : UploadStep) (state : ChunkUploadState) (w : PublishWorld) :
    Prop where
  machine : feed pj buf true w.replies = (step, state)
  marked : w.published = true → w.replies.any RawResult.lost = true

/-- What a final chunk's loop ends with. -/
structure FinalVerdict (r : UploadStep × RawResult) (w : PublishWorld) : Prop where
  machine : (feed pj buf true w.replies).1 = r.1
  last : w.replies.getLast? = some r.2
  answered : r.1.kind = .done → r.2.Published
  not_accepted : r.1.kind ≠ .accepted
  honest : r.1.kind ≠ .done → r.1.ambiguous = false → w.published = false

private theorem finalVerdict_of_step {step : UploadStep} {state : ChunkUploadState}
    {w w' : PublishWorld} {raw : RawResult} (h : FinalChunk pj buf step state w)
    (hrec : w'.replies = w.replies ++ [raw])
    (hpub : w'.published = true → w.published = true ∨ raw.Published ∨ raw.lost = true)
    (hend : ¬((nextUploadStep buf true state (replyOf pj raw)).1.kind = .send ∨
      (nextUploadStep buf true state (replyOf pj raw)).1.kind = .askStatus)) :
    FinalVerdict pj buf ((nextUploadStep buf true state (replyOf pj raw)).1, raw) w' := by
  have hfeed : feed pj buf true w'.replies = nextUploadStep buf true state (replyOf pj raw) := by
    rw [hrec, feed_append, h.machine]
  have hmark := feed_finalMaybeSent pj buf w'.replies
  rw [hfeed] at hmark
  have hcases := nextUploadStep_cases buf true state (replyOf pj raw)
  have hacc : (nextUploadStep buf true state (replyOf pj raw)).1.kind ≠ .accepted := by
    intro hk
    cases (hcases.of_accepted hk).1
  refine ⟨by rw [hfeed], by rw [hrec, List.getLast?_concat], ?_, hacc, ?_⟩
  · intro hdone
    exact (hcases.of_done hdone).2
  · intro hdone hamb
    have hfail : (nextUploadStep buf true state (replyOf pj raw)).1.kind = .fail := by
      generalize (nextUploadStep buf true state (replyOf pj raw)).1.kind = k at *
      cases k <;> simp at hdone hacc hend ⊢
    -- No mark, so nothing was lost; and the last reply published nothing.
    rw [hcases.ambiguous hfail, Bool.true_and, hmark, hrec, List.any_append,
      Bool.or_eq_false_iff] at hamb
    rw [Bool.eq_false_iff]
    intro hp
    rcases hpub hp with hp | hp | hp
    · rw [h.marked hp] at hamb
      cases hamb.1
    · exact hdone (hcases.done_of_published rfl hp)
    · rw [List.any_cons, hp] at hamb
      cases hamb.2

private theorem wp_finalChunk (path : Str) (depth : Nat) {step : UploadStep}
    {state : ChunkUploadState} {w : PublishWorld} (h : FinalChunk pj buf step state w) :
    (Env.ofRel publishRel fun _ => True).wp
      (uploadChunkLoop pj buf true path depth step state) (FinalVerdict pj buf) w := by
  refine wp_uploadChunkLoop (I := FinalChunk pj buf) ?_ ?_ ?_ depth step state w h
  · exact fun _ _ _ _ => trivial
  · exact fun _ _ q P _ hq _ hP => publishRel_quiet.ask q P hq trivial hP
  · intro step state w h
    refine ⟨trivial, ?_⟩
    intro (raw : RawResult) w' hw
    obtain ⟨hrec, hpub⟩ := hw
    simp only
    split
    · rename_i hgo
      refine ⟨by rw [hrec, feed_append, h.machine], ?_⟩
      intro hp
      rw [hrec, List.any_append, List.any_cons]
      rcases hpub hp with hp | hp | hp
      · rw [h.marked hp]
        rfl
      · have hdone := (nextUploadStep_cases buf true state (replyOf pj raw)).done_of_published
          rfl hp
        rcases hgo with hk | hk <;> cases hdone.symm.trans hk
      · rw [hp, Bool.true_or, Bool.or_true]
    · rename_i hend
      exact finalVerdict_of_step pj buf h hrec hpub hend

/-- The verdict on a final chunk, for every session and every sequence of
replies. At every moment the mark stands once anything was lost; and of the
response: it is the one of the last step, a success means that a request
was answered 200 or 201, and a failure that is not marked ambiguous means
that nothing was published. -/
theorem final_chunk_verdict (depth : Nat) (sessionUri : Str) {p : Prog Wire DriveResponse}
    {w : PublishWorld}
    (h : Reaches publishRel (uploadChunk pj buf true depth sessionUri) {} p w) :
    (∀ raw ∈ w.replies, raw.lost = true →
      (feed pj buf true w.replies).2.finalMaybeSent = true) ∧
    ∀ response, p = .ret response →
      (driveSessionPath sessionUri ≠ none → ∃ raw, w.replies.getLast? = some raw ∧
        response = chunkResponse pj (feed pj buf true w.replies).1 raw) ∧
      (response.ok = true → ∃ raw ∈ w.replies, raw.Published) ∧
      (response.ok = false → (feed pj buf true w.replies).1.ambiguous = false →
        w.published = false) := by
  constructor
  · intro raw hraw hlost
    rw [feed_finalMaybeSent, List.any_eq_true]
    exact ⟨raw, hraw, hlost⟩
  · rintro response rfl
    unfold uploadChunk at h
    split at h
    · -- Refused without a request.
      rename_i hnone
      cases h
      refine ⟨fun hne => absurd hnone hne, ?_, fun _ _ => rfl⟩
      intro hok
      cases hok
    · rename_i path _
      have hwp : (Env.ofRel publishRel fun _ => True).wp
          ((uploadChunkLoop pj buf true path depth {} {}).bind fun r =>
            .ret (chunkResponse pj r.1 r.2))
          (fun response w => ∃ r, FinalVerdict pj buf r w ∧
            response = chunkResponse pj r.1 r.2) {} := by
        rw [Env.wp_bind]
        refine Env.wp_mono (wp_finalChunk pj buf path depth ⟨rfl, ?_⟩) ?_
        · intro hp
          cases hp
        · intro r w' hr
          exact ⟨r, hr, rfl⟩
      obtain ⟨r, hr, rfl⟩ := Env.wp_returns hwp h
      refine ⟨fun _ => ⟨r.2, hr.last, by rw [hr.machine]⟩, ?_, ?_⟩
      · intro hok
        have hdone : r.1.kind = .done := by
          refine Decidable.byContradiction fun hne => ?_
          rw [chunkResponse, if_neg hne, if_neg hr.not_accepted] at hok
          cases hok
        exact ⟨r.2, List.mem_of_getLast? hr.last, hr.answered hdone⟩
      · intro hok hamb
        rw [hr.machine] at hamb
        refine hr.honest ?_ hamb
        intro hdone
        rw [chunkResponse, if_pos hdone] at hok
        cases hok

end Loop

/-- One pending byte, its final PUT lost after Drive published the file: the
mark stands. -/
theorem final_chunk_verdict_lost :
    (feed ⟨fun _ => none, fun _ => []⟩ ((ChunkedUploadBuffer.new 0).fill (str "x")) true [{}]).2.finalMaybeSent = true := by
  have huri : driveSessionPath (str "https://www.googleapis.com/u") = some (str "/u") := by
    decide
  have hrun : ∃ p, Reaches publishRel
      (uploadChunk ⟨fun _ => none, fun _ => []⟩ ((ChunkedUploadBuffer.new 0).fill (str "x")) true 1
        (str "https://www.googleapis.com/u")) {} p { published := true, replies := [{}] } := by
    unfold uploadChunk
    rw [huri]
    exact ⟨_, .step ⟨rfl, fun _ => .inr (.inr rfl)⟩ (.here _ _)⟩
  obtain ⟨p, hp⟩ := hrun
  exact (final_chunk_verdict _ _ 1 _ hp).1 {} List.mem_cons_self rfl

end GDrive
