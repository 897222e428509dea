/-
How many requests `GDriveClientImpl::UploadChunk` makes for one chunk
(gdrive_client.cpp, gdrive_upload_plan.cpp).

# The measure

A 308 that reports more than the one before it is progress, and clears the
count of stalls; any other adds to it, and too many end the loop. A lost reply
or an error counts as a failure, and these are counted for good. So the
requests are bounded by what the reported position may rise in all
(`Counted`), and that is the size of the chunk once, and once more for every
time the position falls (`upload_chunk_bounded`).

# The hole

Progress is measured from the last report and not from the highest, and
nothing counts the falls. A session whose reports go up and down is asked for
ever (`upload_chunk_endless`).
-/
import GDrive.Client.Session

namespace GDrive

open Interaction

-- ============================================================ what is reported

/-- What a 308 says the session holds. -/
def RawResult.held (raw : RawResult) : Option Nat :=
  if raw.transportOk = true ∧ raw.status = 308 then parseDriveRangeNext raw.range else none

/-- The position last reported, from `position` on. -/
def reported (position : Nat) : List RawResult → Nat
  | [] => position
  | raw :: rest => reported (raw.held.getD position) rest

/-- How often a report is below the one before it. -/
def falls (position : Nat) : List RawResult → Nat
  | [] => 0
  | raw :: rest =>
      (if raw.held.getD position < position then 1 else 0) + falls (raw.held.getD position) rest

theorem reported_concat (position : Nat) (replies : List RawResult) (raw : RawResult) :
    reported position (replies ++ [raw]) = raw.held.getD (reported position replies) := by
  induction replies generalizing position with
  | nil => rfl
  | cons first replies ih => exact ih _

theorem falls_concat (position : Nat) (replies : List RawResult) (raw : RawResult) :
    falls position (replies ++ [raw]) = falls position replies +
      if raw.held.getD (reported position replies) < reported position replies then 1 else 0 := by
  induction replies generalizing position with
  | nil =>
      show _ + 0 = 0 + _
      rw [Nat.add_zero, Nat.zero_add]
      rfl
  | cons first replies ih =>
      rw [List.cons_append, falls, ih, falls, reported, Nat.add_assoc]

theorem falls_le (position : Nat) (replies : List RawResult) :
    falls position replies ≤ replies.length := by
  induction replies generalizing position with
  | nil => exact Nat.le_refl _
  | cons first replies ih =>
      have hrest := ih (first.held.getD position)
      rw [falls, List.length_cons]
      split <;> omega

-- ================================================================== one reply

section Step

variable {buf : ChunkedUploadBuffer} {final : Bool} {state : ChunkUploadState}
  {reply : UploadReply}

/-- The two ways a reply lets the loop go on. -/
inductive GoOnCase (buf : ChunkedUploadBuffer) (state state' : ChunkUploadState)
    (reply : UploadReply) : Prop
  /-- A report: progress, or one more stall. -/
  | moved : reply.Holds (buf.offset + state'.skip) → state'.skip ≤ buf.pending.length →
      state'.failures = state.failures → state'.stalls ≤ kMaxChunkAttempts →
      state.skip < state'.skip ∨ state'.stalls = state.stalls + 1 → GoOnCase buf state state' reply
  /-- No report, one more failure. -/
  | asked : ¬(reply.transportOk = true ∧ reply.status = 308) → state'.skip = state.skip →
      state'.stalls = state.stalls → state'.failures = state.failures + 1 →
      state'.failures ≤ kMaxChunkAttempts → GoOnCase buf state state' reply

theorem onIncomplete_goesOn (hok : reply.transportOk = true) (hstatus : reply.status = 308)
    (hgo : (onIncomplete buf final state reply.range).1.kind = .send ∨
      (onIncomplete buf final state reply.range).1.kind = .askStatus) :
    GoOnCase buf state (onIncomplete buf final state reply.range).2 reply := by
  unfold onIncomplete at hgo ⊢
  split at hgo
  · rcases hgo with hgo | hgo <;> cases hgo
  · rename_i next hnext
    split at hgo
    · rcases hgo with hgo | hgo <;> cases hgo
    · rename_i skip hskip
      obtain ⟨rfl, hle⟩ := ChunkedUploadBuffer.resumeSkip_eq_some.mp hskip
      simp only at hgo ⊢
      split at hgo
      · rcases hgo with hgo | hgo <;> cases hgo
      · rename_i hstall
        rw [if_neg hstall]
        split at hgo
        · rcases hgo with hgo | hgo <;> cases hgo
        · rename_i hwhole
          rw [if_neg hwhole]
          split at hgo
          · rcases hgo with hgo | hgo <;> cases hgo
          · rename_i hmod
            rw [if_neg hmod]
            by_cases hmore : state.skip < skip
            · refine .moved ⟨hok, hstatus, hnext⟩ hle rfl ?_ (.inl hmore)
              rw [if_pos (.inl hmore)]
              exact Nat.zero_le _
            · have hnot : ¬(state.skip < skip ∨ skip = buf.pending.length ∧ final = false) :=
                fun h => h.elim hmore hwhole
              refine .moved ⟨hok, hstatus, hnext⟩ hle rfl ?_ (.inr ?_)
              · rw [if_neg hnot]
                exact Nat.le_of_not_lt fun h => hstall ⟨hnot, h⟩
              · rw [if_neg hnot]

theorem nextUploadStep_goesOn
    (hgo : (nextUploadStep buf final state reply).1.kind = .send ∨
      (nextUploadStep buf final state reply).1.kind = .askStatus) :
    GoOnCase buf state (nextUploadStep buf final state reply).2 reply := by
  unfold nextUploadStep at hgo ⊢
  split at hgo
  · split at hgo
    · rcases hgo with hgo | hgo <;> cases hgo
    · rcases hgo with hgo | hgo <;> cases hgo
  · rename_i hpublished
    rw [if_neg hpublished]
    split at hgo
    · rename_i h308
      rw [if_pos h308]
      exact onIncomplete_goesOn h308.1 h308.2 hgo
    · rename_i h308
      rw [if_neg h308]
      unfold onTrouble at hgo ⊢
      simp only at hgo ⊢
      split at hgo
      · rename_i hretry
        rw [if_pos hretry]
        rw [Bool.and_eq_true, decide_eq_true_eq] at hretry
        exact .asked h308 rfl rfl (if_pos hretry.1) hretry.2
      · split at hgo
        · rcases hgo with hgo | hgo <;> cases hgo
        · rcases hgo with hgo | hgo <;> cases hgo

end Step

-- ==================================================================== a run

/-- A session that answers anything, and the answers. -/
def sessionLog : Rel Wire (List RawResult)
  | w, .session _ _ _, (raw : RawResult), w' => w' = w ++ [raw]
  | w, _, _, w' => w' = w

/-- The most requests for a chunk of `pending` bytes, where the reported
position falls `falls` times. -/
def requestBound (pending falls : Nat) : Nat :=
  (pending + pending * falls) * (kMaxChunkAttempts + 1) + 2 * kMaxChunkAttempts + 1

theorem requestBound_mono {pending m n : Nat} (h : m ≤ n) :
    requestBound pending m ≤ requestBound pending n := by
  have hmul : pending * m ≤ pending * n := Nat.mul_le_mul_left _ h
  have hmul' : (pending + pending * m) * (kMaxChunkAttempts + 1) ≤
      (pending + pending * n) * (kMaxChunkAttempts + 1) := Nat.mul_le_mul_right _ (by omega)
  unfold requestBound
  omega

section Run

variable {pj : Picojson} {buf : ChunkedUploadBuffer} {final : Bool} {sessionUri : Str}

/-- What the requests made so far are counted by. -/
structure Counted (buf : ChunkedUploadBuffer) (state : ChunkUploadState)
    (replies : List RawResult) : Prop where
  position : reported buf.offset replies = buf.offset + state.skip
  skip_le : state.skip ≤ buf.pending.length
  stalls_le : state.stalls ≤ kMaxChunkAttempts
  failures_le : state.failures ≤ kMaxChunkAttempts
  count : replies.length ≤
    (state.skip + buf.pending.length * falls buf.offset replies) * (kMaxChunkAttempts + 1) +
      state.stalls + state.failures

/-- A reply that lets the loop go on is counted. -/
theorem Counted.goesOn {state : ChunkUploadState} {replies : List RawResult} {raw : RawResult}
    (h : Counted buf state replies)
    (hgo : (nextUploadStep buf final state (replyOf pj raw)).1.kind = .send ∨
      (nextUploadStep buf final state (replyOf pj raw)).1.kind = .askStatus) :
    Counted buf (nextUploadStep buf final state (replyOf pj raw)).2 (replies ++ [raw]) := by
  obtain ⟨hposition, hskip, hstalls, hfailures, hcount⟩ := h
  have hcase := nextUploadStep_goesOn hgo
  generalize (nextUploadStep buf final state (replyOf pj raw)).2 = state' at hcase
  have hreported := reported_concat buf.offset replies raw
  have hfalls := falls_concat buf.offset replies raw
  rw [hposition] at hreported hfalls
  have hlength : (replies ++ [raw]).length = replies.length + 1 := List.length_append
  cases hcase with
  | moved hholds hskip' hfailures' hstalls' hmove =>
      obtain ⟨hok, h308, hnext⟩ := hholds
      have hheld : raw.held = some (buf.offset + state'.skip) :=
        (if_pos ⟨hok, h308⟩).trans hnext
      rw [hheld, Option.getD_some] at hreported hfalls
      refine ⟨hreported, hskip', hstalls', hfailures' ▸ hfailures, ?_⟩
      rw [hlength]
      by_cases hfall : state'.skip < state.skip
      · -- The position falls: that is one more stall, and the bytes count again.
        have hagain : state.skip + buf.pending.length * falls buf.offset replies ≤
            state'.skip + buf.pending.length * (falls buf.offset replies + 1) := by
          rw [Nat.mul_succ]
          omega
        have hmul := Nat.mul_le_mul_right (kMaxChunkAttempts + 1) hagain
        rw [if_pos (Nat.add_lt_add_left hfall _)] at hfalls
        rw [hfalls]
        omega
      · rw [if_neg (fun h => hfall (Nat.lt_of_add_lt_add_left h)), Nat.add_zero] at hfalls
        rw [hfalls]
        rcases hmove with hmore | hstall
        · -- Progress pays for the stalls it clears.
          have hmul := Nat.mul_le_mul_right (kMaxChunkAttempts + 1)
            (show state.skip + buf.pending.length * falls buf.offset replies + 1 ≤
              state'.skip + buf.pending.length * falls buf.offset replies by omega)
          rw [Nat.succ_mul] at hmul
          omega
        · have hmul := Nat.mul_le_mul_right (kMaxChunkAttempts + 1)
            (show state.skip + buf.pending.length * falls buf.offset replies ≤
              state'.skip + buf.pending.length * falls buf.offset replies by omega)
          omega
  | asked h308 hskip' hstalls' hfailures' hle =>
      have hheld : raw.held = none := if_neg h308
      rw [hheld, Option.getD_none] at hreported hfalls
      rw [if_neg (Nat.lt_irrefl _), Nat.add_zero] at hfalls
      refine ⟨hskip' ▸ hreported, hskip' ▸ hskip, hstalls' ▸ hstalls, hle, ?_⟩
      rw [hlength, hfalls, hskip', hstalls', hfailures']
      omega

theorem Counted.bounded {state : ChunkUploadState} {replies : List RawResult}
    (h : Counted buf state replies) :
    replies.length + 1 ≤ requestBound buf.pending.length (falls buf.offset replies) := by
  obtain ⟨-, hskip, hstalls, hfailures, hcount⟩ := h
  have hmul : (state.skip + buf.pending.length * falls buf.offset replies) *
      (kMaxChunkAttempts + 1) ≤
      (buf.pending.length + buf.pending.length * falls buf.offset replies) *
        (kMaxChunkAttempts + 1) := Nat.mul_le_mul_right _ (by omega)
  unfold requestBound
  omega

theorem wp_counted (path : Str) (depth : Nat) {step : UploadStep} {state : ChunkUploadState}
    {w : List RawResult} (h : Counted buf state w) :
    (Env.ofRel sessionLog fun w =>
        w.length ≤ requestBound buf.pending.length (falls buf.offset w)).wp
      (uploadChunkLoop pj buf final path depth step state)
      (fun _ w => w.length ≤ requestBound buf.pending.length (falls buf.offset w)) w := by
  have hnow : ∀ {state : ChunkUploadState} {w : List RawResult}, Counted buf state w →
      w.length ≤ requestBound buf.pending.length (falls buf.offset w) :=
    fun h => Nat.le_of_succ_le h.bounded
  refine wp_uploadChunkLoop (I := fun _ state w => Counted buf state w) ?_ ?_ ?_
    depth step state w h
  · exact fun _ _ _ h => hnow h
  · intro step state q P w hq h hP
    refine ⟨hnow h, ?_⟩
    intro ans w' hw
    cases q with
    | token => exact hw ▸ hP ans
    | refresh => exact hw ▸ hP ans
    | sleep => exact hw ▸ hP ans
    | http => cases hq
    | session => cases hq
    | cancelSession => cases hq
  · intro step state w h
    refine ⟨hnow h, ?_⟩
    intro (raw : RawResult) w' hw
    obtain rfl := hw
    simp only
    split
    · rename_i hgo
      exact h.goesOn hgo
    · -- The last request is the one the bound has kept room for.
      have hmore : falls buf.offset w ≤ falls buf.offset (w ++ [raw]) := by
        rw [falls_concat]
        omega
      have hmono := @requestBound_mono buf.pending.length _ _ hmore
      have hbounded := h.bounded
      rw [List.length_append, List.length_singleton]
      omega

/-- A run that is cut has made a request for every level it was unrolled to. -/
theorem uploadChunkLoop_cut {path : Str} {f : UploadStep × RawResult → DriveResponse}
    {p : Prog Wire DriveResponse} {w' : List RawResult} :
    ∀ (depth : Nat) (step : UploadStep) (state : ChunkUploadState) (w : List RawResult),
      Reaches sessionLog
        ((uploadChunkLoop pj buf final path depth step state).bind fun r => .ret (f r)) w p w' →
      p = .cut → w'.length = w.length + depth := by
  intro depth
  induction depth with
  | zero =>
      intro step state w h hcut
      cases h
      rfl
  | succ depth ih =>
      intro step state w h hcut
      cases h with
      | here => cases hcut
      | step hw hrest =>
          rename_i w₁ raw
          have hlength : w₁.length = w.length + 1 := by
            rw [show w₁ = w ++ [raw] from hw]
            exact List.length_append
          simp only at hrest
          split at hrest
          · split at hrest
            · cases hrest with
              | here => cases hcut
              | step hsleep hrest =>
                  obtain rfl := hsleep
                  have hcount := ih _ _ _ hrest hcut
                  omega
            · have hcount := ih _ _ _ hrest hcut
              omega
          · cases hrest
            cases hcut

end Run

-- ================================================================ the hole

/-- The last two bytes of a file one byte and a chunk long. -/
def seesawBuffer : ChunkedUploadBuffer where
  chunk := kDriveUploadChunkMultiple
  pending := str "ab"
  offset := kDriveUploadChunkMultiple
  peak := kDriveUploadChunkMultiple
  sentAny := true
  chunk_normal := ⟨Nat.dvd_refl _, Nat.le_refl _, by decide⟩
  pending_le := by decide

/-- A session that holds the first of the two, or neither. -/
def seesawReply (up : Bool) : RawResult where
  transportOk := true
  status := 308
  range := if up then str "bytes=0-262144" else str "bytes=0-262143"

/-- Its reports, up and down in turn. -/
def seesaw : Bool → Nat → List RawResult
  | _, 0 => []
  | up, n + 1 => seesawReply up :: seesaw (!up) n

theorem seesaw_length (up : Bool) (n : Nat) : (seesaw up n).length = n := by
  induction n generalizing up with
  | zero => rfl
  | succ n ih => exact congrArg (· + 1) (ih _)

theorem sessionLog_session {α : Type} {path : Str} {range : ContentRange} {data : Str}
    {k : RawResult → Prog Wire α} {p : Prog Wire α} {w w' : List RawResult} (raw : RawResult)
    (h : Reaches sessionLog (k raw) (w ++ [raw]) p w') :
    Reaches sessionLog (.ask (.session path range data) k) w p w' :=
  .step rfl h

theorem sessionLog_sleep {α : Type} {attempt : Nat} {wait : Int} {k : Unit → Prog Wire α}
    {p : Prog Wire α} {w w' : List RawResult} (h : Reaches sessionLog (k ()) w p w') :
    Reaches sessionLog (.ask (.sleep attempt wait) k) w p w' :=
  .step rfl h

/-- The lower report is the first stall, and the higher one clears it: the
loop has made no progress, and is where it was. -/
theorem seesaw_loop (path : Str) (depth : Nat) :
    (∀ step state w, state = {} ∨ state = { stalls := 1 } →
      Reaches sessionLog
        (uploadChunkLoop ⟨fun _ => none, fun _ => []⟩ seesawBuffer true path depth step state)
        w .cut (w ++ seesaw true depth)) ∧
    ∀ step w,
      Reaches sessionLog
        (uploadChunkLoop ⟨fun _ => none, fun _ => []⟩ seesawBuffer true path depth step
          { skip := 1 })
        w .cut (w ++ seesaw false depth) := by
  induction depth with
  | zero =>
      constructor
      · intro step state w _
        rw [seesaw, List.append_nil]
        exact .here _ _
      · intro step w
        rw [seesaw, List.append_nil]
        exact .here _ _
  | succ depth ih =>
      obtain ⟨hup, hdown⟩ := ih
      constructor
      · intro step state w hstate
        have hnext : nextUploadStep seesawBuffer true state
            (replyOf ⟨fun _ => none, fun _ => []⟩ (seesawReply true)) =
            ({ kind := .send }, { skip := 1 }) := by
          rcases hstate with rfl | rfl
          · decide
          · decide
        rw [seesaw, List.append_cons]
        refine sessionLog_session (seesawReply true) ?_
        simp only [hnext]
        exact hdown _ _
      · intro step w
        have hnext : nextUploadStep seesawBuffer true { skip := 1 }
            (replyOf ⟨fun _ => none, fun _ => []⟩ (seesawReply false)) =
            ({ kind := .send, backoff := true }, { stalls := 1 }) := by
          decide
        rw [seesaw, List.append_cons]
        refine sessionLog_session (seesawReply false) ?_
        simp only [hnext]
        exact sessionLog_sleep (hup _ _ _ (.inr rfl))

-- ================================================================ the bound

/-- How many requests a chunk takes, for every session and every sequence of
replies: never more than the size of the chunk and the falls of the reported
position allow, and a run that is followed that far has ended. So over any
class of reply sequences the requests are bounded exactly where the falls
are. -/
theorem upload_chunk_bounded (pj : Picojson) (buf : ChunkedUploadBuffer) (final : Bool)
    (sessionUri : Str) :
    (∀ depth p w, Reaches sessionLog (uploadChunk pj buf final depth sessionUri) [] p w →
      w.length ≤ requestBound buf.pending.length (falls buf.offset w) ∧
      (requestBound buf.pending.length (falls buf.offset w) < depth → p ≠ .cut)) ∧
    ∀ S : List RawResult → Prop,
      (∃ most, ∀ depth p w, S w →
        Reaches sessionLog (uploadChunk pj buf final depth sessionUri) [] p w →
        w.length ≤ most) ↔
      ∃ most, ∀ depth p w, S w →
        Reaches sessionLog (uploadChunk pj buf final depth sessionUri) [] p w →
        falls buf.offset w ≤ most := by
  have hbound : ∀ depth p w,
      Reaches sessionLog (uploadChunk pj buf final depth sessionUri) [] p w →
      w.length ≤ requestBound buf.pending.length (falls buf.offset w) ∧
      (requestBound buf.pending.length (falls buf.offset w) < depth → p ≠ .cut) := by
    intro depth p w h
    unfold uploadChunk at h
    split at h
    · cases h
      exact ⟨Nat.zero_le _, fun _ hcut => by cases hcut⟩
    · rename_i path _
      have hstart : Counted buf {} [] :=
        ⟨rfl, Nat.zero_le _, Nat.zero_le _, Nat.zero_le _, Nat.zero_le _⟩
      have hwp : (Env.ofRel sessionLog fun w =>
            w.length ≤ requestBound buf.pending.length (falls buf.offset w)).wp
          ((uploadChunkLoop pj buf final path depth {} {}).bind fun r =>
            .ret (chunkResponse pj r.1 r.2))
          (fun _ w => w.length ≤ requestBound buf.pending.length (falls buf.offset w)) [] := by
        rw [Env.wp_bind]
        exact wp_counted path depth hstart
      have hle := Env.wp_always hwp (fun _ _ h => h) h
      refine ⟨hle, ?_⟩
      intro hdepth hcut
      have hall := uploadChunkLoop_cut depth _ _ _ h hcut
      rw [List.length_nil] at hall
      omega
  refine ⟨hbound, fun S => ⟨?_, ?_⟩⟩
  · rintro ⟨most, hmost⟩
    refine ⟨most, fun depth p w hS h => ?_⟩
    exact Nat.le_trans (falls_le _ _) (hmost depth p w hS h)
  · rintro ⟨most, hmost⟩
    refine ⟨requestBound buf.pending.length most, fun depth p w hS h => ?_⟩
    exact Nat.le_trans (hbound depth p w h).1 (requestBound_mono (hmost depth p w hS h))

/-- A report, and one below it: the bound counts the fall. -/
theorem upload_chunk_bounded_fall :
    2 ≤ requestBound 2 (falls kDriveUploadChunkMultiple (seesaw true 2)) := by
  have huri : driveSessionPath (str "https://www.googleapis.com/u") = some (str "/u") := by
    decide
  have hrun : Reaches sessionLog
      (uploadChunk ⟨fun _ => none, fun _ => []⟩ seesawBuffer true 2
        (str "https://www.googleapis.com/u")) [] .cut (seesaw true 2) := by
    unfold uploadChunk
    rw [huri]
    exact ((seesaw_loop (str "/u") 2).1 {} {} [] (.inl rfl)).bind _
  exact ((upload_chunk_bounded _ _ _ _).1 2 _ _ hrun).1

/-- A session that holds the first of two bytes, or neither, in turn: however
far the run is followed, one more request is made. So no bound that the size
of the chunk and the bound on attempts give is one. -/
theorem upload_chunk_endless :
    (∀ depth, Reaches sessionLog
      (uploadChunk ⟨fun _ => none, fun _ => []⟩ seesawBuffer true depth
        (str "https://www.googleapis.com/u")) [] .cut (seesaw true depth)) ∧
    ¬∃ bound : Nat → Nat → Nat, ∀ pj buf final sessionUri depth p w,
      Reaches sessionLog (uploadChunk pj buf final depth sessionUri) [] p w →
      w.length ≤ bound buf.pending.length kMaxChunkAttempts := by
  have huri : driveSessionPath (str "https://www.googleapis.com/u") = some (str "/u") := by
    decide
  have hrun : ∀ depth, Reaches sessionLog
      (uploadChunk ⟨fun _ => none, fun _ => []⟩ seesawBuffer true depth
        (str "https://www.googleapis.com/u")) [] .cut (seesaw true depth) := by
    intro depth
    unfold uploadChunk
    rw [huri]
    exact ((seesaw_loop (str "/u") depth).1 {} {} [] (.inl rfl)).bind _
  refine ⟨hrun, ?_⟩
  rintro ⟨bound, hbound⟩
  have hle := hbound _ _ _ _ _ _ _
    (hrun (bound seesawBuffer.pending.length kMaxChunkAttempts + 1))
  rw [seesaw_length] at hle
  omega

end GDrive
