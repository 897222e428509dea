/-
The streaming-write state machine and the per-chunk retry/resume machine
(gdrive_upload_plan.hpp/.cpp), both pure.

`ChunkedUploadBuffer` holds at most one chunk of bytes not yet sent; the
normalised chunk size and that bound are fields, so neither can be lost.
`nextUploadStep` is fed one session reply at a time and says what to do
next; its transition is inverted once (`nextUploadStep_cases`) and every
fact about the loop around it is read off that inversion.
-/
import GDrive.Upload.Range

namespace GDrive

-- ======================================================== the chunk size

/-- 256 KiB: what every non-final chunk must be a multiple of. -/
def kDriveUploadChunkMultiple : Nat := 262144

/-- Upper bound on a chunk, a write handle's memory footprint: 1 GiB. -/
def kDriveUploadChunkMax : Nat := 4096 * kDriveUploadChunkMultiple

/-- Round down to a positive multiple of 256 KiB, at most the maximum. -/
def normalizeDriveChunkSize (requested : Nat) : Nat :=
  if requested > kDriveUploadChunkMax then kDriveUploadChunkMax
  else
    let rounded := requested / kDriveUploadChunkMultiple * kDriveUploadChunkMultiple
    if rounded = 0 then kDriveUploadChunkMultiple else rounded

/-- A chunk size the constructor can have produced. -/
structure NormalChunk (chunk : Nat) : Prop where
  dvd : kDriveUploadChunkMultiple ∣ chunk
  ge : kDriveUploadChunkMultiple ≤ chunk
  le : chunk ≤ kDriveUploadChunkMax

theorem normalizeDriveChunkSize_normal (requested : Nat) :
    NormalChunk (normalizeDriveChunkSize requested) := by
  have hmax : kDriveUploadChunkMultiple ≤ kDriveUploadChunkMax := by decide
  unfold normalizeDriveChunkSize
  split
  · exact ⟨⟨4096, Nat.mul_comm _ _⟩, hmax, Nat.le_refl _⟩
  · rename_i hle
    have hround := Nat.div_mul_le_self requested kDriveUploadChunkMultiple
    simp only
    split
    · exact ⟨Nat.dvd_refl _, Nat.le_refl _, hmax⟩
    · rename_i hne
      have hdvd : kDriveUploadChunkMultiple ∣
          requested / kDriveUploadChunkMultiple * kDriveUploadChunkMultiple :=
        Nat.dvd_mul_left _ _
      exact ⟨hdvd, Nat.le_of_dvd (Nat.pos_of_ne_zero hne) hdvd, by omega⟩

-- ============================================================ the buffer

/-- One chunk of bytes not yet accepted by the session. -/
structure ChunkedUploadBuffer where
  chunk : Nat
  pending : Str
  /-- Bytes already sent: the absolute offset of `pending`. -/
  offset : Nat
  /-- The most bytes ever held at once. -/
  peak : Nat
  sentAny : Bool
  chunk_normal : NormalChunk chunk
  pending_le : pending.length ≤ chunk

/-- What `Close` has to send. -/
inductive CloseAction
  /-- Nothing was sent yet: the pending bytes are the whole file. -/
  | singleRequest
  /-- A session is open: the pending bytes are its last chunk. -/
  | finalChunk
  deriving DecidableEq

namespace ChunkedUploadBuffer

/-- The constructor: an empty buffer with the chunk size normalised. -/
def new (chunkBytes : Nat) : ChunkedUploadBuffer where
  chunk := normalizeDriveChunkSize chunkBytes
  pending := []
  offset := 0
  peak := 0
  sentAny := false
  chunk_normal := normalizeDriveChunkSize_normal chunkBytes
  pending_le := Nat.zero_le _

/-- The pending chunk is complete; another byte needs a send first. -/
def full (buf : ChunkedUploadBuffer) : Bool := buf.chunk ≤ buf.pending.length

/-- How many of `len` bytes `Fill` takes. -/
def room (buf : ChunkedUploadBuffer) (len : Nat) : Nat :=
  min (buf.chunk - min buf.chunk buf.pending.length) len

/-- Append as much of `data` as fits; the caller drops `room` bytes. -/
def fill (buf : ChunkedUploadBuffer) (data : Str) : ChunkedUploadBuffer where
  chunk := buf.chunk
  pending := buf.pending ++ data.take (buf.room data.length)
  offset := buf.offset
  peak := max buf.peak (buf.pending.length + buf.room data.length)
  sentAny := buf.sentAny
  chunk_normal := buf.chunk_normal
  pending_le := by
    have := buf.pending_le
    simp only [List.length_append, List.length_take, room]
    omega

/-- The session accepted the pending chunk as a non-final one. -/
def markChunkSent (buf : ChunkedUploadBuffer) : ChunkedUploadBuffer where
  chunk := buf.chunk
  pending := []
  offset := buf.offset + buf.pending.length
  peak := buf.peak
  sentAny := true
  chunk_normal := buf.chunk_normal
  pending_le := Nat.zero_le _

def onClose (buf : ChunkedUploadBuffer) : CloseAction :=
  if buf.sentAny then .finalChunk else .singleRequest

/-- Bytes written so far. -/
def total (buf : ChunkedUploadBuffer) : Nat := buf.offset + buf.pending.length

/-- Given the next byte the server expects, how many pending bytes it
already holds; nothing when that byte lies outside the pending chunk. -/
def resumeSkip (buf : ChunkedUploadBuffer) (nextExpected : Nat) : Option Nat :=
  if nextExpected < buf.offset ∨ nextExpected > buf.total then none
  else some (nextExpected - buf.offset)

theorem resumeSkip_eq_some {buf : ChunkedUploadBuffer} {next skip : Nat} :
    buf.resumeSkip next = some skip ↔
      next = buf.offset + skip ∧ skip ≤ buf.pending.length := by
  unfold resumeSkip total
  split
  · simp only [false_iff, reduceCtorEq]
    omega
  · rw [Option.some.injEq]
    omega

/-- A buffer that is not full takes at least one byte of a non-empty
input. -/
theorem room_pos {buf : ChunkedUploadBuffer} {len : Nat} (hfull : buf.full = false)
    (hlen : 0 < len) : 0 < buf.room len := by
  simp only [full, decide_eq_false_iff_not, Nat.not_le] at hfull
  unfold room
  omega

theorem room_le (buf : ChunkedUploadBuffer) (len : Nat) : buf.room len ≤ len :=
  Nat.min_le_right _ _

/-- An empty buffer is not full. -/
theorem full_of_pending_nil {buf : ChunkedUploadBuffer} (h : buf.pending = []) :
    buf.full = false := by
  have hge := buf.chunk_normal.ge
  have hpos : 0 < kDriveUploadChunkMultiple := by decide
  simp only [full, h, List.length_nil, decide_eq_false_iff_not]
  omega

/-- Filling takes something off a non-empty input. -/
theorem length_drop_room {buf : ChunkedUploadBuffer} {data : Str} (hfull : buf.full = false)
    (hdata : data ≠ []) : (data.drop (buf.room data.length)).length < data.length := by
  have hlen := List.length_pos_iff.mpr hdata
  have hroom := room_pos hfull hlen
  rw [List.length_drop]
  omega

/-- What was filled in is there. -/
theorem fill_pending_ne_nil {buf : ChunkedUploadBuffer} {data : Str} (hfull : buf.full = false)
    (hdata : data ≠ []) : (buf.fill data).pending ≠ [] := by
  have hroom := room_pos hfull (List.length_pos_iff.mpr hdata)
  have hlen := List.length_pos_iff.mpr hdata
  rw [← List.length_pos_iff]
  simp only [fill, List.length_append, List.length_take]
  omega

end ChunkedUploadBuffer

-- ========================================================= Content-Range

/-- The `Content-Range` of a session request: of a chunk, first and last
byte and, on a final chunk, the total; of a status query, the total
alone. -/
inductive ContentRange
  | bytes (first last : Nat) (total : Option Nat)
  | query (total : Option Nat)
  deriving DecidableEq

/-- The total a request carries. -/
def ContentRange.total : ContentRange → Option Nat
  | .bytes _ _ total => total
  | .query total => total

/-- The header's text. -/
def ContentRange.text : ContentRange → Str
  | .bytes first last total =>
      str "bytes " ++ decimal first ++ str "-" ++ decimal last ++ str "/"
        ++ total.elim (str "*") decimal
  | .query total => str "bytes */" ++ total.elim (str "*") decimal

/-- The total as a request of a chunk carries it. -/
def ChunkedUploadBuffer.totalOf (buf : ChunkedUploadBuffer) (final : Bool) : Option Nat :=
  if final then some buf.total else none

/-- The range of the pending bytes minus the first `skip`. -/
def ChunkedUploadBuffer.contentRange (buf : ChunkedUploadBuffer) (final : Bool)
    (skip : Nat) : ContentRange :=
  .bytes (buf.offset + skip) (buf.offset + buf.pending.length - 1) (buf.totalOf final)

-- ================================================== the per-chunk machine

/-- One reply from the session, to a chunk or to a status query. -/
structure UploadReply where
  /-- False: no HTTP response at all. -/
  transportOk : Bool
  status : Nat
  /-- The Range header of a 308, empty when absent. -/
  range : Str
  /-- For an error status: could retrying help? -/
  retryable : Bool
  deriving DecidableEq

/-- Per-chunk progress, carried across replies for one chunk. -/
structure ChunkUploadState where
  /-- Pending bytes the session already holds. -/
  skip : Nat := 0
  /-- Consecutive 308s that moved nothing. -/
  stalls : Nat := 0
  /-- Errors and transport failures so far. -/
  failures : Nat := 0
  /-- A final-chunk attempt may have reached Drive. -/
  finalMaybeSent : Bool := false
  deriving DecidableEq

inductive UploadStepKind
  /-- Final chunk: the file is published. -/
  | done
  /-- Non-final chunk: Drive holds all of it. -/
  | accepted
  /-- Send the pending bytes from `skip` (all skipped: a status query). -/
  | send
  /-- Ask the session what it holds. -/
  | askStatus
  | fail
  deriving DecidableEq

structure UploadStep where
  kind : UploadStepKind := .send
  /-- Sleep before the next request. -/
  backoff : Bool := false
  /-- A failed final chunk that may have been applied. -/
  ambiguous : Bool := false
  error : Str := []
  deriving DecidableEq

/-- Bound on errors, and on consecutive 308s without progress. -/
def kMaxChunkAttempts : Nat := 5

/-- Give up, ambiguously when a final chunk may have reached Drive. -/
def failStep (final : Bool) (state : ChunkUploadState) (backoff : Bool) (why : Str) :
    UploadStep :=
  { kind := .fail, backoff, ambiguous := final && state.finalMaybeSent, error := why }

/-- The 308 branch: what the session says it holds decides. -/
def onIncomplete (buf : ChunkedUploadBuffer) (final : Bool) (state : ChunkUploadState)
    (range : Str) : UploadStep × ChunkUploadState :=
  match parseDriveRangeNext range with
  | none =>
      (failStep final state false
        (str "resumable upload: Drive answered with a Range header that is not \"bytes=0-N\""),
        state)
  | some next =>
      match buf.resumeSkip next with
      | none =>
          (failStep final state false
            (str "resumable upload: Drive reports holding bytes outside the chunk still in memory; the upload cannot be resumed"),
            state)
      | some skip =>
          let whole := skip = buf.pending.length ∧ final = false
          let moved := state.skip < skip ∨ whole
          if ¬moved ∧ kMaxChunkAttempts < state.stalls + 1 then
            (failStep final state false
              (str "resumable upload made no progress after repeated attempts"),
              { state with stalls := state.stalls + 1 })
          else
            let stalls := if moved then 0 else state.stalls + 1
            let state' := { state with stalls, skip }
            let backoff := decide (0 < stalls)
            if whole then ({ kind := .accepted, backoff }, state')
            else if final = false ∧ skip < buf.pending.length ∧
                (buf.offset + skip) % kDriveUploadChunkMultiple ≠ 0 then
              -- The rest would be a non-final chunk off a 256 KiB boundary,
              -- which Drive refuses.
              (failStep final state' backoff
                (str "resumable upload: Drive acknowledged a non-final chunk up to a byte that is not a multiple of 256 KiB; the rest cannot be sent as a valid chunk"),
                state')
            else ({ kind := .send, backoff }, state')

/-- No reply at all, or a server error: the request may have been applied. -/
def UploadReply.lost (reply : UploadReply) : Bool :=
  !reply.transportOk || decide (500 ≤ reply.status)

/-- Could asking again help? A missing reply always could. -/
def UploadReply.canRetry (reply : UploadReply) : Bool := !reply.transportOk || reply.retryable

/-- The state after a lost reply or an error status. -/
def troubleState (final : Bool) (state : ChunkUploadState) (reply : UploadReply) :
    ChunkUploadState :=
  { state with
    finalMaybeSent := state.finalMaybeSent || (final && reply.lost)
    failures := if reply.canRetry then state.failures + 1 else state.failures }

/-- The branch of a lost reply or an error status. -/
def onTrouble (final : Bool) (state : ChunkUploadState) (reply : UploadReply) :
    UploadStep × ChunkUploadState :=
  let state' := troubleState final state reply
  if reply.canRetry && decide (state'.failures ≤ kMaxChunkAttempts) then
    ({ kind := .askStatus, backoff := true }, state')
  else if !reply.transportOk then
    (failStep final state' false
      (str "network transport failure uploading a chunk (no response from Drive)"), state')
  else
    (failStep final state' false
      (str "resumable upload chunk rejected with HTTP " ++ decimal reply.status), state')

/-- Feed one reply in; do what the step says. -/
def nextUploadStep (buf : ChunkedUploadBuffer) (final : Bool) (state : ChunkUploadState)
    (reply : UploadReply) : UploadStep × ChunkUploadState :=
  if reply.transportOk = true ∧ (reply.status = 200 ∨ reply.status = 201) then
    if final then ({ kind := .done }, state)
    else
      (failStep final state false
        (str "resumable upload: Drive completed the upload before its final chunk"), state)
  else if reply.transportOk = true ∧ reply.status = 308 then
    onIncomplete buf final state reply.range
  else onTrouble final state reply

-- ==================================================== what a step can do

/-- The reply that publishes: 200 or 201. -/
def UploadReply.Published (reply : UploadReply) : Prop :=
  reply.transportOk = true ∧ (reply.status = 200 ∨ reply.status = 201)

/-- A 308 that reports `n` bytes held. -/
def UploadReply.Holds (reply : UploadReply) (n : Nat) : Prop :=
  reply.transportOk = true ∧ reply.status = 308 ∧ parseDriveRangeNext reply.range = some n

/-- Every way a reply moves the machine, with what it takes. The mark is
`nextUploadStep_finalMaybeSent`, the same in every case. -/
inductive StepCase (buf : ChunkedUploadBuffer) (final : Bool) (state : ChunkUploadState)
    (reply : UploadReply) : UploadStep → ChunkUploadState → Prop
  | done : final = true → reply.Published →
      StepCase buf final state reply { kind := .done } state
  | accepted {backoff : Bool} {state' : ChunkUploadState} :
      final = false → reply.Holds buf.total → state'.skip = buf.pending.length →
      StepCase buf final state reply { kind := .accepted, backoff } state'
  | send {backoff : Bool} {state' : ChunkUploadState} :
      reply.Holds (buf.offset + state'.skip) → state'.skip ≤ buf.pending.length →
      (final = false → state'.skip < buf.pending.length ∧
        (buf.offset + state'.skip) % kDriveUploadChunkMultiple = 0) →
      StepCase buf final state reply { kind := .send, backoff } state'
  | askStatus {state' : ChunkUploadState} :
      ¬reply.Published → reply.canRetry = true → state'.skip = state.skip →
      state'.failures = state.failures + 1 →
      StepCase buf final state reply { kind := .askStatus, backoff := true } state'
  | fail {backoff : Bool} {why : Str} {state' : ChunkUploadState} :
      ¬(final = true ∧ reply.Published) →
      StepCase buf final state reply (failStep final state' backoff why) state'

private theorem onIncomplete_cases (buf : ChunkedUploadBuffer) (final : Bool)
    (state : ChunkUploadState) {reply : UploadReply} (hok : reply.transportOk = true)
    (hstatus : reply.status = 308) :
    StepCase buf final state reply (onIncomplete buf final state reply.range).1
      (onIncomplete buf final state reply.range).2 := by
  have hpub : ¬(final = true ∧ reply.Published) := by
    rintro ⟨-, -, h | h⟩ <;> simp [hstatus] at h
  unfold onIncomplete
  split
  · exact .fail hpub
  · rename_i next hnext
    split
    · exact .fail hpub
    · rename_i skip hskip
      obtain ⟨rfl, hle⟩ := ChunkedUploadBuffer.resumeSkip_eq_some.mp hskip
      simp only
      split
      · exact @StepCase.fail _ _ _ _ _ _ { state with stalls := state.stalls + 1 } hpub
      · split
        · rename_i hwhole
          refine .accepted hwhole.2 ⟨hok, hstatus, ?_⟩ hwhole.1
          rw [ChunkedUploadBuffer.total, ← hwhole.1]
          exact hnext
        · rename_i hwhole
          split
          · exact .fail hpub
          · rename_i hmod
            refine .send ⟨hok, hstatus, hnext⟩ hle fun hfinal => ?_
            have hlt : skip < buf.pending.length :=
              Nat.lt_of_le_of_ne hle fun h => hwhole ⟨h, hfinal⟩
            exact ⟨hlt, Decidable.byContradiction fun h => hmod ⟨hfinal, hlt, h⟩⟩

private theorem onTrouble_cases (buf : ChunkedUploadBuffer) (final : Bool)
    (state : ChunkUploadState) {reply : UploadReply} (hpub : ¬reply.Published) :
    StepCase buf final state reply (onTrouble final state reply).1
      (onTrouble final state reply).2 := by
  have hfail : ¬(final = true ∧ reply.Published) := fun h => hpub h.2
  unfold onTrouble
  simp only
  split
  · rename_i h
    have hretry : reply.canRetry = true := (Bool.and_eq_true_iff.mp h).1
    exact .askStatus hpub hretry rfl (if_pos hretry)
  · split <;> exact .fail hfail

/-- What `nextUploadStep` can do. -/
theorem nextUploadStep_cases (buf : ChunkedUploadBuffer) (final : Bool)
    (state : ChunkUploadState) (reply : UploadReply) :
    StepCase buf final state reply (nextUploadStep buf final state reply).1
      (nextUploadStep buf final state reply).2 := by
  unfold nextUploadStep
  split
  · rename_i hpub
    cases final with
    | true => exact .done rfl hpub
    | false => exact .fail (by simp)
  · rename_i hpub
    split
    · rename_i h
      exact onIncomplete_cases buf final state h.1 h.2
    · exact onTrouble_cases buf final state hpub

/-- The mark, after any reply: set by a lost reply to a final chunk, and
never cleared. -/
theorem nextUploadStep_finalMaybeSent (buf : ChunkedUploadBuffer) (final : Bool)
    (state : ChunkUploadState) (reply : UploadReply) :
    (nextUploadStep buf final state reply).2.finalMaybeSent =
      (state.finalMaybeSent || (final && reply.lost)) := by
  have hkeep : reply.transportOk = true → reply.status < 500 → reply.lost = false := by
    intro hok hlt
    simp [UploadReply.lost, hok]
    omega
  unfold nextUploadStep
  split
  · rename_i h
    rw [hkeep h.1 (by omega)]
    split <;> simp
  · split
    · rename_i h
      rw [hkeep h.1 (by omega), Bool.and_false, Bool.or_false]
      unfold onIncomplete
      split
      · rfl
      · split
        · rfl
        · simp only
          split
          · rfl
          · split
            · rfl
            · split <;> rfl
    · unfold onTrouble
      simp only
      split
      · rfl
      · split <;> rfl

namespace StepCase

variable {buf : ChunkedUploadBuffer} {final : Bool} {state state' : ChunkUploadState}
  {reply : UploadReply} {step : UploadStep}

theorem of_done (h : StepCase buf final state reply step state') (hk : step.kind = .done) :
    final = true ∧ reply.Published := by
  cases h with
  | done hf hp => exact ⟨hf, hp⟩
  | accepted => cases hk
  | send => cases hk
  | askStatus => cases hk
  | fail => cases hk

theorem of_accepted (h : StepCase buf final state reply step state')
    (hk : step.kind = .accepted) : final = false ∧ reply.Holds buf.total := by
  cases h with
  | done => cases hk
  | accepted hf hh => exact ⟨hf, hh⟩
  | send => cases hk
  | askStatus => cases hk
  | fail => cases hk

/-- A failed step is ambiguous exactly when the mark stands on a final
chunk. -/
theorem ambiguous (h : StepCase buf final state reply step state') (hk : step.kind = .fail) :
    step.ambiguous = (final && state'.finalMaybeSent) := by
  cases h with
  | done => cases hk
  | accepted => cases hk
  | send => cases hk
  | askStatus => cases hk
  | fail => rfl

/-- A publishing reply to a final chunk is never taken for anything else. -/
theorem done_of_published (h : StepCase buf final state reply step state')
    (hf : final = true) (hp : reply.Published) : step.kind = .done := by
  obtain ⟨hok, hstatus⟩ := hp
  cases h with
  | done => rfl
  | accepted hff => rw [hf] at hff; cases hff
  | send hh =>
      have h308 := hh.2.1
      omega
  | askStatus hno => exact absurd ⟨hok, hstatus⟩ hno
  | fail hno => exact absurd ⟨hf, hok, hstatus⟩ hno

end StepCase

end GDrive
