/-
What a write handle sends to its session: the chunk size, the `Content-Range`
of every PUT, and how much is held in memory (gdrive_upload_plan.cpp, `Write`
of gdrive_filesystem.cpp, `UploadChunk` of gdrive_client.cpp).

# The law

Drive takes a chunk that is not the last only on 256 KiB boundaries, and
answers any other with a plain 400. Offsets stay on them because only a full
chunk is sent before the close, and a resume off them fails instead
(`AlignedStep`). So the law is about the two places where bytes move, `Fill`
and the session's report, and holds over every split of the bytes into writes
and every sequence of replies.

# What it is stated over

`Sends` is a request the handle is about to make at some moment of its life,
against anything that answers (`chunk_conformance`). The chunks sent by
`Write` are the non-final ones, those sent by `Close` the final ones.
-/
import GDrive.Write.Fidelity

namespace GDrive

open Interaction

-- ================================================================== the law

/-- A data PUT of the bytes `first` to `last` of the file `full`. The lengths
are added up and not subtracted: with no byte to send, `last` would lie before
the file. -/
structure DataPut (full : Str) (final : Bool) (first last : Nat) (total : Option Nat)
    (data : Str) : Prop where
  nonempty : data ≠ []
  length : first + data.length = last + 1
  bytes : data <+: full.drop first
  inside : last < full.length
  nonfinal : final = false →
    kDriveUploadChunkMultiple ∣ first ∧ kDriveUploadChunkMultiple ∣ data.length ∧ total = none
  ends : final = true → total = some (last + 1) ∧ last + 1 = full.length

/-- A request to a session, during an upload of `full`: a data PUT, or a
status query. -/
def PutOk (full : Str) (final : Bool) : WireReq → Prop
  | .session _ (.bytes first last total) data => DataPut full final first last total data
  | .session _ (.query _) data => data = []
  | _ => True

/-- Does the operation publish? Its chunks are the final ones. -/
def HandleOp.final : HandleOp → Bool
  | .close => true
  | _ => false

namespace Conformance

open Fidelity (Buffered SameHandle)

-- ================================================================= one chunk

section Chunk

variable {full : Str} {buf : ChunkedUploadBuffer} {final : Bool}

/-- A chunk that may go up: it is what the file has there; the last one ends
the file, and any other starts and ends on a boundary. -/
structure Sendable (full : Str) (final : Bool) (buf : ChunkedUploadBuffer) : Prop where
  slice : Slice full buf
  aligned : final = false →
    kDriveUploadChunkMultiple ∣ buf.offset ∧ kDriveUploadChunkMultiple ∣ buf.pending.length
  ends : final = true → buf.total = full.length

/-- Bytes of a chunk that is not the last are only sent from a boundary. -/
def AlignedStep (buf : ChunkedUploadBuffer) (final : Bool) (step : UploadStep)
    (state : ChunkUploadState) : Prop :=
  step.kind = .send → final = false → kDriveUploadChunkMultiple ∣ buf.offset + state.skip

theorem alignedStep_next {state : ChunkUploadState} {reply : UploadReply} :
    AlignedStep buf final (nextUploadStep buf final state reply).1
      (nextUploadStep buf final state reply).2 := by
  have hcases := nextUploadStep_cases buf final state reply
  generalize (nextUploadStep buf final state reply).1 = step at hcases
  generalize (nextUploadStep buf final state reply).2 = state' at hcases
  intro hsend hfinal
  cases hcases with
  | done => cases hsend
  | accepted => cases hsend
  | send _ _ hmod => exact Nat.dvd_of_mod_eq_zero (hmod hfinal).2
  | askStatus => cases hsend
  | fail => cases hsend

/-- What the loop sends. -/
theorem putOk_chunk {step : UploadStep} {state : ChunkUploadState} {path : Str}
    (h : Sendable full final buf) (hstep : AlignedStep buf final step state) :
    PutOk full final
      (.session path (requestRange buf final step state) (requestData buf step state)) := by
  unfold requestRange requestData
  split
  · rename_i hsends
    obtain ⟨hkind, hlt⟩ := of_decide_eq_true hsends
    have hdrop : (buf.pending.drop state.skip).length = buf.pending.length - state.skip :=
      List.length_drop
    have hslice : buf.pending.drop state.skip <+: full.drop (buf.offset + state.skip) := by
      rw [← List.drop_drop]
      exact h.slice.drop state.skip
    have hinside : buf.offset + buf.pending.length ≤ full.length := by
      have hle := h.slice.length_le
      rw [List.length_drop] at hle
      omega
    refine ⟨?_, ?_, hslice, ?_, ?_, ?_⟩
    · apply List.ne_nil_of_length_pos
      omega
    · rw [hdrop]
      omega
    · omega
    · intro hfinal
      obtain ⟨hoffset, hpending⟩ := h.aligned hfinal
      have hfirst := hstep hkind hfinal
      refine ⟨hfirst, ?_, ?_⟩
      · rw [hdrop]
        exact Nat.dvd_sub hpending ((Nat.dvd_add_right hoffset).mp hfirst)
      · rw [ChunkedUploadBuffer.totalOf, hfinal, if_neg Bool.false_ne_true]
    · intro hfinal
      have htotal := h.ends hfinal
      rw [ChunkedUploadBuffer.totalOf, if_pos hfinal]
      unfold ChunkedUploadBuffer.total at htotal ⊢
      exact ⟨congrArg some (by omega), by omega⟩
  · rfl

variable {pj : Picojson} {w : Unit}

/-- A chunk, driven through its session. -/
theorem wp_uploadChunk (depth : Nat) (uri : Str) (h : Sendable full final buf) :
    (Env.asking (PutOk full final)).wp (client pj depth (.uploadChunk uri buf final))
      (fun _ _ => True) w := by
  show (Env.asking (PutOk full final)).wp
    ((uploadChunk pj buf final depth uri).bind fun resp => .ret (Except.ok resp)) _ w
  rw [Env.wp_bind]
  unfold uploadChunk
  split
  · trivial
  · rename_i path _
    rw [Env.wp_bind]
    refine wp_uploadChunkLoop (I := fun step state _ => AlignedStep buf final step state)
      ?_ ?_ ?_ depth {} {} w ?_
    · exact fun _ _ _ _ => trivial
    · intro step state q P w hq _ hP
      refine ⟨?_, hP⟩
      cases q with
      | session => cases hq
      | _ => trivial
    · intro step state w hI
      refine ⟨putOk_chunk h hI, ?_⟩
      intro (raw : RawResult)
      simp only
      split
      · exact alignedStep_next
      · trivial
    · intro _ hfinal
      exact (h.aligned hfinal).1

end Chunk

-- ================================================================== the calls

section Calls

variable {full : Str} {final : Bool} {pj : Picojson} {w : Unit}

/-- Requests of the Drive API are not the session's. -/
theorem wp_executeWithRetry (depth : Nat) {op : DriveOp} {success : List Nat} {flag : Bool} :
    (Env.asking (PutOk full final)).wp (executeWithRetry pj op success flag depth)
      (fun _ _ => True) w := by
  refine GDrive.wp_executeWithRetry (I := fun _ => True) (fun _ _ => trivial) ?_
    (fun _ _ _ => trivial) ?_ depth trivial
  · intro q P w hq _ hP
    refine ⟨?_, hP⟩
    cases q with
    | session => cases hq
    | _ => trivial
  · exact fun _ _ _ => ⟨trivial, fun _ => ⟨fun _ => trivial, trivial⟩⟩

theorem wp_startResumableUpload (depth : Nat) (fileId parentId name contentType : Str) :
    (Env.asking (PutOk full final)).wp
      (client pj depth (.startResumableUpload fileId parentId name contentType))
      (fun _ _ => True) w := by
  show (Env.asking (PutOk full final)).wp
    ((executeWithRetry pj _ [200] true depth).bind fun r => .ret (r.map checkSessionUri)) _ w
  rw [Env.wp_bind]
  exact wp_executeWithRetry depth

theorem wp_upload (depth : Nat) (fileId parentId name contentType data reservedId : Str) :
    (Env.asking (PutOk full final)).wp
      (client pj depth (.upload fileId parentId name contentType data reservedId))
      (fun _ _ => True) w := by
  show (Env.asking (PutOk full final)).wp
    (upload pj depth fileId parentId name contentType data reservedId) _ w
  unfold upload
  split
  · exact wp_executeWithRetry depth
  · split
    · split
      · exact wp_executeWithRetry depth
      · rw [Env.wp_bind]
        refine Env.wp_mono (wp_executeWithRetry depth) ?_
        intro r w' _
        cases r with
        | error e => trivial
        | ok resp =>
            unfold recognizeOwnCreate
            simp only
            split
            · exact wp_executeWithRetry depth
            · trivial
    · exact wp_executeWithRetry depth

theorem wp_cancelUpload (depth : Nat) (uri : Str) :
    (Env.asking (PutOk full final)).wp (client pj depth (.cancelUpload uri))
      (fun _ _ => True) w := by
  show (Env.asking (PutOk full final)).wp (cancelUpload uri) _ w
  unfold cancelUpload
  split
  · trivial
  · exact ⟨trivial, fun _ => trivial⟩

end Calls

-- ================================================================= the buffer

/-- What the buffer holds, and ever held. -/
structure Sized (chunk : Nat) (buf : ChunkedUploadBuffer) : Prop where
  chunk_eq : buf.chunk = chunk
  pending_le : buf.pending.length ≤ buf.peak
  peak_le : buf.peak ≤ chunk

/-- A buffer with the end of the bytes written so far, from a boundary on. -/
structure Ready (chunk : Nat) (sofar : Str) (buf : ChunkedUploadBuffer) : Prop
    extends Sized chunk buf where
  buffered : Buffered sofar buf
  aligned : kDriveUploadChunkMultiple ∣ buf.offset

section Buffer

variable {chunk : Nat} {sofar full : Str} {buf : ChunkedUploadBuffer}

theorem Ready.new (chunkBytes : Nat) :
    Ready (normalizeDriveChunkSize chunkBytes) [] (.new chunkBytes) :=
  ⟨⟨rfl, Nat.le_refl _, Nat.zero_le _⟩, .new chunkBytes, Nat.dvd_zero _⟩

theorem Ready.fill (h : Ready chunk sofar buf) (data : Str) :
    Ready chunk (sofar ++ data.take (buf.room data.length)) (buf.fill data) := by
  refine ⟨⟨h.chunk_eq, ?_, ?_⟩, h.buffered.fill data, h.aligned⟩
  · show (buf.pending ++ data.take (buf.room data.length)).length ≤
      max buf.peak (buf.pending.length + buf.room data.length)
    rw [List.length_append, List.length_take]
    omega
  · show max buf.peak (buf.pending.length + buf.room data.length) ≤ chunk
    have hpeak := h.peak_le
    have hpending := buf.pending_le
    have hchunk := h.chunk_eq
    unfold ChunkedUploadBuffer.room
    omega

/-- A full buffer holds a whole chunk. -/
theorem pending_of_full (hfull : buf.full = true) : buf.pending.length = buf.chunk :=
  Nat.le_antisymm buf.pending_le (of_decide_eq_true hfull)

theorem Ready.markChunkSent (h : Ready chunk sofar buf) (hfull : buf.full = true) :
    Ready chunk sofar buf.markChunkSent := by
  refine ⟨⟨h.chunk_eq, Nat.zero_le _, h.peak_le⟩, h.buffered.markChunkSent, ?_⟩
  show kDriveUploadChunkMultiple ∣ buf.offset + buf.pending.length
  rw [pending_of_full hfull]
  exact Nat.dvd_add h.aligned buf.chunk_normal.dvd

/-- A full chunk may go up before the end. -/
theorem Ready.sendable_full (h : Ready chunk sofar buf) (hfull : buf.full = true)
    (hsofar : sofar <+: full) : Sendable full false buf := by
  refine ⟨h.buffered.slice hsofar, fun _ => ⟨h.aligned, ?_⟩, nofun⟩
  rw [pending_of_full hfull]
  exact buf.chunk_normal.dvd

/-- What is left may go up last. -/
theorem Ready.sendable_last (h : Ready chunk full buf) : Sendable full true buf :=
  ⟨h.buffered.slice (List.prefix_refl full), nofun, fun _ => h.buffered.total⟩

end Buffer

-- ================================================================= the handle

/-- The client, over the wire, where only what conforms is sent. -/
def env (pj : Picojson) (depth : Nat) (full : Str) (final : Bool) : Env Client Unit :=
  (Env.asking (PutOk full final)).through (client pj depth)

def HandleSized (chunk : Nat) (h : WriteHandle) : Prop :=
  ∀ buf, h.upload = some buf → Sized chunk buf

section Handle

variable {pj : Picojson} {depth chunk : Nat} {full sofar : Str} {final : Bool}
  {buf : ChunkedUploadBuffer} {h : WriteHandle} {w : Unit}

theorem wp_openSession :
    Code.wp (env pj depth full final) openSession
      (fun _ h' _ => ∃ uri, h' = { h with uploadSession := uri }) h w := by
  unfold openSession
  rw [Code.wp_bind, Code.wp_get, Code.outcome_ok, Code.wp_when]
  constructor
  · intro _
    rw [Code.wp_bind, wp_call]
    refine Env.wp_mono (wp_startResumableUpload depth _ _ _ _) ?_
    intro r w' _
    cases r with
    | error e => exact ⟨_, rfl⟩
    | ok start =>
        rw [Code.outcome_ok, Code.wp_bind, Code.wp_when]
        exact ⟨fun _ => ⟨_, rfl⟩, fun _ => ⟨_, rfl⟩⟩
  · exact fun _ => ⟨_, rfl⟩

theorem wp_sendUploadChunk (hready : Sendable full false buf) :
    Code.wp (env pj depth full false) (sendUploadChunk buf)
      (Code.outcome
        (fun _ h' _ => ∃ uri, h' =
          { h with uploadSession := uri, upload := some buf.markChunkSent })
        fun _ h' _ => ∃ uri, h' = { h with uploadSession := uri }) h w := by
  unfold sendUploadChunk
  rw [Code.wp_bind]
  refine Code.wp_mono wp_openSession ?_
  rintro r h₁ w₁ ⟨uri, rfl⟩
  cases r with
  | error e => exact ⟨uri, rfl⟩
  | ok _ =>
      rw [Code.outcome_ok, Code.wp_bind, Code.wp_get, Code.outcome_ok, Code.wp_bind, wp_call]
      refine Env.wp_mono (wp_uploadChunk depth uri hready) ?_
      intro r w₂ _
      cases r with
      | error e => exact ⟨uri, rfl⟩
      | ok resp =>
          rw [Code.outcome_ok, Code.wp_bind, Code.wp_when]
          exact ⟨fun _ => ⟨uri, rfl⟩, fun _ => ⟨uri, rfl⟩⟩

theorem wp_makeRoom (hupload : h.upload = some buf) (hbuf : Ready chunk sofar buf)
    (hsofar : sofar <+: full) :
    Code.wp (env pj depth full false) makeRoom
      (fun r h' _ => SameHandle h h' ∧ HandleSized chunk h' ∧ (r = .ok () →
        ∃ buf', h'.upload = some buf' ∧ Ready chunk sofar buf')) h w := by
  have hkeep : HandleSized chunk h := by
    intro buf' hbuf'
    rw [hupload] at hbuf'
    cases hbuf'
    exact hbuf.toSized
  unfold makeRoom
  rw [Code.wp_bind, Code.wp_get, Code.outcome_ok, hupload]
  simp only
  rw [Code.wp_when]
  constructor
  · intro hfull
    refine Code.wp_mono (wp_sendUploadChunk (hbuf.sendable_full hfull hsofar)) ?_
    intro r h' w' hr
    cases r with
    | error e =>
        obtain ⟨uri, rfl⟩ := hr
        exact ⟨⟨rfl, rfl, rfl⟩, hkeep, nofun⟩
    | ok _ =>
        obtain ⟨uri, rfl⟩ := hr
        have hsent := hbuf.markChunkSent hfull
        refine ⟨⟨rfl, rfl, rfl⟩, ?_, fun _ => ⟨_, rfl, hsent⟩⟩
        intro buf' hbuf'
        cases hbuf'
        exact hsent.toSized
  · exact fun _ => ⟨⟨rfl, rfl, rfl⟩, hkeep, fun _ => ⟨buf, hupload, hbuf⟩⟩

/-- The rounds of `Write`, with `data` still to go. -/
theorem wp_writeLoop (rounds : Nat) :
    ∀ {data sofar : Str} {h : WriteHandle} {buf : ChunkedUploadBuffer},
      sofar ++ data = full → h.upload = some buf → Ready chunk sofar buf →
      Code.wp (env pj depth full false) (writeLoop rounds data)
        (fun r h' _ => SameHandle h h' ∧ HandleSized chunk h' ∧ (r = .ok () →
          ∃ buf', h'.upload = some buf' ∧ Ready chunk full buf')) h w := by
  have hdone : ∀ {sofar : Str} {h : WriteHandle} {buf : ChunkedUploadBuffer},
      sofar ++ [] = full → h.upload = some buf → Ready chunk sofar buf →
      SameHandle h h ∧ HandleSized chunk h ∧ ((Except.ok () : Except Exn Unit) = .ok () →
        ∃ buf', h.upload = some buf' ∧ Ready chunk full buf') := by
    intro sofar h buf hsofar hupload hbuf
    rw [List.append_nil] at hsofar
    rw [hsofar] at hbuf
    refine ⟨⟨rfl, rfl, rfl⟩, ?_, fun _ => ⟨buf, hupload, hbuf⟩⟩
    intro buf' hbuf'
    rw [hupload] at hbuf'
    cases hbuf'
    exact hbuf.toSized
  induction rounds with
  | zero =>
      intro data sofar h buf hsofar hupload hbuf
      cases data with
      | nil => exact hdone hsofar hupload hbuf
      | cons c data => trivial
  | succ rounds ih =>
      intro data sofar h buf hsofar hupload hbuf
      cases data with
      | nil => exact hdone hsofar hupload hbuf
      | cons c data =>
          rw [writeLoop, Code.wp_bind]
          refine Code.wp_mono (wp_makeRoom hupload hbuf ⟨c :: data, hsofar⟩) ?_
          rintro r h₁ w₁ ⟨hsame, hsized, hr⟩
          cases r with
          | error e =>
              refine ⟨hsame, hsized, ?_⟩
              intro hok
              cases hok
          | ok _ =>
              obtain ⟨buf₁, hupload₁, hbuf₁⟩ := hr rfl
              unfold fillBuffer
              rw [Code.outcome_ok, Code.wp_bind, Code.wp_bind, Code.wp_get, Code.outcome_ok,
                hupload₁]
              simp only
              rw [Code.wp_bind, Code.wp_modify, Code.outcome_ok, Code.wp_pure, Code.outcome_ok]
              have hsplit : (sofar ++ (c :: data).take (buf₁.room (c :: data).length)) ++
                  (c :: data).drop (buf₁.room (c :: data).length) = full := by
                rw [List.append_assoc, List.take_append_drop, hsofar]
              refine Code.wp_mono (ih hsplit rfl (hbuf₁.fill _)) ?_
              rintro r h₂ w₂ ⟨hsame₂, hsized₂, hr₂⟩
              refine ⟨⟨?_, ?_, ?_⟩, hsized₂, hr₂⟩
              · exact hsame₂.1.trans hsame.1
              · exact hsame₂.2.1.trans hsame.2.1
              · exact hsame₂.2.2.trans hsame.2.2

/-- A handle that is still writing. -/
structure Writing (chunk : Nat) (sofar : Str) (h : WriteHandle) : Prop where
  isWrite : h.isWrite = true
  good : h.writeFailed = false
  buffer : ∃ buf, h.upload = some buf ∧ Ready chunk sofar buf

theorem Writing.sized (hI : Writing chunk sofar h) : HandleSized chunk h := by
  obtain ⟨buf, hupload, hbuf⟩ := hI.buffer
  intro buf' hbuf'
  rw [hupload] at hbuf'
  cases hbuf'
  exact hbuf.toSized

/-- A handle that sends no chunk any more. -/
structure Over (chunk : Nat) (h : WriteHandle) : Prop where
  ended : h.isWrite = false ∨ h.writeFailed = true
  sized : HandleSized chunk h

theorem wp_abortUpload :
    Code.wp (env pj depth full final) abortUpload
      (fun r h' _ => r = .ok () ∧ h' = { h with uploadSession := [] }) h w := by
  unfold abortUpload
  rw [Code.wp_bind, Code.wp_get, Code.outcome_ok, Code.wp_when]
  constructor
  · intro _
    rw [Code.wp_bind, Code.wp_modify, Code.outcome_ok, Code.wp_tryCatch, Code.wp_bind, wp_call]
    refine Env.wp_mono (wp_cancelUpload depth _) ?_
    intro r w' _
    cases r with
    | ok resp => exact ⟨rfl, rfl⟩
    | error e => exact ⟨rfl, rfl⟩
  · intro hempty
    have hnil : h.uploadSession = [] := by simpa using hempty
    refine ⟨rfl, ?_⟩
    cases h
    cases hnil
    rfl

theorem wp_failWrite :
    Code.wp (env pj depth full final) failWrite
      (fun r h' _ => r = .ok () ∧ h' = { h with uploadSession := [], writeFailed := true })
      h w := by
  unfold failWrite
  rw [Code.wp_bind, Code.wp_modify, Code.outcome_ok]
  exact wp_abortUpload

theorem wp_write {data : Str} (hI : Writing chunk sofar h) :
    Code.wp (env pj depth (sofar ++ data) false) (write data)
      (Code.outcome (fun _ h' _ => Writing chunk (sofar ++ data) h')
        fun _ h' _ => Over chunk h') h w := by
  obtain ⟨buf, hupload, hbuf⟩ := hI.buffer
  unfold write
  rw [Code.wp_bind, Code.wp_get, Code.outcome_ok, hI.isWrite, hI.good, hupload]
  rw [if_neg (by simp), if_neg (by simp), Code.wp_bind, Code.wp_onError]
  refine Code.wp_mono (wp_writeLoop data.length rfl hupload hbuf) ?_
  rintro r h₁ w₁ ⟨hsame, hsized, hr⟩
  cases r with
  | error e =>
      rw [Code.outcome_error]
      refine Code.wp_mono wp_failWrite ?_
      rintro r h₂ w₂ ⟨rfl, rfl⟩
      exact ⟨.inr rfl, hsized⟩
  | ok _ =>
      obtain ⟨buf₁, hupload₁, hbuf₁⟩ := hr rfl
      exact ⟨hsame.2.1.trans hI.isWrite, hsame.2.2.trans hI.good, buf₁, hupload₁, hbuf₁⟩

-- ==================================================================== `Close`

/-- Publishing leaves the buffer where it is; only the last chunk is sent to
a session. -/
theorem wp_publish (hbuf : Ready chunk full buf) :
    Code.wp (env pj depth full true) (publish pj buf)
      (fun _ h' _ => h'.isWrite = h.isWrite ∧ h'.upload = h.upload) h w := by
  unfold publish
  split
  · unfold publishFinalChunk
    rw [Code.wp_bind, Code.wp_get, Code.outcome_ok, Code.wp_bind, wp_call]
    refine Env.wp_mono (wp_uploadChunk depth _ hbuf.sendable_last) ?_
    intro r w' _
    cases r with
    | error e => exact ⟨rfl, rfl⟩
    | ok resp =>
        rw [Code.outcome_ok, Code.wp_bind, Code.wp_when]
        exact ⟨fun _ => ⟨rfl, rfl⟩, fun _ => ⟨rfl, rfl⟩⟩
  · have hreserve : Code.wp (env pj depth full true) (reserveId pj) (fun _ h' _ => h' = h) h w := by
      unfold reserveId
      rw [Code.wp_bind, Code.wp_get, Code.outcome_ok]
      split
      · rw [Code.wp_bind, wp_call]
        refine Env.wp_mono (wp_executeWithRetry depth) ?_
        intro r w' _
        cases r with
        | error e => rfl
        | ok idResp => rfl
      · rfl
    unfold publishSingleRequest
    rw [Code.wp_bind]
    refine Code.wp_mono hreserve ?_
    rintro r h' w₁ rfl
    cases r with
    | error e => exact ⟨rfl, rfl⟩
    | ok reservedId =>
        rw [Code.outcome_ok, Code.wp_bind, Code.wp_get, Code.outcome_ok, Code.wp_bind, wp_call]
        refine Env.wp_mono (wp_upload depth _ _ _ _ _ _) ?_
        intro r w₂ _
        cases r with
        | error e => exact ⟨rfl, rfl⟩
        | ok resp =>
            rw [Code.outcome_ok, Code.wp_bind, Code.wp_when]
            exact ⟨fun _ => ⟨rfl, rfl⟩, fun _ => ⟨rfl, rfl⟩⟩

theorem wp_close (hI : Writing chunk full h) :
    Code.wp (env pj depth full true) (close pj) (fun _ h' _ => Over chunk h') h w := by
  obtain ⟨buf, hupload, hbuf⟩ := hI.buffer
  have hcontents : Code.wp (env pj depth full true) (uploadHandleContents pj)
      (fun _ h' _ => h'.isWrite = false ∧ HandleSized chunk h')
      { h with isWrite := false } w := by
    unfold uploadHandleContents
    rw [Code.wp_bind, Code.wp_get, Code.outcome_ok, hI.good, hupload]
    simp only
    rw [Code.wp_bind]
    refine Code.wp_mono (wp_publish hbuf) ?_
    rintro r h' w' ⟨hclosed, hsame⟩
    have hover : h'.isWrite = false ∧ HandleSized chunk h' := by
      refine ⟨hclosed, ?_⟩
      intro buf' hbuf'
      rw [hsame] at hbuf'
      cases hbuf'
      exact hbuf.toSized
    cases r with
    | error e => exact hover
    | ok resp =>
        rw [Code.outcome_ok]
        split
        · exact hover
        · exact hover
  unfold close
  rw [Code.wp_bind, Code.wp_get, Code.outcome_ok, hI.isWrite, hI.good, Code.wp_when]
  refine ⟨fun _ => ?_, nofun⟩
  rw [Code.wp_bind, Code.wp_modify, Code.outcome_ok, if_neg (by simp), Code.wp_bind,
    Code.wp_onError]
  refine Code.wp_mono hcontents ?_
  rintro r h₁ w₁ ⟨hclosed, hsized₁⟩
  cases r with
  | error e =>
      rw [Code.outcome_error]
      refine Code.wp_mono wp_failWrite ?_
      rintro r h₂ w₂ ⟨rfl, rfl⟩
      exact ⟨.inl hclosed, hsized₁⟩
  | ok _ => exact ⟨.inl hclosed, nofun⟩

/-- An operation on a handle that is over sends no chunk. -/
theorem wp_over (op : HandleOp) (hover : Over chunk h) :
    Code.wp (env pj depth full final) (handleOp pj op)
      (fun _ s' _ => ∀ h', s' = some h' → Over chunk h') (some h) w := by
  have hkeep : ∀ h', some h = some h' → Over chunk h' := by
    rintro h' ⟨rfl⟩
    exact hover
  have hfailed : h.isWrite = true → h.writeFailed = true := by
    intro hopen
    rcases hover.ended with hclosed | hfailed
    · rw [hclosed] at hopen
      cases hopen
    · exact hfailed
  cases op with
  | write data =>
      refine (wp_onHandle _).mpr ?_
      unfold write
      rw [Code.wp_bind, Code.wp_get, Code.outcome_ok]
      split
      · exact hkeep
      · rename_i hopen
        rw [if_pos (hfailed (by simpa using fun h => hopen (.inl h)))]
        exact hkeep
  | close =>
      refine (wp_onHandle _).mpr ?_
      unfold close
      rw [Code.wp_bind, Code.wp_get, Code.outcome_ok, Code.wp_when]
      refine ⟨fun hopen => ?_, fun _ => hkeep⟩
      rw [Code.wp_bind, Code.wp_modify, Code.outcome_ok, if_pos (hfailed hopen)]
      refine Code.wp_mono wp_abortUpload ?_
      rintro r h₁ w₁ ⟨-, rfl⟩ h' ⟨rfl⟩
      exact ⟨.inl rfl, hover.sized⟩
  | cancelWrite =>
      refine (wp_onHandle _).mpr ?_
      unfold cancelWrite
      rw [Code.wp_bind, Code.wp_get, Code.outcome_ok, Code.wp_when]
      refine ⟨fun _ => ?_, fun _ => hkeep⟩
      rw [Code.wp_bind, Code.wp_modify, Code.outcome_ok, Code.wp_bind]
      refine Code.wp_mono wp_abortUpload ?_
      rintro r h₁ w₁ ⟨rfl, rfl⟩ h' ⟨rfl⟩
      exact ⟨.inl rfl, nofun⟩
  | destroy =>
      unfold handleOp destroyHandle
      rw [Code.wp_bind, wp_onHandle]
      refine Code.wp_mono wp_abortUpload ?_
      rintro r h₁ w₁ ⟨rfl, rfl⟩
      exact nofun

end Handle

-- ============================================================== every history

/-- A handle after the operations `l`. -/
inductive Stage (chunk : Nat) (l : List (HandleOp × Except Exn Unit)) :
    Option WriteHandle → Prop
  | writing {h : WriteHandle} :
      (l.map Prod.fst).all HandleOp.isWrite = true →
      Writing chunk (written (l.map Prod.fst)) h → Stage chunk l (some h)
  | ended {s : Option WriteHandle} : (∀ h, s = some h → Over chunk h) → Stage chunk l s

theorem Stage.sized {chunk : Nat} {l : List (HandleOp × Except Exn Unit)} {h : WriteHandle}
    (hs : Stage chunk l (some h)) : HandleSized chunk h := by
  cases hs with
  | writing _ hI => exact hI.sized
  | ended hover => exact (hover h rfl).sized

/-- One operation, in every stage. -/
theorem wp_stage {pj : Picojson} {depth chunk : Nat} (l : List (HandleOp × Except Exn Unit))
    (op : HandleOp) (s : Option WriteHandle) (hs : Stage chunk l s) :
    Code.wp (env pj depth (written (l.map Prod.fst ++ [op])) op.final) (handleOp pj op)
      (fun r s' _ => Stage chunk (l ++ [(op, r)]) s') s () := by
  cases hs with
  | ended hover =>
      cases s with
      | none => cases op <;> exact .ended nofun
      | some h =>
          exact Code.wp_mono (wp_over op (hover h rfl)) fun r s' _ hs' => .ended hs'
  | @writing h hl hI =>
      have hover : ∀ {h' : WriteHandle} {r : Except Exn Unit}, Over chunk h' →
          Stage chunk (l ++ [(op, r)]) (some h') := by
        intro h' r hover
        refine .ended ?_
        rintro h'' ⟨rfl⟩
        exact hover
      cases op with
      | write data =>
          refine (wp_onHandle _).mpr ?_
          rw [written_concat_write hl]
          refine Code.wp_mono (wp_write hI) ?_
          intro r h' w' hr
          cases r with
          | error e => exact hover hr
          | ok _ =>
              refine .writing ?_ ?_
              · rw [List.map_append, List.all_append, hl]
                rfl
              · rw [List.map_append]
                show Writing chunk (written (l.map Prod.fst ++ [.write data])) h'
                rw [written_concat_write hl]
                exact hr
      | close =>
          refine (wp_onHandle _).mpr ?_
          rw [written_concat (.inr rfl)]
          exact Code.wp_mono (wp_close hI) fun _ _ _ hr => hover hr
      | cancelWrite =>
          refine (wp_onHandle _).mpr ?_
          unfold cancelWrite
          rw [Code.wp_bind, Code.wp_get, Code.outcome_ok, hI.isWrite, Code.wp_when]
          refine ⟨fun _ => ?_, nofun⟩
          rw [Code.wp_bind, Code.wp_modify, Code.outcome_ok, Code.wp_bind]
          refine Code.wp_mono wp_abortUpload ?_
          rintro r h₁ w₁ ⟨rfl, rfl⟩
          exact hover ⟨.inl rfl, nofun⟩
      | destroy =>
          unfold handleOp destroyHandle
          rw [Code.wp_bind, wp_onHandle]
          refine Code.wp_mono wp_abortUpload ?_
          rintro r h₁ w₁ ⟨rfl, rfl⟩
          exact .ended nofun

end Conformance

-- ================================================================ the theorem

/-- A request that the operation `op` is about to make at some moment, on the
handle `s`. -/
def Sends {W : Type} (R : Rel Wire W) (pj : Picojson) (depth : Nat)
    (op : HandleOp) (s : Option WriteHandle) (w : W) (q : WireReq) : Prop :=
  ∃ k w', Reaches R (handleOnWire pj depth op s) w (.ask q k) w'

/-- Chunk conformance and the memory bound, for every chunk setting, every
sequence of operations and whatever is answered. The normalised chunk is a
multiple of 256 KiB between that and 1 GiB; the buffer never held more; and
every request the next operation sends to a session conforms, the bytes
counted being those written so far. -/
theorem chunk_conformance {W : Type} {R : Rel Wire W} {pj : Picojson} {depth chunkBytes : Nat}
    {path parentId name : Str} {placeholder : DriveFileMeta} {w₀ w : W}
    {l : List (HandleOp × Except Exn Unit)} {s : Option WriteHandle}
    (h : History R (handleOnWire pj depth)
      (some (openForWriting path placeholder parentId name chunkBytes)) w₀ l s w) :
    NormalChunk (normalizeDriveChunkSize chunkBytes) ∧
    (∀ handle buf, s = some handle → handle.upload = some buf →
      buf.pending.length ≤ buf.peak ∧ buf.peak ≤ normalizeDriveChunkSize chunkBytes) ∧
    ∀ op q, Sends R pj depth op s w q →
      PutOk (written (l.map Prod.fst ++ [op])) op.final q := by
  have hstep : ∀ l op s, Conformance.Stage (normalizeDriveChunkSize chunkBytes) l s →
      (handleOnWire pj depth op).wp
        (.asking (PutOk (written (l.map Prod.fst ++ [op])) op.final))
        (fun r s' _ => Conformance.Stage (normalizeDriveChunkSize chunkBytes) (l ++ [(op, r)]) s')
        s () :=
    fun l op s hs => (Code.wp_handle _ _ _).mpr (Conformance.wp_stage l op s hs)
  have hopened : Conformance.Stage (normalizeDriveChunkSize chunkBytes) []
      (some (openForWriting path placeholder parentId name chunkBytes)) :=
    .writing rfl ⟨rfl, rfl, _, rfl, .new chunkBytes⟩
  have hstage := h.inv_asking hstep hopened
  refine ⟨normalizeDriveChunkSize_normal chunkBytes, ?_, ?_⟩
  · rintro handle buf rfl hupload
    have hsized := hstage.sized buf hupload
    exact ⟨hsized.pending_le, hsized.peak_le⟩
  · rintro op q ⟨k, w', hr⟩
    exact (Env.wp_asking (hstep l op s hstage) hr).1

/-- One byte written, nothing asked: the buffer has held it, and a request of
the next operation would be one for a file of one byte. -/
theorem chunk_conformance_byte : ∃ handle buf,
    handle.upload = some buf ∧ buf.pending = str "x" ∧
    buf.peak ≤ kDriveUploadChunkMultiple ∧
    ∀ q, Sends (fun _ _ _ _ => True) ⟨fun _ => none, fun _ => []⟩ 9 .close (some handle) () q →
      PutOk (str "x") true q := by
  let opened := openForWriting (str "gdrive://f") {} (str "root") (str "f") 0
  let written : WriteHandle :=
    { opened with position := 1, upload := some ((ChunkedUploadBuffer.new 0).fill (str "x")) }
  have hrun : History (fun _ _ _ _ => True) (handleOnWire ⟨fun _ => none, fun _ => []⟩ 9)
      (some opened) () ([] ++ [(.write (str "x"), .ok ())]) (some written) () :=
    .snoc .nil (.here _ _)
  obtain ⟨-, hsized, hsends⟩ := chunk_conformance hrun
  exact ⟨written, _, rfl, rfl, (hsized written _ rfl rfl).2, fun q hq => hsends .close q hq⟩

end GDrive
