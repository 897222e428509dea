/-
Streaming-upload fidelity: what a write handle, its client and Drive make
together of a sequence of `Write` buffers.

The handle runs over the wire (`handleOnWire`), against Drive with its
lost replies and late requests (`driveRel`). `written` is the bytes the
callers gave it. While the handle is writing, its buffer is the end of
these bytes (`Buffered`) and nothing can have been published; once it has
failed nothing ever is; and once it is closed or cancelled `written` does
not change any more, and one publishing attempt has been made or none.

`upload_fidelity` and `exactly_once_create` read their statements off that
invariant.
-/
import GDrive.Write.Calls

namespace GDrive

open Interaction

-- ============================================================= the whole system

/-- An operation on a handle, its client's calls run over the wire. -/
def handleOnWire (pj : Picojson) (depth : Nat) (op : HandleOp) :
    Code Wire Exn (Option WriteHandle) Unit :=
  (handleOp pj op).handle (client pj depth)

def HandleOp.isWrite : HandleOp → Bool
  | .write _ => true
  | _ => false

/-- The concatenation of the `Write` buffers of a sequence of operations, up
to the first that closes, cancels or destroys the handle. -/
def written : List HandleOp → Str
  | .write data :: ops => data ++ written ops
  | _ => []

/-- Drive before a handle is opened, some ids in use. -/
def Drive.idle (existing : Str → Prop) : Drive := { existing }

theorem written_concat_write {ops : List HandleOp} (h : ops.all HandleOp.isWrite = true)
    (data : Str) : written (ops ++ [.write data]) = written ops ++ data := by
  induction ops with
  | nil => simp [written]
  | cons op ops ih =>
      rw [List.all_cons, Bool.and_eq_true] at h
      cases op with
      | write data' =>
          show data' ++ written (ops ++ [.write data]) = data' ++ written ops ++ data
          rw [ih h.2, List.append_assoc]
      | _ => cases h.1

/-- Any other operation adds nothing, and neither does anything after it. -/
theorem written_concat {ops : List HandleOp} {op : HandleOp}
    (h : ops.all HandleOp.isWrite = false ∨ op.isWrite = false) :
    written (ops ++ [op]) = written ops := by
  induction ops with
  | nil =>
      rcases h with h | h
      · cases h
      · cases op with
        | write data => cases h
        | _ => rfl
  | cons op' ops ih =>
      cases op' with
      | write data =>
          show data ++ written (ops ++ [op]) = data ++ written ops
          rw [ih (by simpa [HandleOp.isWrite] using h)]
      | _ => rfl

namespace Fidelity

-- =================================================================== the buffer

/-- The buffer is the end of the bytes written so far. -/
def Buffered (sofar : Str) (buf : ChunkedUploadBuffer) : Prop :=
  ∃ sent, sofar = sent ++ buf.pending ∧ sent.length = buf.offset ∧
    (buf.sentAny = false → sent = [])

variable {sofar full : Str} {buf : ChunkedUploadBuffer}

theorem Buffered.new (chunkBytes : Nat) : Buffered [] (.new chunkBytes) :=
  ⟨[], rfl, rfl, fun _ => rfl⟩

theorem Buffered.fill (h : Buffered sofar buf) (data : Str) :
    Buffered (sofar ++ data.take (buf.room data.length)) (buf.fill data) := by
  obtain ⟨sent, rfl, hlen, hfirst⟩ := h
  exact ⟨sent, List.append_assoc _ _ _, hlen, hfirst⟩

theorem Buffered.markChunkSent (h : Buffered sofar buf) : Buffered sofar buf.markChunkSent := by
  obtain ⟨sent, rfl, hlen, -⟩ := h
  refine ⟨sent ++ buf.pending, (List.append_nil _).symm, ?_, fun hno => by cases hno⟩
  rw [List.length_append, hlen]
  rfl

theorem Buffered.slice (h : Buffered sofar buf) (hfull : sofar <+: full) : Slice full buf := by
  obtain ⟨sent, rfl, hlen, -⟩ := h
  obtain ⟨rest, rfl⟩ := hfull
  rw [Slice, List.append_assoc, ← hlen, List.drop_left]
  exact List.prefix_append _ _

theorem Buffered.total (h : Buffered full buf) : buf.total = full.length := by
  obtain ⟨sent, rfl, hlen, -⟩ := h
  rw [List.length_append, hlen]
  rfl

/-- Before anything was sent the buffer is everything. -/
theorem Buffered.pending (h : Buffered full buf) (hfirst : buf.sentAny = false) :
    buf.pending = full := by
  obtain ⟨sent, rfl, -, hsent⟩ := h
  rw [hsent hfirst]
  rfl

-- ================================================================== the handle

/-- The client, over the wire, against Drive during an upload of `full`. -/
def env (pj : Picojson) (depth : Nat) (fileId full : Str) : Env Client Drive :=
  (driveEnv pj fileId full).through (client pj depth)

/-- Nothing attempted yet. -/
structure Unpublished (fileId full : Str) (w : Drive) : Prop where
  inv : UploadInv fileId full none w
  creates : w.creates = []

variable {pj : Picojson} {depth : Nat} {fileId : Str} {w w' : Drive} {h : WriteHandle}

theorem Unpublished.creates_ok (hw : Unpublished fileId full w) : CreatesOk pj w.creates := by
  rw [hw.creates]
  exact .nil

theorem Unpublished.during (hw : Unpublished fileId full w) : DuringUpload pj fileId full w :=
  ⟨⟨none, hw.inv⟩, hw.creates_ok⟩

theorem Unpublished.applied (hw : Unpublished fileId full w)
    (ha : Applied fileId full none w w') : Unpublished fileId full w' :=
  ⟨ha.inv, ha.creates.trans hw.creates⟩

theorem Unpublished.mono (hw : Unpublished fileId sofar w) (hfull : sofar <+: full) :
    Unpublished fileId full w :=
  ⟨hw.inv.mono hfull, hw.creates⟩

/-- What sending leaves alone. -/
def SameHandle (h h' : WriteHandle) : Prop :=
  h'.file = h.file ∧ h'.isWrite = h.isWrite ∧ h'.writeFailed = h.writeFailed

theorem wp_openSession (hw : Unpublished fileId full w) (hfile : h.file.id = fileId) :
    Code.wp (env pj depth fileId full) openSession
      (fun _ h' w' => Unpublished fileId full w' ∧ ∃ uri, h' = { h with uploadSession := uri })
      h w := by
  unfold openSession
  rw [Code.wp_bind, Code.wp_get, Code.outcome_ok, Code.wp_when]
  constructor
  · intro _
    rw [Code.wp_bind, wp_call, hfile]
    refine Env.wp_mono (wp_startResumableUpload depth _ _ _ hw.inv hw.creates_ok) ?_
    intro r w' ha
    have hw' := hw.applied ha
    cases r with
    | error e => exact ⟨hw', _, rfl⟩
    | ok start =>
        rw [Code.outcome_ok, Code.wp_bind, Code.wp_when]
        constructor
        · exact fun _ => ⟨hw', _, rfl⟩
        · exact fun _ => ⟨hw', _, rfl⟩
  · exact fun _ => ⟨hw, _, rfl⟩

/-- A chunk goes up; the buffer is still the end of what was written. -/
theorem wp_sendUploadChunk (hw : Unpublished fileId full w) (hfile : h.file.id = fileId)
    (hbuf : Buffered sofar buf) (hfull : sofar <+: full) :
    Code.wp (env pj depth fileId full) (sendUploadChunk buf)
      (Code.outcome
        (fun _ h' w' => Unpublished fileId full w' ∧
          ∃ uri, h' = { h with uploadSession := uri, upload := some buf.markChunkSent })
        fun _ h' w' => Unpublished fileId full w' ∧ SameHandle h h') h w := by
  unfold sendUploadChunk
  rw [Code.wp_bind]
  refine Code.wp_mono (wp_openSession hw hfile) ?_
  rintro r h₁ w₁ ⟨hw₁, uri, rfl⟩
  cases r with
  | error e => exact ⟨hw₁, rfl, rfl, rfl⟩
  | ok _ =>
      rw [Code.outcome_ok, Code.wp_bind, Code.wp_get, Code.outcome_ok, Code.wp_bind, wp_call]
      refine Env.wp_mono (wp_uploadChunk depth uri (hbuf.slice hfull) (fun hf => by cases hf)
        hw₁.inv hw₁.creates_ok) ?_
      intro r w₂ ha
      have hw₂ := hw₁.applied ha.1
      cases r with
      | error e => exact ⟨hw₂, rfl, rfl, rfl⟩
      | ok resp =>
          rw [Code.outcome_ok, Code.wp_bind, Code.wp_when]
          exact ⟨fun _ => ⟨hw₂, rfl, rfl, rfl⟩, fun _ => ⟨hw₂, _, rfl⟩⟩

/-- Cancelling publishes nothing. -/
theorem wp_abortUpload {target : Option Target} (hw : UploadInv fileId full target w)
    (hc : CreatesOk pj w.creates) :
    Code.wp (env pj depth fileId full) abortUpload
      (fun r h' w' => Applied fileId full target w w' ∧ r = .ok () ∧
        h' = { h with uploadSession := [] }) h w := by
  unfold abortUpload
  rw [Code.wp_bind, Code.wp_get, Code.outcome_ok, Code.wp_when]
  constructor
  · intro _
    rw [Code.wp_bind, Code.wp_modify, Code.outcome_ok, Code.wp_tryCatch, Code.wp_bind, wp_call]
    refine Env.wp_mono (wp_cancelUpload depth _ hw hc) ?_
    intro r w' ha
    cases r with
    | ok resp => exact ⟨ha, rfl, rfl⟩
    | error e => exact ⟨ha, rfl, rfl⟩
  · intro hempty
    have hnil : h.uploadSession = [] := by simpa using hempty
    refine ⟨.refl hw, rfl, ?_⟩
    cases h
    cases hnil
    rfl

theorem wp_failWrite {target : Option Target} (hw : UploadInv fileId full target w)
    (hc : CreatesOk pj w.creates) :
    Code.wp (env pj depth fileId full) failWrite
      (fun r h' w' => Applied fileId full target w w' ∧ r = .ok () ∧
        h' = { h with uploadSession := [], writeFailed := true }) h w := by
  unfold failWrite
  rw [Code.wp_bind, Code.wp_modify, Code.outcome_ok]
  exact wp_abortUpload hw hc

-- ==================================================================== `Write`

theorem wp_makeRoom (hw : Unpublished fileId full w) (hfile : h.file.id = fileId)
    (hupload : h.upload = some buf) (hbuf : Buffered sofar buf) (hfull : sofar <+: full) :
    Code.wp (env pj depth fileId full) makeRoom
      (fun r h' w' => Unpublished fileId full w' ∧ SameHandle h h' ∧ (r = .ok () →
        ∃ buf', h'.upload = some buf' ∧ Buffered sofar buf' ∧ buf'.full = false)) h w := by
  unfold makeRoom
  rw [Code.wp_bind, Code.wp_get, Code.outcome_ok, hupload]
  simp only
  rw [Code.wp_when]
  constructor
  · intro _
    refine Code.wp_mono (wp_sendUploadChunk hw hfile hbuf hfull) ?_
    rintro r h' w' hr
    cases r with
    | error e => exact ⟨hr.1, hr.2, nofun⟩
    | ok _ =>
        obtain ⟨hw', uri, rfl⟩ := hr
        exact ⟨hw', ⟨rfl, rfl, rfl⟩, fun _ => ⟨_, rfl, hbuf.markChunkSent,
          ChunkedUploadBuffer.full_of_pending_nil rfl⟩⟩
  · exact fun hroom => ⟨hw, ⟨rfl, rfl, rfl⟩, fun _ => ⟨buf, hupload, hbuf, hroom⟩⟩

/-- The rounds of `Write`, with `data` still to go: every round moves the
boundary between what is buffered and what is left, and nothing else. -/
theorem wp_writeLoop (rounds : Nat) :
    ∀ {data sofar : Str} {h : WriteHandle} {w : Drive} {buf : ChunkedUploadBuffer},
      sofar ++ data = full → Unpublished fileId full w → h.file.id = fileId →
      h.upload = some buf → Buffered sofar buf →
      Code.wp (env pj depth fileId full) (writeLoop rounds data)
        (fun r h' w' => Unpublished fileId full w' ∧ SameHandle h h' ∧ (r = .ok () →
          ∃ buf', h'.upload = some buf' ∧ Buffered full buf')) h w := by
  induction rounds with
  | zero =>
      intro data sofar h w buf hsofar hw _ hupload hbuf
      cases data with
      | nil =>
          rw [List.append_nil] at hsofar
          rw [hsofar] at hbuf
          exact ⟨hw, ⟨rfl, rfl, rfl⟩, fun _ => ⟨buf, hupload, hbuf⟩⟩
      | cons c data => exact hw.during
  | succ rounds ih =>
      intro data sofar h w buf hsofar hw hfile hupload hbuf
      cases data with
      | nil =>
          rw [List.append_nil] at hsofar
          rw [hsofar] at hbuf
          exact ⟨hw, ⟨rfl, rfl, rfl⟩, fun _ => ⟨buf, hupload, hbuf⟩⟩
      | cons c data =>
          have hfull : sofar <+: full := ⟨c :: data, hsofar⟩
          rw [writeLoop, Code.wp_bind]
          refine Code.wp_mono (wp_makeRoom hw hfile hupload hbuf hfull) ?_
          rintro r h₁ w₁ ⟨hw₁, hsame, hr⟩
          cases r with
          | error e => exact ⟨hw₁, hsame, nofun⟩
          | ok _ =>
              obtain ⟨buf₁, hupload₁, hbuf₁, -⟩ := hr rfl
              unfold fillBuffer
              rw [Code.outcome_ok, Code.wp_bind, Code.wp_bind, Code.wp_get, Code.outcome_ok,
                hupload₁]
              simp only
              rw [Code.wp_bind, Code.wp_modify, Code.outcome_ok, Code.wp_pure, Code.outcome_ok]
              have hfile₁ : h₁.file.id = fileId := by rw [hsame.1, hfile]
              have hsplit : (sofar ++ (c :: data).take (buf₁.room (c :: data).length)) ++
                  (c :: data).drop (buf₁.room (c :: data).length) = full := by
                rw [List.append_assoc, List.take_append_drop, hsofar]
              refine Code.wp_mono (ih hsplit hw₁ hfile₁ rfl (hbuf₁.fill _)) ?_
              rintro r h₂ w₂ ⟨hw₂, hsame₂, hr₂⟩
              refine ⟨hw₂, ⟨?_, ?_, ?_⟩, hr₂⟩
              · exact hsame₂.1.trans hsame.1
              · exact hsame₂.2.1.trans hsame.2.1
              · exact hsame₂.2.2.trans hsame.2.2

/-- A handle that is still writing, with everything buffered or sent. -/
structure Writing (fileId sofar : Str) (h : WriteHandle) (w : Drive) : Prop where
  isWrite : h.isWrite = true
  good : h.writeFailed = false
  file : h.file.id = fileId
  buffer : ∃ buf, h.upload = some buf ∧ Buffered sofar buf
  drive : Unpublished fileId sofar w

/-- `Write` on such a handle; when it throws the handle has failed. -/
theorem wp_write {data : Str} (hI : Writing fileId sofar h w) :
    Code.wp (env pj depth fileId (sofar ++ data)) (write data)
      (Code.outcome (fun _ h' w' => Writing fileId (sofar ++ data) h' w')
        fun _ h' w' => h'.writeFailed = true ∧ Unpublished fileId (sofar ++ data) w') h w := by
  obtain ⟨buf, hupload, hbuf⟩ := hI.buffer
  have hw : Unpublished fileId (sofar ++ data) w := hI.drive.mono (List.prefix_append _ _)
  unfold write
  rw [Code.wp_bind, Code.wp_get, Code.outcome_ok, hI.isWrite, hI.good, hupload]
  rw [if_neg (by simp), if_neg (by simp), Code.wp_bind, Code.wp_onError]
  refine Code.wp_mono (wp_writeLoop data.length rfl hw hI.file hupload hbuf) ?_
  rintro r h₁ w₁ ⟨hw₁, hsame, hr⟩
  cases r with
  | error e =>
      rw [Code.outcome_error]
      refine Code.wp_mono (wp_failWrite hw₁.inv hw₁.creates_ok) ?_
      rintro r h₂ w₂ ⟨ha, rfl, rfl⟩
      exact ⟨rfl, hw₁.applied ha⟩
  | ok _ =>
      obtain ⟨buf₁, hupload₁, hbuf₁⟩ := hr rfl
      refine ⟨?_, ?_, ?_, ⟨buf₁, hupload₁, hbuf₁⟩, hw₁⟩
      · exact hsame.2.1.trans hI.isWrite
      · exact hsame.2.2.trans hI.good
      · show h₁.file.id = fileId
        rw [hsame.1, hI.file]

/-- `Write` on any other handle throws, and changes nothing. -/
theorem wp_write_refused {E : Env Client Drive} {data : Str}
    (hI : h.isWrite = false ∨ h.writeFailed = true) :
    Code.wp E (write data)
      (Code.outcome (fun _ _ _ => False) fun _ h' w' => h' = h ∧ w' = w) h w := by
  unfold write
  rw [Code.wp_bind, Code.wp_get, Code.outcome_ok]
  split
  · exact ⟨rfl, rfl⟩
  · rename_i hopen
    have hfailed : h.writeFailed = true := by
      rcases hI with hI | hI
      · exact absurd (.inl hI) hopen
      · exact hI
    rw [if_pos hfailed]
    exact ⟨rfl, rfl⟩

-- ==================================================================== `Close`

theorem wp_publishFinalChunk (hw : Unpublished fileId full w) (hbuf : Buffered full buf) :
    Code.wp (env pj depth fileId full) (publishFinalChunk buf)
      (fun r h' w' => DuringUpload pj fileId full w' ∧ h'.isWrite = h.isWrite ∧
        ∀ resp, r = .ok resp → w'.published ≠ []) h w := by
  -- Without a usable URI nothing is sent, so any target will do.
  have htarget : ∃ t, t ≠ Target.overwrite ∧
      ∀ path, driveSessionPath h.uploadSession = some path → some t = some (.session path) := by
    cases driveSessionPath h.uploadSession with
    | none => exact ⟨.single, by simp, nofun⟩
    | some path =>
        refine ⟨.session path, by simp, ?_⟩
        intro path' hp
        cases hp
        rfl
  obtain ⟨t, hne, ht⟩ := htarget
  have hinv := hw.inv.aim t fun heq => absurd heq hne
  unfold publishFinalChunk
  rw [Code.wp_bind, Code.wp_get, Code.outcome_ok, Code.wp_bind, wp_call]
  refine Env.wp_mono (wp_uploadChunk depth h.uploadSession
    (hbuf.slice (List.prefix_refl full)) (fun _ => ⟨hbuf.total, ht⟩) hinv hw.creates_ok) ?_
  rintro r w' ⟨ha, hpub⟩
  have hd : DuringUpload pj fileId full w' := ha.during hw.creates_ok
  cases r with
  | error e => exact ⟨hd, rfl, nofun⟩
  | ok resp =>
      rw [Code.outcome_ok, Code.wp_bind, Code.wp_when]
      constructor
      · exact fun _ => ⟨hd, rfl, nofun⟩
      · intro hgood
        exact ⟨hd, rfl, fun _ _ => hpub resp rfl rfl (by simpa using hgood)⟩

/-- A reserved id is not in use. -/
theorem wp_reserveId (hw : Unpublished fileId full w) (hfile : h.file.id = fileId) :
    Code.wp (env pj depth fileId full) (reserveId pj)
      (fun r h' w' => Unpublished fileId full w' ∧ h' = h ∧ ∀ id, r = .ok id →
        fileId = [] → id ≠ [] → ¬w'.existing id) h w := by
  unfold reserveId
  rw [Code.wp_bind, Code.wp_get, Code.outcome_ok, hfile]
  split
  · rw [Code.wp_bind, wp_call]
    refine Env.wp_mono (wp_generateIds depth hw.inv hw.creates_ok) ?_
    rintro r w' ⟨ha, hunused⟩
    have hw' := hw.applied ha
    cases r with
    | error e => exact ⟨hw', rfl, nofun⟩
    | ok idResp =>
        refine ⟨hw', rfl, ?_⟩
        intro id hid _ hne
        cases hid
        by_cases hok : idResp.ok = true
        · rw [if_pos hok] at hne ⊢
          cases hparse : parseGeneratedFileId pj idResp.body with
          | none =>
              rw [hparse] at hne
              exact absurd rfl hne
          | some id => exact hunused idResp rfl hok id hparse
        · rw [if_neg hok] at hne
          exact absurd rfl hne
  · rename_i hne
    refine ⟨hw, rfl, ?_⟩
    intro id _ hnil _
    rw [hnil] at hne
    exact absurd rfl hne

theorem wp_publishSingleRequest (hw : Unpublished fileId full w) (hfile : h.file.id = fileId)
    (hpending : buf.pending = full) :
    Code.wp (env pj depth fileId full) (publishSingleRequest pj buf)
      (fun r h' w' => DuringUpload pj fileId full w' ∧ h'.isWrite = h.isWrite ∧
        ∀ resp, r = .ok resp → w'.published ≠ []) h w := by
  unfold publishSingleRequest
  rw [Code.wp_bind]
  refine Code.wp_mono (wp_reserveId hw hfile) ?_
  rintro r h' w₁ ⟨hw₁, rfl, hid⟩
  cases r with
  | error e => exact ⟨hw₁.during, rfl, nofun⟩
  | ok reservedId =>
      rw [Code.outcome_ok, Code.wp_bind, Code.wp_get, Code.outcome_ok, Code.wp_bind, wp_call,
        hpending, hfile]
      refine Env.wp_mono (wp_upload depth _ _ (hid reservedId rfl) hw₁.inv hw₁.creates) ?_
      rintro r w₂ ⟨hd, hpub⟩
      cases r with
      | error e => exact ⟨hd, rfl, nofun⟩
      | ok resp =>
          rw [Code.outcome_ok, Code.wp_bind, Code.wp_when]
          constructor
          · exact fun _ => ⟨hd, rfl, nofun⟩
          · intro hgood
            exact ⟨hd, rfl, fun _ _ => hpub resp rfl (by simpa using hgood)⟩

theorem wp_uploadHandleContents (hw : Unpublished fileId full w) (hfile : h.file.id = fileId)
    (hgood : h.writeFailed = false) (hupload : h.upload = some buf)
    (hbuf : Buffered full buf) :
    Code.wp (env pj depth fileId full) (uploadHandleContents pj)
      (fun r h' w' => DuringUpload pj fileId full w' ∧ h'.isWrite = h.isWrite ∧
        (r = .ok () → w'.published ≠ [])) h w := by
  have hpublish : Code.wp (env pj depth fileId full) (publish pj buf)
      (fun r h' w' => DuringUpload pj fileId full w' ∧ h'.isWrite = h.isWrite ∧
        ∀ resp, r = .ok resp → w'.published ≠ []) h w := by
    unfold publish ChunkedUploadBuffer.onClose
    cases hsent : buf.sentAny with
    | true => exact wp_publishFinalChunk hw hbuf
    | false => exact wp_publishSingleRequest hw hfile (hbuf.pending hsent)
  unfold uploadHandleContents
  rw [Code.wp_bind, Code.wp_get, Code.outcome_ok, hgood, hupload]
  simp only
  rw [Code.wp_bind]
  refine Code.wp_mono hpublish ?_
  rintro r h' w' ⟨hd, hsame, hpub⟩
  cases r with
  | error e => exact ⟨hd, hsame, nofun⟩
  | ok resp =>
      rw [Code.outcome_ok]
      split
      · exact ⟨hd, hsame, fun _ => hpub resp rfl⟩
      · exact ⟨hd, hsame, fun _ => hpub resp rfl⟩

/-- What is left of a handle whose upload is over or was given up. -/
structure Shut (pj : Picojson) (fileId full : Str) (h : WriteHandle) (w : Drive) : Prop where
  closed : h.isWrite = false
  drive : DuringUpload pj fileId full w

/-- Aborting in any state of Drive. -/
theorem wp_abort (hw : DuringUpload pj fileId full w) :
    Code.wp (env pj depth fileId full) abortUpload
      (fun r h' w' => DuringUpload pj fileId full w' ∧ r = .ok () ∧
        h' = { h with uploadSession := [] }) h w := by
  obtain ⟨⟨target, hinv⟩, hc⟩ := hw
  refine Code.wp_mono (wp_abortUpload hinv hc) ?_
  rintro r h' w' ⟨ha, hr⟩
  exact ⟨ha.during hc, hr⟩

/-- `Close` of a handle that is writing: when it returns the file is
published. -/
theorem wp_close (hI : Writing fileId full h w) :
    Code.wp (env pj depth fileId full) (close pj)
      (fun r h' w' => Shut pj fileId full h' w' ∧ (r = .ok () → w'.published ≠ [])) h w := by
  obtain ⟨buf, hupload, hbuf⟩ := hI.buffer
  unfold close
  rw [Code.wp_bind, Code.wp_get, Code.outcome_ok, hI.isWrite, hI.good, Code.wp_when]
  refine ⟨fun _ => ?_, nofun⟩
  rw [Code.wp_bind, Code.wp_modify, Code.outcome_ok, if_neg (by simp), Code.wp_bind,
    Code.wp_onError]
  refine Code.wp_mono (wp_uploadHandleContents hI.drive hI.file hI.good hupload hbuf) ?_
  rintro r h₁ w₁ ⟨hd, hclosed, hpub⟩
  cases r with
  | error e =>
      rw [Code.outcome_error]
      unfold failWrite
      rw [Code.wp_bind, Code.wp_modify, Code.outcome_ok]
      refine Code.wp_mono (wp_abort hd) ?_
      rintro r h₂ w₂ ⟨hd₂, rfl, rfl⟩
      exact ⟨⟨hclosed, hd₂⟩, nofun⟩
  | ok _ => exact ⟨⟨hclosed, hd⟩, fun _ => hpub rfl⟩

/-- `Close` of a handle that has failed or is closed publishes nothing. -/
theorem wp_close_idle (hI : h.isWrite = false ∨ h.writeFailed = true)
    (hw : DuringUpload pj fileId full w) :
    Code.wp (env pj depth fileId full) (close pj) (fun _ => Shut pj fileId full) h w := by
  unfold close
  rw [Code.wp_bind, Code.wp_get, Code.outcome_ok, Code.wp_when]
  constructor
  · intro hwrite
    have hfailed : h.writeFailed = true := by
      rcases hI with hI | hI
      · rw [hI] at hwrite
        cases hwrite
      · exact hI
    rw [Code.wp_bind, Code.wp_modify, Code.outcome_ok, if_pos hfailed]
    refine Code.wp_mono (wp_abort hw) ?_
    rintro r h' w' ⟨hd, -, rfl⟩
    exact ⟨rfl, hd⟩
  · exact fun hclosed => ⟨hclosed, hw⟩

theorem wp_cancelWrite (hw : DuringUpload pj fileId full w) :
    Code.wp (env pj depth fileId full) cancelWrite (fun _ => Shut pj fileId full) h w := by
  unfold cancelWrite
  rw [Code.wp_bind, Code.wp_get, Code.outcome_ok, Code.wp_when]
  constructor
  · intro _
    rw [Code.wp_bind, Code.wp_modify, Code.outcome_ok, Code.wp_bind]
    refine Code.wp_mono (wp_abort hw) ?_
    rintro r h' w' ⟨hd, rfl, rfl⟩
    exact ⟨rfl, hd⟩
  · exact fun hclosed => ⟨hclosed, hw⟩

-- =============================================================== every history

/-- A handle and Drive after the operations `l`. -/
inductive Stage (pj : Picojson) (fileId : Str) (l : List (HandleOp × Except Exn Unit)) :
    Option WriteHandle → Drive → Prop
  | writing {h : WriteHandle} {w : Drive} :
      (l.map Prod.fst).all HandleOp.isWrite = true →
      Writing fileId (written (l.map Prod.fst)) h w → Stage pj fileId l (some h) w
  /-- Some `Write` has thrown. -/
  | broken {h : WriteHandle} {w : Drive} :
      (l.map Prod.fst).all HandleOp.isWrite = true → (∃ x ∈ l, x.2 ≠ .ok ()) →
      h.writeFailed = true → Unpublished fileId (written (l.map Prod.fst)) w →
      Stage pj fileId l (some h) w
  | shut {s : Option WriteHandle} {w : Drive} :
      (l.map Prod.fst).all HandleOp.isWrite = false →
      (∀ h, s = some h → h.isWrite = false) →
      DuringUpload pj fileId (written (l.map Prod.fst)) w → Stage pj fileId l s w

theorem Stage.during {l : List (HandleOp × Except Exn Unit)} {s : Option WriteHandle}
    (hs : Stage pj fileId l s w) : DuringUpload pj fileId (written (l.map Prod.fst)) w := by
  cases hs with
  | writing _ hI => exact hI.drive.during
  | broken _ _ _ hw => exact hw.during
  | shut _ _ hw => exact hw

private theorem all_concat (l : List (HandleOp × Except Exn Unit)) (op : HandleOp)
    (r : Except Exn Unit) :
    ((l ++ [(op, r)]).map Prod.fst).all HandleOp.isWrite =
      ((l.map Prod.fst).all HandleOp.isWrite && op.isWrite) := by
  simp

private theorem map_concat (l : List (HandleOp × Except Exn Unit)) (op : HandleOp)
    (r : Except Exn Unit) : (l ++ [(op, r)]).map Prod.fst = l.map Prod.fst ++ [op] := by
  simp

/-- A handle that is shut stays so. -/
private theorem Stage.of_shut {l : List (HandleOp × Except Exn Unit)} {op : HandleOp}
    {r : Except Exn Unit} {s : Option WriteHandle}
    (hl : (l.map Prod.fst).all HandleOp.isWrite = false ∨ op.isWrite = false)
    (hs : ∀ h, s = some h → h.isWrite = false)
    (hw : DuringUpload pj fileId (written (l.map Prod.fst)) w) :
    Stage pj fileId (l ++ [(op, r)]) s w := by
  refine .shut ?_ hs ?_
  · rw [all_concat]
    rcases hl with hl | hl <;> simp [hl]
  · rw [map_concat, written_concat hl]
    exact hw

/-- `Write`, in every stage. -/
private theorem wp_stage_write {l : List (HandleOp × Except Exn Unit)} {s : Option WriteHandle}
    (data : Str) (hs : Stage pj fileId l s w) :
    Code.wp (env pj depth fileId (written (l.map Prod.fst ++ [.write data])))
      (handleOp pj (.write data)) (fun r s' w' => Stage pj fileId (l ++ [(.write data, r)]) s' w')
      s w := by
  cases hs with
  | writing hl hI =>
      refine (wp_onHandle _).mpr ?_
      rw [written_concat_write hl]
      refine Code.wp_mono (wp_write hI) ?_
      intro r h' w' hr
      have hl' : ((l ++ [(HandleOp.write data, r)]).map Prod.fst).all HandleOp.isWrite = true := by
        rw [all_concat, hl]
        rfl
      have hwritten : written ((l ++ [(HandleOp.write data, r)]).map Prod.fst) =
          written (l.map Prod.fst) ++ data := by
        rw [map_concat, written_concat_write hl]
      cases r with
      | ok _ =>
          refine .writing hl' ?_
          rw [hwritten]
          exact hr
      | error e =>
          refine .broken hl' ⟨_, List.mem_append_right _ List.mem_cons_self, nofun⟩ hr.1 ?_
          rw [hwritten]
          exact hr.2
  | broken hl hbad hfailed hw =>
      refine (wp_onHandle _).mpr (Code.wp_mono (wp_write_refused (.inr hfailed)) ?_)
      intro r h' w' hr
      cases r with
      | ok _ => exact hr.elim
      | error e =>
          obtain ⟨rfl, rfl⟩ := hr
          obtain ⟨x, hx, hne⟩ := hbad
          refine .broken ?_ ⟨x, List.mem_append_left _ hx, hne⟩ hfailed ?_
          · rw [all_concat, hl]
            rfl
          · rw [map_concat, written_concat_write hl]
            exact hw.mono (List.prefix_append _ _)
  | shut hl hclosed hw =>
      cases s with
      | none => exact .of_shut (.inl hl) hclosed hw
      | some h =>
          refine (wp_onHandle _).mpr (Code.wp_mono (wp_write_refused (.inl (hclosed h rfl))) ?_)
          intro r h' w' hr
          cases r with
          | ok _ => exact hr.elim
          | error e =>
              obtain ⟨rfl, rfl⟩ := hr
              exact .of_shut (.inl hl) hclosed hw

/-- One operation, in every stage. -/
theorem wp_stage (l : List (HandleOp × Except Exn Unit)) (op : HandleOp)
    (s : Option WriteHandle) (w : Drive) (hs : Stage pj fileId l s w) :
    Code.wp (env pj depth fileId (written (l.map Prod.fst ++ [op]))) (handleOp pj op)
      (fun r s' w' => Stage pj fileId (l ++ [(op, r)]) s' w') s w := by
  have hstop : ∀ {op : HandleOp} {r : Except Exn Unit} {h' : WriteHandle} {w' : Drive},
      op.isWrite = false → Shut pj fileId (written (l.map Prod.fst)) h' w' →
      Stage pj fileId (l ++ [(op, r)]) (some h') w' := by
    intro op r h' w' hop hshut
    refine .of_shut (.inr hop) ?_ hshut.drive
    intro h'' heq
    cases heq
    exact hshut.closed
  have hd := hs.during
  cases s with
  | none =>
      cases hs with
      | shut hl hclosed hw =>
          cases op with
          | write data => exact .of_shut (.inl hl) hclosed hw
          | close => exact .of_shut (.inl hl) hclosed hw
          | cancelWrite => exact .of_shut (.inl hl) hclosed hw
          | destroy => exact .of_shut (.inl hl) hclosed hw
  | some h =>
      cases op with
      | write data => exact wp_stage_write data hs
      | close =>
          refine (wp_onHandle _).mpr ?_
          rw [written_concat (.inr rfl)]
          cases hs with
          | writing _ hI => exact Code.wp_mono (wp_close hI) fun _ _ _ hr => hstop rfl hr.1
          | broken _ _ hfailed hw =>
              exact Code.wp_mono (wp_close_idle (.inr hfailed) hd) fun _ _ _ hr => hstop rfl hr
          | shut _ hclosed hw =>
              exact Code.wp_mono (wp_close_idle (.inl (hclosed h rfl)) hd)
                fun _ _ _ hr => hstop rfl hr
      | cancelWrite =>
          refine (wp_onHandle _).mpr ?_
          rw [written_concat (.inr rfl)]
          exact Code.wp_mono (wp_cancelWrite hd) fun _ _ _ hr => hstop rfl hr
      | destroy =>
          unfold handleOp destroyHandle
          rw [written_concat (.inr rfl), Code.wp_bind, wp_onHandle]
          refine Code.wp_mono (wp_abort hd) ?_
          rintro r h' w' ⟨hd', rfl, rfl⟩
          exact .of_shut (.inr rfl) nofun hd'

theorem wp_handleOnWire (l : List (HandleOp × Except Exn Unit)) (op : HandleOp)
    (s : Option WriteHandle) (w : Drive) (hs : Stage pj fileId l s w) :
    (handleOnWire pj depth op).wp
      (.ofRel (driveRel pj) (DuringUpload pj fileId (written (l.map Prod.fst ++ [op]))))
      (fun r s' w' => Stage pj fileId (l ++ [(op, r)]) s' w') s w :=
  (Code.wp_handle _ _ _).mpr (wp_stage l op s w hs)

/-- A handle just opened, on an idle Drive. -/
theorem stage_openForWriting (path parentId name : Str) (placeholder : DriveFileMeta)
    (chunkBytes : Nat) (existing : Str → Prop) :
    Stage pj placeholder.id []
      (some (openForWriting path placeholder parentId name chunkBytes)) (.idle existing) := by
  refine .writing rfl ⟨rfl, rfl, rfl, ⟨_, rfl, .new chunkBytes⟩, ⟨?_, rfl⟩⟩
  exact ⟨nofun, nofun, nofun, nofun, nofun, nofun, rfl⟩

/-- Late requests applied when nothing is asked any more. -/
theorem during_lates (hw : DuringUpload pj fileId full w) (hl : Lates w w') :
    DuringUpload pj fileId full w' ∧ (w.published ≠ [] → w'.published ≠ []) := by
  obtain ⟨⟨target, hinv⟩, hc⟩ := hw
  have ha := hinv.lates hl
  exact ⟨ha.during hc, ha.published⟩

end Fidelity

-- ================================================================= the theorems

/-- A run of a handle from its opening on an otherwise idle Drive: the
operations with their outcomes, the handle and Drive they lead to. -/
abbrev HandleRun (pj : Picojson) (depth : Nat) (opened : WriteHandle) (existing : Str → Prop)
    (l : List (HandleOp × Except Exn Unit)) (s : Option WriteHandle) (w : Drive) : Prop :=
  History (driveRel pj) (handleOnWire pj depth) (some opened) (.idle existing) l s w

section Runs

variable {pj : Picojson} {depth chunkBytes : Nat} {path parentId name : Str}
  {placeholder : DriveFileMeta} {existing : Str → Prop}
  {l : List (HandleOp × Except Exn Unit)} {s : Option WriteHandle} {w : Drive}

theorem HandleRun.stage
    (h : HandleRun pj depth (openForWriting path placeholder parentId name chunkBytes) existing
      l s w) : Fidelity.Stage pj placeholder.id l s w :=
  h.inv_log (I := Fidelity.Stage pj placeholder.id) Fidelity.wp_handleOnWire
    (Fidelity.stage_openForWriting path parentId name placeholder chunkBytes existing)

/-- Drive at every moment of a run, the operation under way included. -/
theorem HandleRun.moment
    (h : HandleRun pj depth (openForWriting path placeholder parentId name chunkBytes) existing
      l s w) {op : HandleOp} {p : Prog Wire (Except Exn Unit × Option WriteHandle)}
    {w₁ w' : Drive} (hr : Reaches (driveRel pj) (handleOnWire pj depth op s) w p w₁)
    (hl : Lates w₁ w') :
    DuringUpload pj placeholder.id (written (l.map Prod.fst ++ [op])) w' := by
  have hw₁ : DuringUpload pj placeholder.id (written (l.map Prod.fst ++ [op])) w₁ := by
    refine Code.wp_always (Fidelity.wp_handleOnWire l op s w h.stage) ?_ hr
    intro r s' w'' hs
    have hd := hs.during
    rw [List.map_append] at hd
    exact hd
  exact (Fidelity.during_lates hw₁ hl).1

/-- After `Write`s none of which threw and a `Close` that returned, the file
is published. -/
theorem HandleRun.closed {writes : List (HandleOp × Except Exn Unit)}
    (h : HandleRun pj depth (openForWriting path placeholder parentId name chunkBytes) existing
      (writes ++ [(.close, .ok ())]) s w)
    (hwrites : ∀ x ∈ writes, x.1.isWrite = true ∧ x.2 = .ok ()) :
    DuringUpload pj placeholder.id (written (writes.map Prod.fst)) w ∧ w.published ≠ [] := by
  obtain ⟨s₁, w₁, h₁, hr⟩ := h.snoc_inv
  have hstage := HandleRun.stage h₁
  cases hstage with
  | shut hl _ _ =>
      rw [List.all_map, List.all_eq_false] at hl
      obtain ⟨x, hx, hno⟩ := hl
      exact absurd (hwrites x hx).1 hno
  | broken _ hbad _ _ =>
      obtain ⟨x, hx, hne⟩ := hbad
      exact absurd (hwrites x hx).2 hne
  | @writing h₀ _ _ hI =>
      have hclose : (handleOnWire pj depth .close).wp
          (.ofRel (driveRel pj) (DuringUpload pj placeholder.id (written (writes.map Prod.fst))))
          (fun r _ w' => DuringUpload pj placeholder.id (written (writes.map Prod.fst)) w' ∧
            (r = .ok () → w'.published ≠ [])) (some h₀) w₁ := by
        refine (Code.wp_handle _ _ _).mpr ((wp_onHandle _).mpr ?_)
        exact Code.wp_mono (Fidelity.wp_close hI) fun _ _ _ hr => ⟨hr.1.drive, hr.2⟩
      have hend := Code.wp_returns hclose hr
      exact ⟨hend.1, hend.2 rfl⟩

/-- Streaming-upload fidelity. At every moment of every run, late requests
included, what a session holds is a prefix of the bytes written, and what is
published is these bytes; and a `Close` that returns after `Write`s none of
which threw has published them. -/
theorem upload_fidelity
    (h : HandleRun pj depth (openForWriting path placeholder parentId name chunkBytes) existing
      l s w) :
    (∀ op p w₁ w', Reaches (driveRel pj) (handleOnWire pj depth op s) w p w₁ → Lates w₁ w' →
      (∀ path session, w'.sessions path = some session →
        session.held <+: written (l.map Prod.fst ++ [op])) ∧
      ∀ file ∈ w'.published, file.content = written (l.map Prod.fst ++ [op])) ∧
    ∀ writes, l = writes ++ [(.close, .ok ())] →
      (∀ x ∈ writes, x.1.isWrite = true ∧ x.2 = .ok ()) →
      ∃ file ∈ w.published, file.content = written (writes.map Prod.fst) := by
  constructor
  · intro op p w₁ w' hr hl
    obtain ⟨⟨target, hinv⟩, -⟩ := h.moment hr hl
    exact ⟨hinv.held, hinv.content⟩
  · rintro writes rfl hwrites
    obtain ⟨⟨⟨target, hinv⟩, -⟩, hpub⟩ := HandleRun.closed h hwrites
    obtain ⟨file, hfile⟩ := List.exists_mem_of_ne_nil _ hpub
    exact ⟨file, hfile, hinv.content file hfile⟩

end Runs

-- ==================================================================== examples

/-- A Drive that serves everything at once; no session is ever opened. -/
def promptly (w : Drive) : (q : WireReq) → Wire.Ans q × Drive
  | .token => (.ok (str "t"), w)
  | .refresh _ => (.ok (str "t"), w)
  | .sleep _ _ => ((), w)
  | .cancelSession _ => ((), w)
  | .session _ _ _ => (({} : RawResult), w)
  | .http _ (.createMultipart metadata _ data) =>
      if metadata.id.isNone && w.published.isEmpty then
        (({ transportOk := true, status := 200 } : RawResult),
          { w.publish ⟨true, str "n", data⟩ with
            creates := w.creates ++ [(metadata, { transportOk := true, status := 200 })] })
      else
        (({} : RawResult), { w with creates := w.creates ++ [(metadata, {})] })
  | .http _ (.updateMultipart _ _ _ _) => (({} : RawResult), w)
  | .http _ _ => (({ transportOk := true, status := 200 } : RawResult), w)

theorem promptly_driveRel (w : Drive) (q : WireReq) (hw : w.existing = fun _ => False) :
    driveRel noJson w q (promptly w q).1 (promptly w q).2 ∧
      (promptly w q).2.existing = fun _ => False := by
  have hlost : ∀ status, ¬RawResult.is {} status := fun _ h => by cases h.1
  cases q with
  | token => exact ⟨rfl, hw⟩
  | refresh rejected => exact ⟨rfl, hw⟩
  | sleep attempt seconds => exact ⟨rfl, hw⟩
  | cancelSession path => exact ⟨⟨w, .refl w, .inl rfl⟩, hw⟩
  | session path range data =>
      refine ⟨⟨w, .never, .refl w, rfl, ?_, ?_⟩, hw⟩
      · exact fun h => absurd h (hlost 308)
      · exact fun h => h.elim (fun h => absurd h (hlost 200)) fun h => absurd h (hlost 201)
  | http accessToken op =>
      cases op with
      | createMultipart metadata contentType data =>
          unfold promptly
          simp only
          split
          · rename_i hfirst
            rw [Bool.and_eq_true, Option.isNone_iff_eq_none, List.isEmpty_iff] at hfirst
            have hunused : ¬w.Used (str "n") := by
              rintro (hexisting | ⟨file, hfile, -⟩)
              · rw [hw] at hexisting
                exact hexisting
              · rw [hfirst.2] at hfile
                cases hfile
            refine ⟨⟨w, .refl w, .now, w.publish ⟨true, str "n", data⟩, ?_, rfl, fun _ => rfl,
              fun hno => absurd rfl hno.2.1, fun _ => ⟨nofun, ?_⟩⟩, hw⟩
            · exact .create (fun _ hid => by rw [hfirst.1] at hid; cases hid) hunused
            · rintro ⟨id, hid, -⟩
              rw [hfirst.1] at hid
              cases hid
          · exact ⟨⟨w, .refl w, .never, w, rfl, rfl, fun h => absurd h (hlost 200), fun _ => rfl,
              nofun⟩, hw⟩
      | updateMultipart fileId metadata contentType data =>
          exact ⟨⟨w, .refl w, .never, rfl, fun h => absurd h (hlost 200)⟩, hw⟩
      | startSession fileId metadata contentType =>
          exact ⟨⟨w, .refl w, .inl ⟨rfl, fun _ => rfl⟩⟩, hw⟩
      | generateIds => exact ⟨⟨w, .refl w, rfl, fun _ => nofun⟩, hw⟩
      | _ => exact ⟨⟨w, .refl w, rfl⟩, hw⟩

/-- One byte written and closed. -/
private def oneByte : List (HandleOp × Except Exn Unit) :=
  [(.write (str "x"), .ok ())] ++ [(.close, .ok ())]

private theorem oneByte_run : ∃ s w, HandleRun noJson 9
    (openForWriting (str "gdrive://f") {} (str "root") (str "f") 0) (fun _ => False)
    oneByte s w := by
  have hrun : ∀ op s w, w.existing = (fun _ => False) →
      Reaches (driveRel noJson) (handleOnWire noJson 9 op s) w
        ((handleOnWire noJson 9 op s).play promptly w).1
        ((handleOnWire noJson 9 op s).play promptly w).2 :=
    fun op s w hw => (Prog.play_reaches_of (I := fun w => w.existing = fun _ => False)
      promptly_driveRel _ hw).1
  have h₁ := History.snoc (.nil (s := some (openForWriting (str "gdrive://f") {} (str "root")
    (str "f") 0)) (w := .idle fun _ => False)) (hrun (.write (str "x")) _ _ rfl)
  exact ⟨_, _, History.snoc h₁ (hrun .close _ _ rfl)⟩

/-- Its `Close` has published the byte. -/
theorem upload_fidelity_oneByte : ∃ s w, HandleRun noJson 9
    (openForWriting (str "gdrive://f") {} (str "root") (str "f") 0) (fun _ => False) oneByte s w ∧
    ∃ file ∈ w.published, file.content = str "x" := by
  obtain ⟨s, w, h⟩ := oneByte_run
  refine ⟨s, w, h, (upload_fidelity h).2 [(.write (str "x"), .ok ())] rfl ?_⟩
  intro x hx
  rw [List.mem_singleton.mp hx]
  exact ⟨rfl, rfl⟩

end GDrive
