/-
The life of a write handle, over every sequence of `Write`, `Close`,
`CancelWrite` and destruction and every outcome of the client's calls.

The world is the record of the calls made. Two things are read off it:
`attempts`, the calls that may publish, and `sessionEvents`, what became
of each resumable session. The state of a handle bounds both
(`HandleInv`): a handle that is still writing has attempted nothing, and
the sessions accounted for are all of them but the one it holds.

A handle that failed or was cancelled is `Dead`: it may still be called,
but never publishes again.
-/
import GDrive.Write.Handle

namespace GDrive

open Interaction

-- ================================================================ the record

abbrev CallLog := List (CallReq × Except Exn DriveResponse)

/-- A client that answers anything its contract allows. -/
def callRel : Rel Client CallLog := fun w q r w' => ClientContract q r ∧ w' = w ++ [(q, r)]

/-- A call that may publish the file. -/
def CallReq.publishes : CallReq → Bool
  | .upload _ _ _ _ _ _ => true
  | .uploadChunk _ _ final => final
  | _ => false

/-- The publishing attempts started. -/
def attempts (w : CallLog) : List CallReq := (w.map Prod.fst).filter CallReq.publishes

/-- A final chunk has a session to go to and bytes to carry. -/
def FinalWellFormed (q : CallReq) : Prop :=
  match q with
  | .uploadChunk uri buf true => uri ≠ [] ∧ buf.pending ≠ []
  | _ => True

/-- What the record has to be at every moment. -/
structure LogInv (w : CallLog) : Prop where
  once : (attempts w).length ≤ 1
  finals : ∀ q ∈ w.map Prod.fst, FinalWellFormed q

/-- What becomes of a session's URI. -/
inductive SessionEvent
  | stored (uri : Str)
  /-- A successful final chunk. -/
  | consumed (uri : Str)
  | cancelled (uri : Str)

def sessionEvent : CallReq × Except Exn DriveResponse → Option SessionEvent
  | (.startResumableUpload _ _ _ _, .ok resp) =>
      if resp.ok then some (.stored resp.location) else none
  | (.uploadChunk uri _ true, .ok resp) => if resp.ok then some (.consumed uri) else none
  | (.cancelUpload uri, _) => some (.cancelled uri)
  | _ => none

def sessionEvents (w : CallLog) : List SessionEvent := w.filterMap sessionEvent

/-- Every session stored was then either consumed or cancelled, once. -/
inductive Balanced : List SessionEvent → Prop
  | nil : Balanced []
  | consumed {l : List SessionEvent} {uri : Str} :
      Balanced l → Balanced (l ++ [.stored uri, .consumed uri])
  | cancelled {l : List SessionEvent} {uri : Str} :
      Balanced l → Balanced (l ++ [.stored uri, .cancelled uri])

/-- Every session but the one still held is accounted for. -/
def Accounted (session : Str) (events : List SessionEvent) : Prop :=
  if session = [] then Balanced events
  else ∃ l, Balanced l ∧ events = l ++ [.stored session]

theorem Accounted.balanced {events : List SessionEvent} (h : Accounted [] events) :
    Balanced events := h

theorem Accounted.consume {uri : Str} {events : List SessionEvent}
    (h : Accounted uri events) (hne : uri ≠ []) : Balanced (events ++ [.consumed uri]) := by
  rw [Accounted, if_neg hne] at h
  obtain ⟨l, hl, rfl⟩ := h
  rw [List.append_assoc]
  exact hl.consumed

theorem Accounted.cancel {uri : Str} {events : List SessionEvent}
    (h : Accounted uri events) (hne : uri ≠ []) : Balanced (events ++ [.cancelled uri]) := by
  rw [Accounted, if_neg hne] at h
  obtain ⟨l, hl, rfl⟩ := h
  rw [List.append_assoc]
  exact hl.cancelled

theorem Accounted.store {uri : Str} {events : List SessionEvent}
    (h : Balanced events) (hne : uri ≠ []) : Accounted uri (events ++ [.stored uri]) := by
  rw [Accounted, if_neg hne]
  exact ⟨events, h, rfl⟩

@[simp] theorem attempts_append (w : CallLog) (q : CallReq) (r : Except Exn DriveResponse) :
    attempts (w ++ [(q, r)]) = attempts w ++ if q.publishes then [q] else [] := by
  unfold attempts
  rw [List.map_append, List.filter_append]
  cases h : q.publishes <;> simp [h]

@[simp] theorem sessionEvents_append (w : CallLog) (e : CallReq × Except Exn DriveResponse) :
    sessionEvents (w ++ [e]) = sessionEvents w ++ (sessionEvent e).toList := by
  unfold sessionEvents
  rw [List.filterMap_append]
  cases h : sessionEvent e <;> simp [h]

/-- A call that publishes nothing keeps the record in order. -/
theorem LogInv.append {w : CallLog} (h : LogInv w) {q : CallReq} (hq : q.publishes = false)
    (r : Except Exn DriveResponse) : LogInv (w ++ [(q, r)]) := by
  constructor
  · rw [attempts_append, hq]
    simpa using h.once
  · intro q' hq'
    rw [List.map_append, List.mem_append] at hq'
    rcases hq' with hq' | hq'
    · exact h.finals q' hq'
    · obtain rfl : q' = q := by simpa using hq'
      cases q' with
      | uploadChunk uri buf final =>
          cases final with
          | false => trivial
          | true => cases hq
      | _ => trivial

/-- The first attempt does too, when it is well formed. -/
theorem LogInv.attempt {w : CallLog} (h : LogInv w) (hfirst : attempts w = []) {q : CallReq}
    (hq : FinalWellFormed q) (r : Except Exn DriveResponse) : LogInv (w ++ [(q, r)]) := by
  constructor
  · rw [attempts_append, hfirst]
    split <;> simp
  · intro q' hq'
    rw [List.map_append, List.mem_append] at hq'
    rcases hq' with hq' | hq'
    · exact h.finals q' hq'
    · obtain rfl : q' = q := by simpa using hq'
      exact hq

-- ============================================================ the operations

/-- The client, against which the record must stay in order and no
operation may be cut. -/
abbrev handleEnv : Env Client CallLog := .total callRel LogInv

/-- What an operation that publishes nothing leaves of the record `w`. -/
structure Kept (w : CallLog) (h' : WriteHandle) (w' : CallLog) : Prop where
  log : LogInv w'
  attempts : attempts w' = attempts w
  sessions : Accounted h'.uploadSession (sessionEvents w')

/-- A call that concerns neither publishing nor sessions. -/
theorem Kept.append {w w' : CallLog} {h : WriteHandle} (hk : Kept w h w') {q : CallReq}
    {r : Except Exn DriveResponse} (hq : q.publishes = false) (he : sessionEvent (q, r) = none) :
    Kept w h (w' ++ [(q, r)]) := by
  refine ⟨hk.log.append hq r, ?_, ?_⟩
  · rw [attempts_append, hq, hk.attempts]
    exact List.append_nil _
  · rw [sessionEvents_append, he]
    exact (List.append_nil (sessionEvents w')).symm ▸ hk.sessions

/-- Cancelling closes the account of the session held; one call at most, in
the record as it is. -/
theorem wp_abortUpload {I : CallLog → Prop} {h : WriteHandle} {w₀ w : CallLog} (hI : I w)
    (hk : Kept w₀ h w) :
    Code.wp (.total callRel I) abortUpload (fun r h' w' => Kept w₀ h' w' ∧ r = .ok () ∧
      h' = { h with uploadSession := [] }) h w := by
  have hs := hk.sessions
  unfold abortUpload
  rw [Code.wp_bind, Code.wp_get, Code.outcome_ok, Code.wp_when]
  constructor
  · intro hne
    have hne' : h.uploadSession ≠ [] := by
      intro hnil
      rw [hnil] at hne
      cases hne
    rw [Code.wp_bind, Code.wp_modify, Code.outcome_ok, Code.wp_tryCatch, Code.wp_bind, wp_call]
    refine ⟨hI, ?_⟩
    rintro r w' ⟨-, rfl⟩
    have hkept : Kept w₀ { h with uploadSession := [] }
        (w ++ [(.cancelUpload h.uploadSession, r)]) := by
      refine ⟨hk.log.append rfl r, ?_, ?_⟩
      · rw [attempts_append, hk.attempts]
        exact List.append_nil _
      · rw [sessionEvents_append]
        exact hs.cancel hne'
    cases r with
    | ok resp => exact ⟨hkept, rfl, rfl⟩
    | error e => exact ⟨hkept, rfl, rfl⟩
  · intro hempty
    have hnil : h.uploadSession = [] := by simpa using hempty
    refine ⟨hk, rfl, ?_⟩
    cases h
    cases hnil
    rfl

/-- Opening a session changes nothing else; when it returns one is open. -/
theorem wp_openSession {h : WriteHandle} {w₀ w : CallLog} (hk : Kept w₀ h w) :
    Code.wp handleEnv openSession (fun r h' w' => Kept w₀ h' w' ∧
      h' = { h with uploadSession := h'.uploadSession } ∧
      (r = .ok () → h'.uploadSession ≠ [])) h w := by
  have hs := hk.sessions
  unfold openSession
  rw [Code.wp_bind, Code.wp_get, Code.outcome_ok, Code.wp_when]
  constructor
  · intro hempty
    have hnil : h.uploadSession = [] := List.isEmpty_iff.mp hempty
    rw [hnil] at hs
    rw [Code.wp_bind, wp_call]
    refine ⟨hk.log, ?_⟩
    rintro r w' ⟨hcontract, rfl⟩
    cases r with
    | error e => exact ⟨hk.append rfl rfl, rfl, fun hr => by cases hr⟩
    | ok start =>
        rw [Code.outcome_ok, Code.wp_bind, Code.wp_when]
        constructor
        · intro hbad
          have hok : start.ok = false := by simpa using hbad
          exact ⟨hk.append rfl (by simp [sessionEvent, hok]), rfl, fun hr => by cases hr⟩
        · intro hgood
          have hok : start.ok = true := by simpa using hgood
          have hne := ne_nil_of_driveSessionPath (Option.ne_none_iff_exists'.mp
            (hcontract start rfl hok)).choose_spec
          refine ⟨⟨hk.log.append rfl _, ?_, ?_⟩, rfl, fun _ => hne⟩
          · rw [attempts_append, hk.attempts]
            exact List.append_nil _
          · rw [sessionEvents_append, sessionEvent, if_pos hok]
            exact Accounted.store hs.balanced hne
  · intro hempty
    refine ⟨hk, rfl, ?_⟩
    rintro - hnil
    rw [hnil] at hempty
    cases hempty

/-- Sending a chunk changes the session and the buffer, and publishes
nothing; when it returns the chunk is off the buffer and a session is open. -/
theorem wp_sendUploadChunk {h : WriteHandle} {w₀ w : CallLog} {buf : ChunkedUploadBuffer}
    (hk : Kept w₀ h w) :
    Code.wp handleEnv (sendUploadChunk buf) (fun r h' w' => Kept w₀ h' w' ∧
      Code.outcome
        (fun _ h' _ => h'.uploadSession ≠ [] ∧
          h' = { h with
            uploadSession := h'.uploadSession
            upload := some buf.markChunkSent })
        (fun _ h' _ => h' = { h with uploadSession := h'.uploadSession }) r h' w') h w := by
  unfold sendUploadChunk
  rw [Code.wp_bind]
  refine Code.wp_mono (wp_openSession hk) ?_
  rintro r h' w' ⟨hk', hh, hne⟩
  cases r with
  | error e => exact ⟨hk', hh⟩
  | ok _ =>
      rw [Code.outcome_ok, Code.wp_bind, Code.wp_get, Code.outcome_ok, Code.wp_bind, wp_call]
      refine ⟨hk'.log, ?_⟩
      rintro r w'' ⟨-, rfl⟩
      have hk'' : Kept w₀ h' (w' ++ [(.uploadChunk h'.uploadSession buf false, r)]) :=
        hk'.append rfl rfl
      cases r with
      | error e => exact ⟨hk'', hh⟩
      | ok resp =>
          rw [Code.outcome_ok, Code.wp_bind, Code.wp_when]
          constructor
          · exact fun _ => ⟨hk'', hh⟩
          · intro _
            refine ⟨⟨hk''.log, hk''.attempts, hk''.sessions⟩, hne rfl, ?_⟩
            rw [hh]

/-- What a buffer promises of a final chunk: if anything was sent there is a
session, and something is left to send. -/
def Ready (session : Str) (buf : ChunkedUploadBuffer) : Prop :=
  buf.sentAny = true → session ≠ [] ∧ buf.pending ≠ []

theorem wp_makeRoom {h : WriteHandle} {w₀ w : CallLog} {buf : ChunkedUploadBuffer}
    (hk : Kept w₀ h w) (hbuf : h.upload = some buf) (hready : Ready h.uploadSession buf) :
    Code.wp handleEnv makeRoom (fun r h' w' => Kept w₀ h' w' ∧
      h' = { h with uploadSession := h'.uploadSession, upload := h'.upload } ∧
      ∃ buf', h'.upload = some buf' ∧ (r = .ok () →
        buf'.full = false ∧ (buf'.sentAny = true → h'.uploadSession ≠ []))) h w := by
  unfold makeRoom
  rw [Code.wp_bind, Code.wp_get, Code.outcome_ok, hbuf]
  simp only
  rw [Code.wp_when]
  constructor
  · intro _
    refine Code.wp_mono (wp_sendUploadChunk hk) ?_
    rintro r h' w' ⟨hk', hr⟩
    cases r with
    | error e =>
        rw [Code.outcome_error] at hr
        refine ⟨hk', ?_, buf, ?_, fun hok => by cases hok⟩
        · rw [hr]
        · rw [hr]
          exact hbuf
    | ok _ =>
        obtain ⟨hne, hh⟩ := hr
        refine ⟨hk', ?_, buf.markChunkSent, ?_, fun _ => ⟨?_, fun _ => hne⟩⟩
        · rw [hh]
        · rw [hh]
        · exact ChunkedUploadBuffer.full_of_pending_nil rfl
  · intro hfull
    exact ⟨hk, rfl, buf, hbuf, fun _ => ⟨hfull, fun hsent => (hready hsent).1⟩⟩

theorem wp_fillBuffer {h : WriteHandle} {w₀ w : CallLog} {buf : ChunkedUploadBuffer} {data : Str}
    (hk : Kept w₀ h w) (hbuf : h.upload = some buf) (hfull : buf.full = false)
    (hsession : buf.sentAny = true → h.uploadSession ≠ []) (hdata : data ≠ []) :
    Code.wp handleEnv (fillBuffer data) (fun r h' w' => Kept w₀ h' w' ∧
      h' = { h with upload := h'.upload } ∧ r = .ok (data.drop (buf.room data.length)) ∧
      ∃ buf', h'.upload = some buf' ∧ Ready h'.uploadSession buf') h w := by
  unfold fillBuffer
  rw [Code.wp_bind, Code.wp_get, Code.outcome_ok, hbuf]
  simp only
  rw [Code.wp_bind, Code.wp_modify, Code.outcome_ok, Code.wp_pure]
  refine ⟨⟨hk.log, hk.attempts, hk.sessions⟩, rfl, rfl, buf.fill data, rfl, ?_⟩
  intro hsent
  exact ⟨hsession hsent, ChunkedUploadBuffer.fill_pending_ne_nil hfull hdata⟩

/-- The rounds of `Write`: on return the buffer is ready for a `Close`. -/
theorem wp_writeLoop {w₀ : CallLog} (rounds : Nat) :
    ∀ {data : Str} {h : WriteHandle} {w : CallLog} {buf : ChunkedUploadBuffer},
      data.length ≤ rounds → Kept w₀ h w → h.upload = some buf → Ready h.uploadSession buf →
      Code.wp handleEnv (writeLoop rounds data) (fun r h' w' => Kept w₀ h' w' ∧
        h' = { h with uploadSession := h'.uploadSession, upload := h'.upload } ∧
        ∃ buf', h'.upload = some buf' ∧ (r = .ok () → Ready h'.uploadSession buf')) h w := by
  induction rounds with
  | zero =>
      intro data h w buf hlen hk hbuf hready
      cases data with
      | nil => exact ⟨hk, rfl, buf, hbuf, fun _ => hready⟩
      | cons c data => exact absurd hlen (by simp)
  | succ rounds ih =>
      intro data h w buf hlen hk hbuf hready
      cases data with
      | nil => exact ⟨hk, rfl, buf, hbuf, fun _ => hready⟩
      | cons c data =>
          rw [writeLoop, Code.wp_bind]
          refine Code.wp_mono (wp_makeRoom hk hbuf hready) ?_
          rintro r h₁ w₁ ⟨hk₁, hh₁, buf₁, hbuf₁, hr₁⟩
          cases r with
          | error e => exact ⟨hk₁, hh₁, buf₁, hbuf₁, fun hok => by cases hok⟩
          | ok _ =>
              obtain ⟨hfull, hsession⟩ := hr₁ rfl
              rw [Code.outcome_ok, Code.wp_bind]
              refine Code.wp_mono
                (wp_fillBuffer hk₁ hbuf₁ hfull hsession (List.cons_ne_nil c data)) ?_
              rintro r h₂ w₂ ⟨hk₂, hh₂, rfl, buf₂, hbuf₂, hready₂⟩
              rw [Code.outcome_ok]
              have hless := ChunkedUploadBuffer.length_drop_room hfull (List.cons_ne_nil c data)
              refine Code.wp_mono (ih (by omega) hk₂ hbuf₂ hready₂) ?_
              rintro r h₃ w₃ ⟨hk₃, hh₃, hex⟩
              refine ⟨hk₃, ?_, hex⟩
              rw [hh₃, hh₂, hh₁]

-- ============================================================== the invariant

/-- The record is in order, and the sessions are accounted for. -/
structure Sound (h : WriteHandle) (w : CallLog) : Prop where
  log : LogInv w
  sessions : Accounted h.uploadSession (sessionEvents w)

/-- A handle at rest. While it writes nothing was attempted, and unless a
write failed its buffer is ready for a `Close`. -/
structure HandleInv (h : WriteHandle) (w : CallLog) : Prop extends Sound h w where
  first : h.isWrite = true → attempts w = []
  ready : h.isWrite = true → ∃ buf, h.upload = some buf ∧
    (h.writeFailed = false → Ready h.uploadSession buf)

theorem Sound.kept {h : WriteHandle} {w : CallLog} (hs : Sound h w) : Kept w h w :=
  ⟨hs.log, rfl, hs.sessions⟩

theorem Kept.sound {h : WriteHandle} {w₀ w : CallLog} (hk : Kept w₀ h w) : Sound h w :=
  ⟨hk.log, hk.sessions⟩

theorem HandleInv.of_closed {h : WriteHandle} {w : CallLog} (hs : Sound h w)
    (hw : h.isWrite = false) : HandleInv h w := by
  refine ⟨hs, ?_, ?_⟩ <;> intro htrue <;> rw [hw] at htrue <;> cases htrue

theorem wp_failWrite {h : WriteHandle} {w₀ w : CallLog} (hk : Kept w₀ h w) :
    Code.wp handleEnv failWrite (fun r h' w' => Kept w₀ h' w' ∧ r = .ok () ∧
      h' = { h with uploadSession := [], writeFailed := true }) h w := by
  unfold failWrite
  rw [Code.wp_bind, Code.wp_modify, Code.outcome_ok]
  exact wp_abortUpload hk.log ⟨hk.log, hk.attempts, hk.sessions⟩

/-- `Write` keeps the invariant; when it throws, the handle publishes no
more. -/
theorem wp_write {h : WriteHandle} {w : CallLog} {data : Str} (hI : HandleInv h w) :
    Code.wp handleEnv (write data) (fun r h' w' => HandleInv h' w' ∧
      ∀ e, r = .error e → h'.isWrite = false ∨ h'.writeFailed = true) h w := by
  unfold write
  rw [Code.wp_bind, Code.wp_get, Code.outcome_ok]
  split
  · rename_i hno
    refine ⟨hI, ?_⟩
    rintro e -
    rcases hno with hno | hno
    · exact .inl hno
    · by_cases hw : h.isWrite = true
      · obtain ⟨buf, hbuf, -⟩ := hI.ready hw
        rw [hbuf] at hno
        cases hno
      · exact .inl (by simpa using hw)
  · rename_i hopen
    split
    · rename_i hfailed
      exact ⟨hI, fun _ _ => .inr hfailed⟩
    · rename_i hgood
      have hwrite : h.isWrite = true := by
        cases hw : h.isWrite with
        | true => rfl
        | false => exact absurd (.inl hw) hopen
      obtain ⟨buf, hbuf, hready⟩ := hI.ready hwrite
      have hloop := wp_writeLoop data.length (Nat.le_refl _) hI.toSound.kept hbuf
        (hready (by simpa using hgood))
      rw [Code.wp_bind, Code.wp_onError]
      refine Code.wp_mono hloop ?_
      rintro r h₁ w₁ ⟨hk, hh, buf', hbuf', hr⟩
      cases r with
      | error e =>
          rw [Code.outcome_error]
          refine Code.wp_mono (wp_failWrite hk) ?_
          rintro r h₂ w₂ ⟨hk₂, rfl, rfl⟩
          refine ⟨⟨hk₂.sound, ?_, ?_⟩, fun _ _ => .inr rfl⟩
          · exact fun _ => hk₂.attempts.trans (hI.first hwrite)
          · exact fun _ => ⟨buf', hbuf', fun hno => by cases hno⟩
      | ok _ =>
          rw [Code.outcome_ok, Code.outcome_ok, Code.wp_modify]
          refine ⟨⟨⟨hk.log, hk.sessions⟩, ?_, ?_⟩, fun e he => by cases he⟩
          · exact fun _ => hk.attempts.trans (hI.first hwrite)
          · exact fun _ => ⟨buf', hbuf', fun _ => hr rfl⟩

/-- `CancelWrite` keeps the invariant, and the handle writes no more. -/
theorem wp_cancelWrite {h : WriteHandle} {w : CallLog} (hI : HandleInv h w) :
    Code.wp handleEnv cancelWrite (fun _ h' w' => HandleInv h' w' ∧ h'.isWrite = false) h w := by
  unfold cancelWrite
  rw [Code.wp_bind, Code.wp_get, Code.outcome_ok, Code.wp_when]
  constructor
  · intro _
    rw [Code.wp_bind, Code.wp_modify, Code.outcome_ok, Code.wp_bind]
    refine Code.wp_mono (wp_abortUpload hI.log ⟨hI.log, rfl, hI.sessions⟩) ?_
    rintro r h' w' ⟨hk, rfl, rfl⟩
    rw [Code.outcome_ok, Code.wp_modify]
    exact ⟨.of_closed ⟨hk.log, hk.sessions⟩ rfl, rfl⟩
  · exact fun hw => ⟨hI, hw⟩

/-- What a publish may assume: nothing attempted yet, and a buffer that is
ready. It keeps the handle's flags. -/
theorem wp_publishFinalChunk {h : WriteHandle} {w : CallLog} {buf : ChunkedUploadBuffer}
    (hs : Sound h w) (hfirst : attempts w = []) (hne : h.uploadSession ≠ [])
    (hpending : buf.pending ≠ []) :
    Code.wp handleEnv (publishFinalChunk buf) (fun _ h' w' => Sound h' w' ∧
      h'.isWrite = h.isWrite) h w := by
  unfold publishFinalChunk
  rw [Code.wp_bind, Code.wp_get, Code.outcome_ok, Code.wp_bind, wp_call]
  refine ⟨hs.log, ?_⟩
  rintro r w' ⟨-, rfl⟩
  have hlog : LogInv (w ++ [(.uploadChunk h.uploadSession buf true, r)]) :=
    hs.log.attempt hfirst (q := .uploadChunk h.uploadSession buf true) ⟨hne, hpending⟩ r
  -- A failed attempt leaves the session open, for the caller to cancel.
  have hopen : sessionEvent (.uploadChunk h.uploadSession buf true, r) = none →
      Sound h (w ++ [(.uploadChunk h.uploadSession buf true, r)]) := by
    intro he
    refine ⟨hlog, ?_⟩
    rw [sessionEvents_append, he]
    exact (List.append_nil (sessionEvents w)).symm ▸ hs.sessions
  cases r with
  | error e => exact ⟨hopen rfl, rfl⟩
  | ok resp =>
      rw [Code.outcome_ok, Code.wp_bind, Code.wp_when]
      constructor
      · intro hbad
        have hok : resp.ok = false := by simpa using hbad
        exact ⟨hopen (by simp [sessionEvent, hok]), rfl⟩
      · intro hgood
        have hok : resp.ok = true := by simpa using hgood
        rw [Code.outcome_ok, Code.wp_bind, Code.wp_modify, Code.outcome_ok, Code.wp_pure]
        refine ⟨⟨hlog, ?_⟩, rfl⟩
        rw [sessionEvents_append, sessionEvent, if_pos hok]
        exact hs.sessions.consume hne

theorem wp_reserveId (pj : Picojson) {h : WriteHandle} {w₀ w : CallLog} (hk : Kept w₀ h w) :
    Code.wp handleEnv (reserveId pj) (fun _ h' w' => Kept w₀ h' w' ∧ h' = h) h w := by
  unfold reserveId
  rw [Code.wp_bind, Code.wp_get, Code.outcome_ok]
  split
  · rw [Code.wp_bind, wp_call]
    refine ⟨hk.log, ?_⟩
    rintro r w' ⟨-, rfl⟩
    cases r with
    | error e => exact ⟨hk.append rfl rfl, rfl⟩
    | ok idResp => exact ⟨hk.append rfl rfl, rfl⟩
  · exact ⟨hk, rfl⟩

theorem wp_publishSingleRequest (pj : Picojson) {h : WriteHandle} {w : CallLog}
    {buf : ChunkedUploadBuffer} (hs : Sound h w) (hfirst : attempts w = []) :
    Code.wp handleEnv (publishSingleRequest pj buf) (fun _ h' w' => Sound h' w' ∧
      h'.isWrite = h.isWrite) h w := by
  unfold publishSingleRequest
  rw [Code.wp_bind]
  refine Code.wp_mono (wp_reserveId pj hs.kept) ?_
  rintro r h' w₁ ⟨hk, rfl⟩
  cases r with
  | error e => exact ⟨hk.sound, rfl⟩
  | ok reservedId =>
      rw [Code.outcome_ok, Code.wp_bind, Code.wp_get, Code.outcome_ok, Code.wp_bind, wp_call]
      refine ⟨hk.log, ?_⟩
      rintro r w₂ ⟨-, rfl⟩
      have hsound : Sound h' (w₁ ++ [(.upload h'.file.id h'.writeParentId h'.writeName
          octetStream buf.pending reservedId, r)]) := by
        refine ⟨hk.log.attempt (hk.attempts.trans hfirst) (q := .upload h'.file.id
          h'.writeParentId h'.writeName octetStream buf.pending reservedId) trivial r, ?_⟩
        rw [sessionEvents_append]
        exact (List.append_nil (sessionEvents w₁)).symm ▸ hk.sessions
      cases r with
      | error e => exact ⟨hsound, rfl⟩
      | ok resp =>
          rw [Code.outcome_ok, Code.wp_bind, Code.wp_when]
          exact ⟨fun _ => ⟨hsound, rfl⟩, fun _ => ⟨hsound, rfl⟩⟩

theorem wp_publish (pj : Picojson) {h : WriteHandle} {w : CallLog} {buf : ChunkedUploadBuffer}
    (hs : Sound h w) (hfirst : attempts w = []) (hready : Ready h.uploadSession buf) :
    Code.wp handleEnv (publish pj buf) (fun _ h' w' => Sound h' w' ∧
      h'.isWrite = h.isWrite) h w := by
  unfold publish ChunkedUploadBuffer.onClose
  cases hsent : buf.sentAny with
  | true => exact wp_publishFinalChunk hs hfirst (hready hsent).1 (hready hsent).2
  | false => exact wp_publishSingleRequest pj hs hfirst

theorem wp_uploadHandleContents (pj : Picojson) {h : WriteHandle} {w : CallLog}
    {buf : ChunkedUploadBuffer} (hs : Sound h w) (hfirst : attempts w = [])
    (hbuf : h.upload = some buf) (hready : h.writeFailed = false → Ready h.uploadSession buf) :
    Code.wp handleEnv (uploadHandleContents pj) (fun _ h' w' => Sound h' w' ∧
      h'.isWrite = h.isWrite) h w := by
  unfold uploadHandleContents
  rw [Code.wp_bind, Code.wp_get, Code.outcome_ok, hbuf]
  cases hfailed : h.writeFailed with
  | true => exact ⟨hs, rfl⟩
  | false =>
      simp only
      rw [Code.wp_bind]
      refine Code.wp_mono (wp_publish pj hs hfirst (hready hfailed)) ?_
      rintro r h' w' ⟨hs', hw'⟩
      cases r with
      | error e => exact ⟨hs', hw'⟩
      | ok resp =>
          rw [Code.outcome_ok]
          split
          · exact ⟨⟨hs'.log, hs'.sessions⟩, hw'⟩
          · exact ⟨hs', hw'⟩

/-- `Close` keeps the invariant: it takes the one attempt there is. -/
theorem wp_close (pj : Picojson) {h : WriteHandle} {w : CallLog} (hI : HandleInv h w) :
    Code.wp handleEnv (close pj) (fun _ h' w' => HandleInv h' w') h w := by
  unfold close
  rw [Code.wp_bind, Code.wp_get, Code.outcome_ok, Code.wp_when]
  constructor
  · intro hwrite
    obtain ⟨buf, hbuf, hready⟩ := hI.ready hwrite
    rw [Code.wp_bind, Code.wp_modify, Code.outcome_ok]
    split
    · refine Code.wp_mono (wp_abortUpload hI.log ⟨hI.log, rfl, hI.sessions⟩) ?_
      rintro r h' w' ⟨hk, -, rfl⟩
      exact .of_closed hk.sound rfl
    · rw [Code.wp_bind, Code.wp_onError]
      refine Code.wp_mono
        (wp_uploadHandleContents pj ⟨hI.log, hI.sessions⟩ (hI.first hwrite) hbuf hready) ?_
      rintro r h₁ w₁ ⟨hs, hw⟩
      cases r with
      | error e =>
          rw [Code.outcome_error]
          refine Code.wp_mono (wp_failWrite hs.kept) ?_
          rintro r h₂ w₂ ⟨hk, rfl, rfl⟩
          exact .of_closed hk.sound hw
      | ok _ =>
          rw [Code.outcome_ok, Code.outcome_ok, Code.wp_modify]
          exact .of_closed ⟨hs.log, hs.sessions⟩ hw
  · exact fun _ => hI

-- ============================================================= a dead handle

/-- After a failed `Write` or a cancel: nothing was attempted since `w₀`,
and nothing will be. -/
structure DeadInv (w₀ : CallLog) (s : Option WriteHandle) (w : CallLog) : Prop where
  same : attempts w = attempts w₀
  dead : ∀ h, s = some h → (h.isWrite = false ∨ h.writeFailed = true) ∧ Kept w₀ h w

/-- What a dead handle still does is cancel its session. -/
private theorem wp_dead {w₀ : CallLog} {c : WriteCode Unit} {h : WriteHandle} {w : CallLog}
    (hc : Code.wp (.total callRel fun w => attempts w = attempts w₀) c
      (fun _ h' w' => Kept w₀ h' w' ∧ (h'.isWrite = false ∨ h'.writeFailed = true)) h w) :
    Code.wp (.total callRel fun w => attempts w = attempts w₀) (onHandle c)
      (fun _ => DeadInv w₀) (some h) w := by
  rw [wp_onHandle]
  refine Code.wp_mono hc ?_
  rintro r h' w' ⟨hk, hdead⟩
  refine ⟨hk.attempts, ?_⟩
  intro h'' heq
  cases heq
  exact ⟨hdead, hk⟩

private theorem wp_handleOp_dead (pj : Picojson) {w₀ : CallLog} (op : HandleOp)
    (s : Option WriteHandle) (w : CallLog) (hI : DeadInv w₀ s w) :
    Code.wp (.total callRel fun w => attempts w = attempts w₀) (handleOp pj op)
      (fun _ => DeadInv w₀) s w := by
  cases s with
  | none =>
      cases op with
      | write data => exact hI
      | close => exact hI
      | cancelWrite => exact hI
      | destroy => exact hI
  | some h =>
      obtain ⟨hdead, hk⟩ := hI.dead h rfl
      cases op with
      | write data =>
          refine wp_dead ?_
          unfold write
          rw [Code.wp_bind, Code.wp_get, Code.outcome_ok]
          split
          · exact ⟨hk, hdead⟩
          · rename_i hopen
            rcases hdead with hno | hfailed
            · exact absurd (.inl hno) hopen
            · rw [if_pos hfailed]
              exact ⟨hk, .inr hfailed⟩
      | close =>
          refine wp_dead ?_
          unfold close
          rw [Code.wp_bind, Code.wp_get, Code.outcome_ok, Code.wp_when]
          constructor
          · intro hwrite
            have hfailed : h.writeFailed = true := by
              rcases hdead with hno | hfailed
              · rw [hwrite] at hno
                cases hno
              · exact hfailed
            rw [Code.wp_bind, Code.wp_modify, Code.outcome_ok, if_pos hfailed]
            refine Code.wp_mono (wp_abortUpload hI.same ⟨hk.log, hk.attempts, hk.sessions⟩) ?_
            rintro r h' w' ⟨hk', -, rfl⟩
            exact ⟨hk', .inl rfl⟩
          · exact fun hno => ⟨hk, .inl hno⟩
      | cancelWrite =>
          refine wp_dead ?_
          unfold cancelWrite
          rw [Code.wp_bind, Code.wp_get, Code.outcome_ok, Code.wp_when]
          constructor
          · intro _
            rw [Code.wp_bind, Code.wp_modify, Code.outcome_ok, Code.wp_bind]
            refine Code.wp_mono (wp_abortUpload hI.same ⟨hk.log, hk.attempts, hk.sessions⟩) ?_
            rintro r h' w' ⟨hk', rfl, rfl⟩
            exact ⟨⟨hk'.log, hk'.attempts, hk'.sessions⟩, .inl rfl⟩
          · exact fun hno => ⟨hk, .inl hno⟩
      | destroy =>
          unfold handleOp destroyHandle
          rw [Code.wp_bind, wp_onHandle]
          refine Code.wp_mono (wp_abortUpload hI.same hk) ?_
          rintro r h' w' ⟨hk', rfl, rfl⟩
          exact ⟨hk'.attempts, fun _ h => by cases h⟩

-- =============================================================== every history

/-- The state of a handle between operations, whether it still exists or
not: once it is gone every session is accounted for. -/
def LifeInv (s : Option WriteHandle) (w : CallLog) : Prop :=
  match s with
  | some h => HandleInv h w
  | none => LogInv w ∧ Balanced (sessionEvents w)

theorem LifeInv.log {s : Option WriteHandle} {w : CallLog} (h : LifeInv s w) : LogInv w := by
  cases s with
  | some _ => exact (HandleInv.toSound h).log
  | none => exact h.1

/-- Every operation keeps the invariant, and is followed to its end. -/
theorem wp_handleOp (pj : Picojson) (op : HandleOp) (s : Option WriteHandle) (w : CallLog)
    (hI : LifeInv s w) :
    Code.wp handleEnv (handleOp pj op) (fun _ => LifeInv) s w := by
  cases s with
  | none =>
      cases op with
      | write data => exact hI
      | close => exact hI
      | cancelWrite => exact hI
      | destroy => exact hI
  | some h =>
      cases op with
      | write data =>
          refine (wp_onHandle _).mpr (Code.wp_mono (wp_write hI) ?_)
          exact fun r h' w' hr => hr.1
      | close => exact (wp_onHandle _).mpr (wp_close pj hI)
      | cancelWrite =>
          refine (wp_onHandle _).mpr (Code.wp_mono (wp_cancelWrite hI) ?_)
          exact fun r h' w' hr => hr.1
      | destroy =>
          unfold handleOp destroyHandle
          rw [Code.wp_bind, wp_onHandle]
          refine Code.wp_mono (wp_abortUpload hI.log hI.toSound.kept) ?_
          rintro r h' w' ⟨hk, rfl, rfl⟩
          exact ⟨hk.log, hk.sessions⟩

/-- A cancel, or a `Write` that threw. -/
def Stops (op : HandleOp) (r : Except Exn Unit) : Prop :=
  op = .cancelWrite ∨ ∃ data e, op = .write data ∧ r = .error e

theorem wp_handleOp_stops (pj : Picojson) (op : HandleOp) (s : Option WriteHandle)
    (w : CallLog) (hI : LifeInv s w) :
    Code.wp handleEnv (handleOp pj op)
      (fun r s' w' => Stops op r → DeadInv w' s' w') s w := by
  have hgone : ∀ {w : CallLog}, DeadInv w none w := ⟨rfl, fun _ h => by cases h⟩
  have hlive : ∀ {h : WriteHandle} {w : CallLog}, HandleInv h w →
      h.isWrite = false ∨ h.writeFailed = true → DeadInv w (some h) w := by
    intro h w hI hdead
    refine ⟨rfl, ?_⟩
    intro h' heq
    cases heq
    exact ⟨hdead, hI.toSound.kept⟩
  cases s with
  | none =>
      cases op with
      | write data => exact fun _ => hgone
      | close => exact fun _ => hgone
      | cancelWrite => exact fun _ => hgone
      | destroy => exact fun _ => hgone
  | some h =>
      cases op with
      | write data =>
          refine (wp_onHandle _).mpr (Code.wp_mono (wp_write hI) ?_)
          rintro r h' w' ⟨hI', hdead⟩ hstop
          rcases hstop with hstop | ⟨_, e, -, hr⟩
          · cases hstop
          · exact hlive hI' (hdead e hr)
      | cancelWrite =>
          refine (wp_onHandle _).mpr (Code.wp_mono (wp_cancelWrite hI) ?_)
          rintro r h' w' ⟨hI', hclosed⟩ -
          exact hlive hI' (.inl hclosed)
      | close =>
          refine Code.wp_mono (wp_handleOp pj .close (some h) w hI) ?_
          rintro r s' w' - (hstop | ⟨_, _, hstop, -⟩) <;> cases hstop
      | destroy =>
          refine Code.wp_mono (wp_handleOp pj .destroy (some h) w hI) ?_
          rintro r s' w' - (hstop | ⟨_, _, hstop, -⟩) <;> cases hstop

/-- A handle just opened. -/
theorem lifeInv_openForWriting (path : Str) (placeholder : DriveFileMeta)
    (parentId name : Str) (chunkBytes : Nat) :
    LifeInv (some (openForWriting path placeholder parentId name chunkBytes)) [] := by
  have hlog : LogInv [] := ⟨Nat.zero_le _, fun q hq => by cases hq⟩
  refine ⟨⟨hlog, Balanced.nil⟩, fun _ => rfl, fun _ => ⟨_, rfl, ?_⟩⟩
  intro _ hsent
  cases hsent

/-- The life of a write handle, for every sequence of operations and every
outcome of every client call. At every moment at most one publishing
attempt was started, and every final chunk was well formed; none is started
after a `Write` failed or after a cancel; once the handle is destroyed
every session that was stored was consumed or cancelled, once; and no
operation is left unfinished. -/
theorem write_handle_lifecycle (pj : Picojson) (path : Str) (placeholder : DriveFileMeta)
    (parentId name : Str) (chunkBytes : Nat) {l : List (HandleOp × Except Exn Unit)}
    {s : Option WriteHandle} {w : CallLog}
    (h : History callRel (handleOp pj)
      (some (openForWriting path placeholder parentId name chunkBytes)) [] l s w) :
    (∀ op p w', Reaches callRel (handleOp pj op s) w p w' →
      (attempts w').length ≤ 1 ∧ (∀ q ∈ w'.map Prod.fst, FinalWellFormed q) ∧ p ≠ .cut) ∧
    (∀ l' op r, l = l' ++ [(op, r)] → Stops op r →
      ∀ w', Moment callRel (handleOp pj) s w w' → attempts w' = attempts w) ∧
    (s = none → Balanced (sessionEvents w)) := by
  have hinit := lifeInv_openForWriting path placeholder parentId name chunkBytes
  have hstep : ∀ op s w, LifeInv s w →
      (handleOp pj op).wp (.ofRel callRel LogInv) (fun _ s' w' => LifeInv s' w') s w :=
    fun op s w hI => Code.wp_of_total (wp_handleOp pj op s w hI)
  have hI := h.inv hstep hinit
  refine ⟨?_, ?_, ?_⟩
  · intro op p w' hr
    have hlog : LogInv w' := Code.wp_always (hstep op s w hI) (fun _ _ _ h => h.log) hr
    refine ⟨hlog.once, hlog.finals, ?_⟩
    rintro rfl
    exact Env.total_uncut (wp_handleOp pj op s w hI) hr
  · rintro l' op r rfl hstop w' hm
    obtain ⟨s₁, w₁, h₁, hr⟩ := h.snoc_inv
    have hdead : DeadInv w s w :=
      Code.wp_returns (Code.wp_of_total (wp_handleOp_stops pj op s₁ w₁ (h₁.inv hstep hinit)))
        hr hstop
    exact hm.world (I := DeadInv w) (J := fun w' => attempts w' = attempts w)
      (fun op s w hI => Code.wp_of_total (wp_handleOp_dead pj op s w hI))
      (fun _ _ hI => hI.same) hdead
  · rintro rfl
    exact hI.2

/-- A client that succeeds at everything. -/
def agreeable (w : CallLog) (q : CallReq) : Except Exn DriveResponse × CallLog :=
  (.ok { ok := true, location := str "https://www.googleapis.com/u" },
    w ++ [(q, .ok { ok := true, location := str "https://www.googleapis.com/u" })])

theorem agreeable_callRel (w : CallLog) (q : CallReq) :
    callRel w q (agreeable w q).1 (agreeable w q).2 := by
  refine ⟨?_, rfl⟩
  cases q with
  | startResumableUpload =>
      intro resp hresp _
      cases hresp
      decide
  | _ => trivial

/-- One byte written, closed and destroyed: one publishing attempt, and no
session left. -/
theorem write_handle_lifecycle_close :
    ∃ w, (attempts w).length = 1 ∧ Balanced (sessionEvents w) := by
  have hrun : ∀ op s w, Reaches callRel (handleOp ⟨fun _ => none, fun _ => []⟩ op s) w
      ((handleOp ⟨fun _ => none, fun _ => []⟩ op s).play agreeable w).1
      ((handleOp ⟨fun _ => none, fun _ => []⟩ op s).play agreeable w).2 :=
    fun op s w => Prog.play_reaches agreeable_callRel _ w
  have h₁ := History.snoc (.nil (s := some (openForWriting (str "gdrive://f") {} (str "root")
    (str "f") 0)) (w := [])) (hrun (.write (str "x")) _ _)
  have h₂ := History.snoc h₁ (hrun .close _ _)
  have h₃ := History.snoc h₂ (hrun .destroy _ _)
  exact ⟨_, rfl, (write_handle_lifecycle _ _ _ _ _ _ h₃).2.2 rfl⟩

end GDrive
