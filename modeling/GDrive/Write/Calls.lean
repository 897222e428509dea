/-
What each client call of a write handle does to Drive.

Every specification is against `driveEnv`: Drive with its late requests,
which must be an upload of `full` at every request and wherever a run is
left. A call that may not publish ends `Applied`; the publishing calls say
in addition that a success means a publication.
-/
import GDrive.Write.Requests
import GDrive.Write.Handle

namespace GDrive

open Interaction

-- ================================================================ during a run

/-- A create without a reserved id is followed by another create only when
it was answered unauthenticated. -/
def CreatesOk (pj : Picojson) (creates : List (RequestMetadata × RawResult)) : Prop :=
  creates.Pairwise fun e _ => e.1.id = none → Unauthenticated pj e.2

/-- What Drive has to be at every moment. -/
def DuringUpload (pj : Picojson) (fileId full : Str) (w : Drive) : Prop :=
  (∃ target, UploadInv fileId full target w) ∧ CreatesOk pj w.creates

def driveEnv (pj : Picojson) (fileId full : Str) : Env Wire Drive :=
  .ofRel (driveRel pj) (DuringUpload pj fileId full)

section Calls

variable {pj : Picojson} {fileId full : Str} {target : Option Target} {w : Drive}

theorem Applied.during {w' : Drive} (h : Applied fileId full target w w')
    (hc : CreatesOk pj w.creates) : DuringUpload pj fileId full w' := by
  refine ⟨⟨target, h.inv⟩, ?_⟩
  rw [h.creates]
  exact hc

/-- What a successful response says about the reply. -/
theorem responseOf_ok {op : DriveOp} {status : Nat} {flag : Bool} {raw : RawResult}
    (h : (responseOf pj op [status] flag raw).ok = true) :
    raw.is status ∧ (responseOf pj op [status] flag raw).body = raw.body := by
  unfold responseOf at h ⊢
  split at h
  · cases h
  · rename_i hok
    split at h
    · rename_i hstatus
      rw [if_neg hok, if_pos hstatus]
      exact ⟨⟨by simpa using hok, List.mem_singleton.mp hstatus⟩, rfl⟩
    · cases h

/-- A response's status is a delivered reply's. -/
theorem responseOf_status {op : DriveOp} {success : List Nat} {status : Nat} {flag : Bool}
    {raw : RawResult} (hne : status ≠ 0)
    (h : (responseOf pj op success flag raw).httpStatus = status) : raw.is status := by
  unfold responseOf at h
  split at h
  · exact absurd h.symm hne
  · rename_i hok
    refine ⟨by simpa using hok, ?_⟩
    split at h <;> exact h

-- ============================================================= one logical call

/-- A call each of whose requests leaves the upload's invariant in place. -/
theorem wp_executeWithRetry_applied {op : DriveOp} {success : List Nat} {flag : Bool}
    {P : DriveResponse → Drive → Prop} (depth : Nat)
    (hop : ∀ w raw w', UploadInv fileId full target w → ServesOp pj w op raw w' →
      Applied fileId full target w w' ∧ P (responseOf pj op success flag raw) w')
    (h : UploadInv fileId full target w) (hc : CreatesOk pj w.creates) :
    (driveEnv pj fileId full).wp (executeWithRetry pj op success flag depth)
      (fun r w' => Applied fileId full target w w' ∧ ∀ resp, r = .ok resp → P resp w') w := by
  refine wp_executeWithRetry (I := Applied fileId full target w) ?_ ?_ ?_ ?_ depth (.refl h)
  · exact fun w' hI => hI.during hc
  · exact fun q P w' hq hI hP => (driveRel_quiet pj).ask q P hq (hI.during hc) hP
  · intro e w' hI
    refine ⟨hI, ?_⟩
    intro resp hr
    cases hr
  · intro accessToken w' hI
    refine ⟨hI.during hc, ?_⟩
    intro (raw : RawResult) w₂ hw
    obtain ⟨w₁, hl, hs⟩ := hw
    have hlates := hI.inv.lates hl
    obtain ⟨happlied, hP⟩ := hop w₁ raw w₂ hlates.inv hs
    have hall := hI.trans (hlates.trans happlied)
    refine ⟨fun _ => hall, hall, ?_⟩
    intro resp hr
    cases hr
    exact hP

theorem wp_getMetadata (depth : Nat) (id : Str) (h : UploadInv fileId full target w)
    (hc : CreatesOk pj w.creates) :
    (driveEnv pj fileId full).wp (getMetadata pj depth id)
      (fun _ w' => Applied fileId full target w w') w := by
  refine Env.wp_mono (wp_executeWithRetry_applied (P := fun _ _ => True) depth ?_ h hc)
    fun _ _ hr => hr.1
  intro w raw w' hw hs
  obtain rfl : w' = w := hs
  exact ⟨.refl hw, trivial⟩

/-- A generated id is not in use. -/
theorem wp_generateIds (depth : Nat) (h : UploadInv fileId full target w)
    (hc : CreatesOk pj w.creates) :
    (driveEnv pj fileId full).wp (client pj depth .generateFileId)
      (fun r w' => Applied fileId full target w w' ∧ ∀ resp, r = .ok resp → resp.ok = true →
        ∀ id, parseGeneratedFileId pj resp.body = some id → ¬w'.existing id) w := by
  refine wp_executeWithRetry_applied (P := fun resp w' => resp.ok = true →
    ∀ id, parseGeneratedFileId pj resp.body = some id → ¬w'.existing id) depth ?_ h hc
  intro w raw w' hw hs
  obtain ⟨rfl, hunused⟩ := hs
  refine ⟨.refl hw, ?_⟩
  intro hok id hid hexisting
  obtain ⟨h200, hbody⟩ := responseOf_ok hok
  rw [hbody] at hid
  exact hunused h200 id hid (.inl hexisting)

/-- A session is only opened before anything may publish. -/
theorem wp_startResumableUpload (depth : Nat) (parentId name contentType : Str)
    (h : UploadInv fileId full none w) (hc : CreatesOk pj w.creates) :
    (driveEnv pj fileId full).wp
      (client pj depth (.startResumableUpload fileId parentId name contentType))
      (fun _ w' => Applied fileId full none w w') w := by
  show (driveEnv pj fileId full).wp
    ((executeWithRetry pj _ [200] true depth).bind fun r => .ret (r.map checkSessionUri)) _ w
  rw [Env.wp_bind]
  refine Env.wp_mono (wp_executeWithRetry_applied (P := fun _ _ => True) depth ?_ h hc)
    fun _ _ hr => hr.1
  intro w raw w' hw hs
  refine ⟨?_, trivial⟩
  rcases hs with ⟨rfl, -⟩ | ⟨path, -, rfl, -⟩
  · exact .refl hw
  · exact ⟨hw.setSession List.nil_prefix rfl (fun hp => by cases hp) hw.once, id, rfl, rfl⟩

theorem wp_cancelUpload (depth : Nat) (uri : Str) (h : UploadInv fileId full target w)
    (hc : CreatesOk pj w.creates) :
    (driveEnv pj fileId full).wp (client pj depth (.cancelUpload uri))
      (fun _ w' => Applied fileId full target w w') w := by
  show (driveEnv pj fileId full).wp (cancelUpload uri) _ w
  unfold cancelUpload
  split
  · exact .refl h
  · refine ⟨(Applied.refl h).during hc, ?_⟩
    intro _ w' hw
    obtain ⟨w₁, hl, rfl | rfl⟩ := hw
    · exact h.lates hl
    · have hlates := h.lates hl
      exact ⟨hlates.inv.eraseSession _, hlates.published, hlates.creates, hlates.existing⟩

-- =================================================================== one chunk

/-- A chunk of the upload: its pending bytes are what `full` has there. -/
def Slice (full : Str) (buf : ChunkedUploadBuffer) : Prop :=
  buf.pending <+: full.drop buf.offset

/-- Every request of a chunk belongs to the upload. -/
theorem requestOk_chunk {buf : ChunkedUploadBuffer} {final : Bool} {path : Str}
    (hslice : Slice full buf)
    (hfinal : final = true → buf.total = full.length ∧ target = some (.session path))
    (step : UploadStep) (state : ChunkUploadState) :
    RequestOk fileId full target
      (.session path (requestRange buf final step state) (requestData buf step state)) := by
  have htotal : ∀ t, buf.totalOf final = some t →
      t = full.length ∧ target = some (.session path) := by
    intro t ht
    cases final with
    | false => cases ht
    | true =>
        cases ht
        exact hfinal rfl
  unfold requestRange requestData
  split
  · refine ⟨?_, htotal⟩
    intro first last total hrange
    cases hrange
    rw [← List.drop_drop]
    exact hslice.drop state.skip
  · refine ⟨?_, htotal⟩
    intro first last total hrange
    cases hrange

/-- One chunk, driven through its session. A final one that succeeds has
published. -/
theorem wp_uploadChunk (depth : Nat) (uri : Str) {buf : ChunkedUploadBuffer} {final : Bool}
    (hslice : Slice full buf)
    (hfinal : final = true → buf.total = full.length ∧
      ∀ path, driveSessionPath uri = some path → target = some (.session path))
    (h : UploadInv fileId full target w) (hc : CreatesOk pj w.creates) :
    (driveEnv pj fileId full).wp (client pj depth (.uploadChunk uri buf final))
      (fun r w' => Applied fileId full target w w' ∧
        ∀ resp, r = .ok resp → final = true → resp.ok = true → w'.published ≠ []) w := by
  show (driveEnv pj fileId full).wp
    ((uploadChunk pj buf final depth uri).bind fun resp => .ret (Except.ok resp)) _ w
  rw [Env.wp_bind]
  unfold uploadChunk
  split
  · refine ⟨.refl h, ?_⟩
    intro resp hr _ hok
    cases hr
    cases hok
  · rename_i path huri
    rw [Env.wp_bind]
    refine Env.wp_mono (wp_uploadChunkLoop (I := fun _ _ w' => Applied fileId full target w w')
      (Q := fun r w' => Applied fileId full target w w' ∧
        (final = true → r.1.kind = .done ∨ r.1.kind = .accepted → w'.published ≠ []))
      ?_ ?_ ?_ depth {} {} w (.refl h)) ?_
    · exact fun _ _ w' hI => hI.during hc
    · exact fun _ _ q P w' hq hI hP => (driveRel_quiet pj).ask q P hq (hI.during hc) hP
    · intro step state w' hI
      refine ⟨hI.during hc, ?_⟩
      intro (raw : RawResult) w₂ hw
      obtain ⟨w₁, timing, hl, ht, -, hpub⟩ := hw
      have hlates := hI.inv.lates hl
      have hok : RequestOk fileId full target (.session path
          (requestRange buf final step state) (requestData buf step state)) :=
        requestOk_chunk hslice (fun hf => ⟨(hfinal hf).1, (hfinal hf).2 path huri⟩) step state
      have hall := hI.trans (hlates.trans
        (hlates.inv.takes hok (fun _ hcreate => by cases hcreate) ht))
      simp only
      split
      · exact hall
      · refine ⟨hall, ?_⟩
        intro hf hkind
        have hcases := nextUploadStep_cases buf final state (replyOf pj raw)
        rcases hkind with hk | hk
        · obtain ⟨-, hdelivered, hstatus⟩ := hcases.of_done hk
          have his : raw.is 200 ∨ raw.is 201 :=
            hstatus.elim (fun h => .inl ⟨hdelivered, h⟩) fun h => .inr ⟨hdelivered, h⟩
          obtain ⟨s, hs, hp⟩ := hpub his
          exact hall.inv.announced _ s hs hp
        · have hfalse := (hcases.of_accepted hk).1
          rw [hf] at hfalse
          cases hfalse
    · intro r w' hr
      refine ⟨hr.1, ?_⟩
      intro resp hresp hf hok
      cases hresp
      refine hr.2 hf ?_
      unfold chunkResponse at hok
      split at hok
      · rename_i hk
        exact .inl hk
      · split at hok
        · rename_i hk
          exact .inr hk
        · cases hok

-- ================================================================ one request

/-- After a publishing attempt: a success means a publication. -/
def Attempted (pj : Picojson) (fileId full : Str) (r : Except Exn DriveResponse) (w : Drive) :
    Prop :=
  DuringUpload pj fileId full w ∧ ∀ resp, r = .ok resp → resp.ok = true → w.published ≠ []

/-- An overwrite carries the whole file; sending it again changes nothing. -/
theorem wp_update (depth : Nat) {metadata : RequestMetadata} {contentType : Str}
    (hne : fileId ≠ []) (h : UploadInv fileId full none w) (hc : CreatesOk pj w.creates) :
    (driveEnv pj fileId full).wp
      (executeWithRetry pj (.updateMultipart fileId metadata contentType full) [200] false depth)
      (Attempted pj fileId full) w := by
  refine Env.wp_mono (wp_executeWithRetry_applied
    (P := fun resp w' => resp.ok = true → w'.published ≠ []) depth ?_
    (h.aim .overwrite fun _ => hne) hc) ?_
  · intro w raw w' hw hs
    obtain ⟨timing, ht, h200⟩ := hs
    have happlied := hw.takes (r := .update fileId full) ⟨rfl, hne, rfl, rfl⟩
      (fun _ hcreate => by cases hcreate) ht
    refine ⟨happlied, ?_⟩
    intro hok
    rw [h200 (responseOf_ok hok).1] at ht
    cases ht
    exact publish_ne_nil _ _
  · intro r w' hr
    exact ⟨hr.1.during hc, hr.2⟩

/-- The creates received are recorded; nothing else depends on them. -/
theorem UploadInv.record {creates : List (RequestMetadata × RawResult)}
    (h : UploadInv fileId full target w) :
    UploadInv fileId full target { w with creates := creates } :=
  ⟨h.held, h.file, h.announced, h.late, h.content, h.created, h.once⟩

/-- Another create may follow those that had a reserved id or were answered
unauthenticated. -/
theorem CreatesOk.append {creates : List (RequestMetadata × RawResult)}
    (hc : CreatesOk pj creates) (h : ∀ e ∈ creates, e.1.id = none → Unauthenticated pj e.2)
    (e : RequestMetadata × RawResult) : CreatesOk pj (creates ++ [e]) := by
  refine List.pairwise_append.mpr ⟨hc, List.pairwise_singleton _ _, ?_⟩
  intro e' he' _ _
  exact h e' he'

/-- Where a create without a reserved id stands before each request: none of
those before was applied. -/
structure Unsent (pj : Picojson) (full : Str) (w : Drive) : Prop where
  inv : UploadInv [] full (some .single) w
  unsent : lateCreates w + w.published.length = 0
  creates : CreatesOk pj w.creates
  refused : ∀ e ∈ w.creates, e.1.id = none → Unauthenticated pj e.2

/-- Late requests do not change that. -/
theorem Unsent.lates {w' : Drive} (h : Unsent pj full w) (hl : Lates w w') :
    Unsent pj full w' := by
  induction hl with
  | refl => exact h
  | @step w w₁ w₂ l₁ l₂ r hlate hserves _ ih =>
      have happlied := h.inv.serves hlate hserves
      refine ih ⟨happlied.inv, ?_, ?_, ?_⟩
      · have hzero := h.unsent
        have hcount : lateCreates w =
            lateCreates (w.withLate (l₁ ++ l₂)) + (List.filter Upload.isCreate [r]).length := by
          unfold lateCreates Drive.withLate
          rw [hlate, List.append_cons]
          simp only [List.filter_append, List.length_append]
          omega
        have hr : RequestOk [] full (some .single) r := by
          refine h.inv.late r ?_
          rw [hlate]
          exact List.mem_append_right _ List.mem_cons_self
        cases hserves with
        | gone _ =>
            show lateCreates (w.withLate (l₁ ++ l₂)) + w.published.length = 0
            omega
        | duplicate _ _ =>
            show lateCreates (w.withLate (l₁ ++ l₂)) + w.published.length = 0
            omega
        | keep _ _ _ =>
            show lateCreates (w.withLate (l₁ ++ l₂)) + w.published.length = 0
            omega
        | publish _ hk hfalse htrue _ => cases (hr.2 _ (hk.total hfalse htrue)).2
        | create _ _ =>
            simp only [Upload.isCreate, List.filter_cons, if_true, List.filter_nil,
              List.length_singleton] at hcount
            omega
        | update => cases hr.2.2.2
      · rw [happlied.creates]
        exact h.creates
      · rw [happlied.creates]
        exact h.refused

/-- A create without a reserved id: sent again only where it was not applied. -/
theorem wp_createOnce (depth : Nat) {metadata : RequestMetadata} {contentType : Str}
    (hid : metadata.id = none) (h : Unsent pj full w) :
    (driveEnv pj [] full).wp
      (executeWithRetry pj (.createMultipart metadata contentType full) [200] false depth)
      (Attempted pj [] full) w := by
  have hduring : ∀ w, Unsent pj full w → DuringUpload pj [] full w :=
    fun w hw => ⟨⟨_, hw.inv⟩, hw.creates⟩
  refine wp_executeWithRetry (I := Unsent pj full) hduring ?_ ?_ ?_ depth h
  · exact fun q P w' hq hI hP => (driveRel_quiet pj).ask q P hq (hduring w' hI) hP
  · intro e w' hI
    refine ⟨hduring w' hI, ?_⟩
    intro resp hr
    cases hr
  · intro accessToken w' hI
    refine ⟨hduring w' hI, ?_⟩
    intro (raw : RawResult) w₂ hw
    obtain ⟨w₁, hl, timing, w₃, ht, rfl, h200, hrefused, -⟩ := hw
    have hI₁ := hI.lates hl
    have happlied := hI₁.inv.takes (r := .create metadata full)
      ⟨rfl, rfl, .inr ⟨rfl, hid⟩⟩ (fun _ _ => hI₁.unsent) ht
    have hcreates : CreatesOk pj (w₃.creates ++ [(metadata, raw)]) := by
      rw [happlied.creates]
      exact hI₁.creates.append hI₁.refused _
    refine ⟨?_, ⟨⟨_, happlied.inv.record⟩, hcreates⟩, ?_⟩
    · intro hgo
      have hunauth : Unauthenticated pj raw := by
        unfold GoesOn at hgo
        split at hgo
        · cases hgo
        · rename_i hok
          obtain ⟨hstatus, hkind | hretry⟩ := hgo
          · exact ⟨by simpa using hok, by simpa using hstatus, hkind⟩
          · cases hretry.2
      rw [hrefused hunauth] at ht
      obtain rfl : w₃ = w₁ := ht
      refine ⟨happlied.inv.record, hI₁.unsent, hcreates, ?_⟩
      intro e he hnone
      rcases List.mem_append.mp he with he | he
      · exact hI₁.refused e he hnone
      · rw [List.mem_singleton.mp he]
        exact hunauth
    · intro resp hr hok
      cases hr
      rw [h200 (responseOf_ok hok).1] at ht
      cases ht with
      | create _ _ => exact publish_ne_nil _ _
      | duplicate hsome _ =>
          rw [hid] at hsome
          cases hsome

/-- Where a create with a reserved id stands: a duplicate is its own. -/
structure Reserved (pj : Picojson) (full id : Str) (w : Drive) : Prop where
  inv : UploadInv [] full (some (.reserved id)) w
  unused : ¬w.existing id
  creates : CreatesOk pj w.creates
  reserved : ∀ e ∈ w.creates, e.1.id ≠ none

theorem Reserved.published {id : Str} (h : Reserved pj full id w) (hused : w.Used id) :
    w.published ≠ [] := by
  rcases hused with hexisting | ⟨p, hp, -⟩
  · exact absurd hexisting h.unused
  · exact List.ne_nil_of_mem hp

theorem Reserved.applied {w' : Drive} {id : Str} (h : Reserved pj full id w)
    (ha : Applied [] full (some (.reserved id)) w w') : Reserved pj full id w' := by
  refine ⟨ha.inv, ?_, ?_, ?_⟩
  · rw [ha.existing]
    exact h.unused
  · rw [ha.creates]
    exact h.creates
  · rw [ha.creates]
    exact h.reserved

theorem Reserved.during {id : Str} (h : Reserved pj full id w) : DuringUpload pj [] full w :=
  ⟨⟨_, h.inv⟩, h.creates⟩

/-- A create with a reserved id may be repeated: what was applied before is
found by its id. -/
theorem wp_createReserved (depth : Nat) {metadata : RequestMetadata} {contentType id : Str}
    (hid : metadata.id = some id) (h : Reserved pj full id w) :
    (driveEnv pj [] full).wp
      (executeWithRetry pj (.createMultipart metadata contentType full) [200] true depth)
      (fun r w' => Reserved pj full id w' ∧
        ∀ resp, r = .ok resp → resp.ok = true ∨ resp.httpStatus = 409 → w'.published ≠ []) w := by
  refine wp_executeWithRetry (I := Reserved pj full id) (fun _ hw => hw.during) ?_ ?_ ?_ depth h
  · exact fun q P w' hq hI hP => (driveRel_quiet pj).ask q P hq hI.during hP
  · intro e w' hI
    refine ⟨hI, ?_⟩
    intro resp hr
    cases hr
  · intro accessToken w' hI
    refine ⟨hI.during, ?_⟩
    intro (raw : RawResult) w₂ hw
    obtain ⟨w₁, hl, timing, w₃, ht, rfl, h200, -, h409⟩ := hw
    have hI₁ := hI.applied (hI.inv.lates hl)
    have happlied := hI₁.inv.takes (r := .create metadata full)
      ⟨rfl, rfl, .inl ⟨id, rfl, hid⟩⟩ (fun hsingle => by cases hsingle) ht
    have hI₃ := hI₁.applied happlied
    have hI₂ : Reserved pj full id { w₃ with creates := w₃.creates ++ [(metadata, raw)] } := by
      refine ⟨hI₃.inv.record, hI₃.unused, hI₃.creates.append ?_ _, ?_⟩
      · intro e he hnone
        exact absurd hnone (hI₃.reserved e he)
      · intro e he
        rcases List.mem_append.mp he with he | he
        · exact hI₃.reserved e he
        · rw [List.mem_singleton.mp he, hid]
          exact Option.some_ne_none id
    refine ⟨fun _ => hI₂, hI₂, ?_⟩
    intro resp hr hok
    cases hr
    rcases hok with hok | hstatus
    · rw [h200 (responseOf_ok hok).1] at ht
      cases ht with
      | create _ _ => exact publish_ne_nil _ _
      | duplicate hsome hused =>
          rw [hid] at hsome
          cases hsome
          exact hI₁.published hused
    · obtain ⟨hdelivered, hraw⟩ := responseOf_status (by decide) hstatus
      obtain ⟨id', hsome, hused⟩ := (h409 hdelivered).mp hraw
      rw [hid] at hsome
      cases hsome
      exact happlied.published (hI₁.published hused)

/-- The single request, for a handle that has published nothing yet. -/
theorem wp_upload (depth : Nat) (parentId name : Str) {reservedId : Str}
    (hreserved : fileId = [] → reservedId ≠ [] → ¬w.existing reservedId)
    (h : UploadInv fileId full none w) (hcreates : w.creates = []) :
    (driveEnv pj fileId full).wp
      (client pj depth (.upload fileId parentId name octetStream full reservedId))
      (Attempted pj fileId full) w := by
  have hnone : ∀ e, e ∉ w.creates := by
    intro e he
    rw [hcreates] at he
    cases he
  have hc : CreatesOk pj w.creates := by
    rw [hcreates]
    exact .nil
  show (driveEnv pj fileId full).wp
    (upload pj depth fileId parentId name octetStream full reservedId) _ w
  unfold upload
  rw [if_neg (by decide)]
  by_cases hfile : fileId = []
  · subst hfile
    rw [if_pos List.isEmpty_nil]
    by_cases hid : reservedId = []
    · rw [hid, if_pos List.isEmpty_nil]
      refine wp_createOnce depth rfl ⟨h.aim .single nofun, ?_, hc, ?_⟩
      · rw [h.lateCreates_eq, show w.published = [] from h.once]
        rfl
      · exact fun e he => absurd he (hnone e)
    · rw [if_neg (by simpa using hid), Env.wp_bind]
      have hmeta : (uploadMetadata [] parentId name octetStream reservedId).id =
          some reservedId := by
        show (if List.isEmpty ([] : Str) then nonEmpty reservedId else none) = some reservedId
        rw [if_pos List.isEmpty_nil, nonEmpty, if_neg (by simpa using hid)]
      refine Env.wp_mono (wp_createReserved depth hmeta
        ⟨h.aim (.reserved reservedId) nofun, hreserved rfl hid, hc,
          fun e he => absurd he (hnone e)⟩) ?_
      intro r w' hr
      obtain ⟨hw', hpub⟩ := hr
      cases r with
      | error e =>
          refine ⟨hw'.during, ?_⟩
          intro resp hresp
          cases hresp
      | ok resp =>
          unfold recognizeOwnCreate
          simp only
          split
          · rename_i hdup
            refine Env.wp_mono (wp_getMetadata depth reservedId hw'.inv hw'.creates) ?_
            intro r w'' ha
            exact ⟨ha.during hw'.creates, fun _ _ _ => ha.published (hpub resp rfl (.inr hdup.2))⟩
          · refine ⟨hw'.during, ?_⟩
            intro resp' hresp hok
            cases hresp
            exact hpub _ rfl (.inl hok)
  · rw [if_neg (by simpa using hfile)]
    exact wp_update depth hfile h hc

end Calls

end GDrive
