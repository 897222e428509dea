/-
What an open write handle does to the tree.

A `Write` leaves it as it is: it opens a session for what its handle was
opened for, and sends chunks that publish nothing (`WritesFor`). A `Close`
publishes once at most, and a failure of it may have published all the same;
what it reports as done is in the tree, under the metadata that the handle
keeps (`Closed`).
-/
import GDrive.Fs.Lookups
import GDrive.Fs.SiblingNames

namespace GDrive

open Interaction

section Effects

variable {w w' w'' : World}

theorem World.Becomes.still (h : w.Becomes w.nodes w') (h' : w'.Becomes w'.nodes w'') :
    w.Becomes w.nodes w'' :=
  ⟨h'.nodes.trans h.nodes, h'.rootId.trans h.rootId, h'.rootAlias.trans h.rootAlias⟩

theorem World.Becomes.afterwards {nodes : List Node} (h : w.Becomes nodes w')
    (h' : w'.Becomes w'.nodes w'') : w.Becomes nodes w'' :=
  ⟨h'.nodes.trans h.nodes, h'.rootId.trans h.rootId, h'.rootAlias.trans h.rootAlias⟩

/-- What is published stays so while the tree stays as it is. -/
theorem World.Publishes.afterwards {u : OpenUpload} {folder : Bool} {size : Nat}
    {file : DriveFileMeta} (h : w.Publishes u folder size file w')
    (h' : w'.Becomes w'.nodes w'') : w.Publishes u folder size file w'' := by
  obtain ⟨hkind, hnative, hsize, hplace⟩ := h
  refine ⟨hkind, hnative, hsize, ?_⟩
  split
  · rename_i hnew
    rw [if_pos hnew] at hplace
    exact ⟨hplace.1, hplace.2.1, hplace.2.2.afterwards h'⟩
  · rename_i hold
    rw [if_neg hold] at hplace
    exact ⟨hplace.1, hplace.2.1, hplace.2.2.1, hplace.2.2.2.afterwards h'⟩

end Effects

-- ===================================================================== writing

/-- A handle that was opened for `t`, over the tree of `w` and sessions for
`t` besides those of `w`. -/
structure WritesFor (w : World) (t : OpenUpload) (b : Bool) (h : WriteHandle) (w' : World) :
    Prop where
  target : h.target = t
  isWrite : h.isWrite = b
  becomes : w.Becomes w.nodes w'
  sessions : ∀ {uri u}, w'.sessions uri = some u → w.sessions uri = some u ∨ u = t

section Writing

variable {pj : Picojson} {mayFail : CallReq → Prop} {R : Rel Client World} {w w' : World}
  {t : OpenUpload} {b : Bool} {handle : WriteHandle}

theorem WritesFor.start (handle : WriteHandle) (w : World) :
    WritesFor w handle.target handle.isWrite handle w :=
  ⟨rfl, rfl, ⟨rfl, rfl, rfl⟩, .inl⟩

/-- A call that publishes nothing, and opens a session for `t` if any. -/
def OpensFor (t : OpenUpload) (q : CallReq) : Prop :=
  PublishesNothing q ∧
    ∀ id parentId name type, q = .startResumableUpload id parentId name type →
      (⟨id, parentId, name⟩ : OpenUpload) = t

theorem WritesFor.done {q : CallReq} {resp : DriveResponse} {w'' : World}
    (h : WritesFor w t b handle w') (hq : OpensFor t q) (hsucceeds : w'.Succeeds pj q resp w'') :
    WritesFor w t b handle w'' := by
  obtain ⟨hnothing, hfor⟩ := hq
  cases q with
  | generateFileId =>
      obtain rfl : w'' = w' := hsucceeds
      exact h
  | startResumableUpload id parentId name type =>
      obtain ⟨-, -, hbecomes, hsessions⟩ := hsucceeds
      refine ⟨h.target, h.isWrite, h.becomes.still hbecomes, ?_⟩
      intro uri u hu
      rw [hsessions] at hu
      by_cases huri : uri = resp.location
      · rw [huri, Function.update_self] at hu
        cases hu
        exact .inr (hfor id parentId name type rfl)
      · rw [Function.update_of_ne huri] at hu
        exact h.sessions hu
  | cancelUpload sessionUri =>
      obtain ⟨hbecomes, hsessions⟩ := hsucceeds
      refine ⟨h.target, h.isWrite, h.becomes.still hbecomes, ?_⟩
      intro uri u hu
      rcases hsessions with hsame | hless
      · rw [hsame] at hu
        exact h.sessions hu
      · rw [hless] at hu
        by_cases huri : uri = sessionUri
        · rw [huri, Function.update_self] at hu
          cases hu
        · rw [Function.update_of_ne huri] at hu
          exact h.sessions hu
  | uploadChunk sessionUri buf final =>
      cases final with
      | true => cases hnothing
      | false =>
          obtain rfl : w'' = w' := hsucceeds
          exact h
  | _ => exact hnothing.elim

/-- Whether it fails or not, and has been done or not. -/
theorem WritesFor.answered {q : CallReq} {r : Except Exn DriveResponse} {w'' : World}
    (h : WritesFor w t b handle w') (hq : OpensFor t q) (hr : treeRel pj mayFail w' q r w'') :
    WritesFor w t b handle w'' := by
  rcases hr with ⟨resp, -, -, hsucceeds⟩ | ⟨_, _, rfl, -⟩ | ⟨-, -, rfl | ⟨resp, hsucceeds⟩⟩
  · exact h.done hq hsucceeds
  · exact hq.1.elim
  · exact h
  · exact h.done hq hsucceeds

theorem keeps_send (hR : ∀ w q r w', R w q r w' → treeRel pj mayFail w q r w') {q : CallReq}
    (hq : OpensFor t q) : Code.Keeps (globEnv R) (WritesFor w t b) (call q) := by
  intro handle w' h
  rw [wp_call]
  exact ⟨trivial, fun r w'' hr => h.answered hq (hR _ _ _ _ hr)⟩

/-- A change of neither what the handle was opened for nor that it writes. -/
theorem keeps_handle {f : WriteHandle → WriteHandle}
    (hf : ∀ h, (f h).target = h.target ∧ (f h).isWrite = h.isWrite) :
    Code.Keeps (globEnv R) (WritesFor w t b) (Code.modify f : WriteCode Unit) := by
  refine Code.keeps_modify ?_
  intro h w' hw
  exact ⟨(hf h).1.trans hw.target, (hf h).2.trans hw.isWrite, hw.becomes, hw.sessions⟩

theorem keeps_throwUploadError (error : GDriveError) :
    Code.Keeps (globEnv R) (WritesFor w t b) (throwUploadError error) :=
  .of_get fun _ _ _ => Code.keeps_throw _

theorem keeps_openSession (hR : ∀ w q r w', R w q r w' → treeRel pj mayFail w q r w') :
    Code.Keeps (globEnv R) (WritesFor w t b) openSession := by
  unfold openSession
  refine .of_get fun h w' hw => Code.Keeps.when _ (Code.Keeps.bind (keeps_send hR ⟨trivial, ?_⟩)
    fun start => Code.Keeps.bind (Code.Keeps.when _ (keeps_throwUploadError _)) fun _ =>
      keeps_handle fun _ => ⟨rfl, rfl⟩)
  intro id parentId name type heq
  cases heq
  exact hw.target

theorem keeps_sendUploadChunk (hR : ∀ w q r w', R w q r w' → treeRel pj mayFail w q r w')
    (buf : ChunkedUploadBuffer) :
    Code.Keeps (globEnv R) (WritesFor w t b) (sendUploadChunk buf) := by
  unfold sendUploadChunk
  refine (keeps_openSession hR).bind fun _ => .of_get fun h w' _ =>
    Code.Keeps.bind (keeps_send hR ⟨rfl, nofun⟩) fun resp =>
      Code.Keeps.bind (Code.Keeps.when _ (keeps_throwUploadError _)) fun _ =>
        keeps_handle fun _ => ⟨rfl, rfl⟩

theorem keeps_abortUpload (hR : ∀ w q r w', R w q r w' → treeRel pj mayFail w q r w') :
    Code.Keeps (globEnv R) (WritesFor w t b) abortUpload := by
  unfold abortUpload
  refine .of_get fun h w' _ => Code.Keeps.when _
    (Code.Keeps.bind (keeps_handle fun _ => ⟨rfl, rfl⟩) fun _ => Code.Keeps.tryCatch ?_ fun _ =>
      Code.keeps_pure _)
  exact Code.Keeps.bind (keeps_send hR ⟨trivial, nofun⟩) fun _ => Code.keeps_pure _

theorem keeps_failWrite (hR : ∀ w q r w', R w q r w' → treeRel pj mayFail w q r w') :
    Code.Keeps (globEnv R) (WritesFor w t b) failWrite :=
  Code.Keeps.bind (keeps_handle fun _ => ⟨rfl, rfl⟩) fun _ => keeps_abortUpload hR

theorem keeps_writeLoop (hR : ∀ w q r w', R w q r w' → treeRel pj mayFail w q r w')
    (rounds : Nat) (data : Str) :
    Code.Keeps (globEnv R) (WritesFor w t b) (writeLoop rounds data) := by
  induction rounds generalizing data with
  | zero =>
      cases data with
      | nil => exact Code.keeps_pure _
      | cons c data => exact Code.keeps_cut fun _ => trivial
  | succ rounds ih =>
      cases data with
      | nil => exact Code.keeps_pure _
      | cons c data =>
          unfold writeLoop makeRoom fillBuffer
          refine Code.Keeps.bind (.of_get fun h w' _ => ?_) fun _ =>
            Code.Keeps.bind (.of_get fun h w' _ => ?_) fun rest => ih rest
          · split
            · exact Code.keeps_pure _
            · exact Code.Keeps.when _ (keeps_sendUploadChunk hR _)
          · split
            · exact Code.keeps_pure _
            · exact Code.Keeps.bind (keeps_handle fun _ => ⟨rfl, rfl⟩) fun _ => Code.keeps_pure _

/-- A `Write` publishes nothing. -/
theorem keeps_write (hR : ∀ w q r w', R w q r w' → treeRel pj mayFail w q r w') (data : Str) :
    Code.Keeps (globEnv R) (WritesFor w t b) (write data) := by
  unfold write
  refine .of_get fun h w' _ => ?_
  split
  · exact Code.keeps_throw _
  · split
    · exact Code.keeps_throw _
    · exact Code.Keeps.bind (Code.Keeps.onError (keeps_writeLoop hR _ _) (keeps_failWrite hR))
        fun _ => keeps_handle fun _ => ⟨rfl, rfl⟩

-- ===================================================================== closing

/-- What the contents of a handle are published as: with the last chunk what
the session is for, by one request what the handle was opened for. -/
def WriteHandle.dueFor (h : WriteHandle) (w : World) (buf : ChunkedUploadBuffer) :
    Option OpenUpload :=
  match buf.onClose with
  | .finalChunk => w.sessions h.uploadSession
  | .singleRequest => some h.target

/-- What a publication of `due` leaves, whether it is reported done or not. -/
structure PublishedAs (w : World) (t : OpenUpload) (due : Option OpenUpload) (w' : World) :
    Prop where
  tree : w.Becomes w.nodes w' ∨ ∃ u size file, due = some u ∧ w.Publishes u false size file w'
  sessions : ∀ {uri u}, w'.sessions uri = some u → w.sessions uri = some u ∨ u = t

theorem PublishedAs.afterwards {due : Option OpenUpload} {w'' : World}
    (h : PublishedAs w t due w') (h' : WritesFor w' t b handle w'') : PublishedAs w t due w'' := by
  refine ⟨h.tree.imp (·.still h'.becomes) ?_, ?_⟩
  · intro ⟨u, size, file, hdue, hpublishes⟩
    exact ⟨u, size, file, hdue, hpublishes.afterwards h'.becomes⟩
  · intro uri u hu
    rcases h'.sessions hu with hbefore | htarget
    · exact h.sessions hbefore
    · exact .inr htarget

/-- One request that publishes. -/
theorem published_of_treeRel {q : CallReq} {r : Except Exn DriveResponse} {due : Option OpenUpload}
    (hq : ∀ id, q ≠ .getMetadata id)
    (hdue : ∀ resp w', w.Succeeds pj q resp w' → ∃ u size file, due = some u ∧
      parseFileMeta pj resp.body = some file ∧ w.Publishes u false size file w' ∧
      ∀ uri v, w'.sessions uri = some v → w.sessions uri = some v)
    (hr : treeRel pj mayFail w q r w') :
    PublishedAs w t due w' ∧ ∀ resp, r = .ok resp → resp.ok = true → ∃ u size file,
      due = some u ∧ parseFileMeta pj resp.body = some file ∧ w.Publishes u false size file w' := by
  have hdone : ∀ resp, w.Succeeds pj q resp w' → PublishedAs w t due w' := by
    intro resp hsucceeds
    obtain ⟨u, size, file, hu, -, hpublishes, hsessions⟩ := hdue resp w' hsucceeds
    exact ⟨.inr ⟨u, size, file, hu, hpublishes⟩, fun h => .inl (hsessions _ _ h)⟩
  rcases hr with ⟨resp, hresp, -, hsucceeds⟩ | ⟨id, _, hget, -⟩ | ⟨-, hfailed, hw⟩
  · refine ⟨hdone resp hsucceeds, ?_⟩
    intro resp' hresp' _
    rw [hresp] at hresp'
    cases hresp'
    obtain ⟨u, size, file, hu, hparse, hpublishes, -⟩ := hdue resp w' hsucceeds
    exact ⟨u, size, file, hu, hparse, hpublishes⟩
  · exact absurd hget (hq id)
  · refine ⟨?_, ?_⟩
    · rcases hw with rfl | ⟨resp, hsucceeds⟩
      · exact ⟨.inl ⟨rfl, rfl, rfl⟩, .inl⟩
      · exact hdone resp hsucceeds
    · intro resp hresp hok
      rw [(hfailed resp hresp).1] at hok
      cases hok

/-- What a publication comes to. -/
def UploadEnds (pj : Picojson) (w : World) (handle : WriteHandle) (due : Option OpenUpload)
    (out : Except Exn DriveResponse) (h' : WriteHandle) (w' : World) : Prop :=
  h'.target = handle.target ∧ h'.isWrite = handle.isWrite ∧
    PublishedAs w handle.target due w' ∧
    ∀ resp, out = .ok resp → ∃ u size file, due = some u ∧
      parseFileMeta pj resp.body = some file ∧ w.Publishes u false size file w'

theorem wp_publishFinalChunk_due (hR : ∀ w q r w', R w q r w' → treeRel pj mayFail w q r w')
    (buf : ChunkedUploadBuffer) :
    Code.wp (globEnv R) (publishFinalChunk buf)
      (UploadEnds pj w handle (w.sessions handle.uploadSession)) handle w := by
  unfold publishFinalChunk
  rw [Code.wp_bind, Code.wp_get, Code.outcome_ok, Code.wp_bind, wp_call]
  refine ⟨trivial, ?_⟩
  intro r w₁ hr
  have hdue : ∀ resp w', w.Succeeds pj (.uploadChunk handle.uploadSession buf true) resp w' →
      ∃ u size file, w.sessions handle.uploadSession = some u ∧
        parseFileMeta pj resp.body = some file ∧ w.Publishes u false size file w' ∧
        ∀ uri v, w'.sessions uri = some v → w.sessions uri = some v := by
    intro resp w' ⟨u, file, hu, hparse, hpublishes, hsessions⟩
    refine ⟨u, buf.total, file, hu, hparse, hpublishes, ?_⟩
    intro uri v hv
    rw [hsessions] at hv
    by_cases huri : uri = handle.uploadSession
    · rw [huri, Function.update_self] at hv
      cases hv
    · rwa [Function.update_of_ne huri] at hv
  obtain ⟨hpublished, hreported⟩ := published_of_treeRel
    (q := .uploadChunk handle.uploadSession buf true) nofun hdue (hR _ _ _ _ hr)
  cases r with
  | error e => exact ⟨rfl, rfl, hpublished, nofun⟩
  | ok resp =>
      rw [Code.outcome_ok, Code.wp_bind, Code.wp_when]
      refine ⟨fun _ => ⟨rfl, rfl, hpublished, nofun⟩, ?_⟩
      intro hok
      refine ⟨rfl, rfl, hpublished, ?_⟩
      intro resp' hresp'
      cases hresp'
      exact hreported resp rfl (by simpa using hok)

/-- The id that a create reserves changes nothing. -/
theorem wp_reserveId_still (hR : ∀ w q r w', R w q r w' → treeRel pj mayFail w q r w') :
    Code.wp (globEnv R) (reserveId pj) (fun _ h' w' => h' = handle ∧ w' = w) handle w := by
  unfold reserveId
  rw [Code.wp_bind, Code.wp_get, Code.outcome_ok]
  split
  · rw [Code.wp_bind, wp_call]
    refine ⟨trivial, ?_⟩
    intro r w₁ hr
    have hsame : w₁ = w := by
      rcases hR _ _ _ _ hr with ⟨resp, -, -, hsame⟩ | ⟨_, _, hget, -⟩ |
        ⟨-, -, hsame | ⟨resp, hsame⟩⟩
      · exact hsame
      · cases hget
      · exact hsame
      · exact hsame
    cases r with
    | error e => exact ⟨rfl, hsame⟩
    | ok resp => exact ⟨rfl, hsame⟩
  · exact ⟨rfl, rfl⟩

theorem wp_publishSingleRequest_due (hR : ∀ w q r w', R w q r w' → treeRel pj mayFail w q r w')
    (buf : ChunkedUploadBuffer) :
    Code.wp (globEnv R) (publishSingleRequest pj buf)
      (UploadEnds pj w handle (some handle.target)) handle w := by
  unfold publishSingleRequest
  rw [Code.wp_bind]
  refine Code.wp_mono (wp_reserveId_still hR) ?_
  intro out h' w₁ ⟨hhandle, hw⟩
  subst hhandle hw
  cases out with
  | error e => exact ⟨rfl, rfl, ⟨.inl ⟨rfl, rfl, rfl⟩, .inl⟩, nofun⟩
  | ok reserved =>
      rw [Code.outcome_ok, Code.wp_bind, Code.wp_get, Code.outcome_ok, Code.wp_bind, wp_call]
      refine ⟨trivial, ?_⟩
      intro r w₂ hr
      have hdue : ∀ resp w', w₁.Succeeds pj
            (.upload h'.file.id h'.writeParentId h'.writeName octetStream buf.pending reserved)
            resp w' →
          ∃ u size file, some h'.target = some u ∧ parseFileMeta pj resp.body = some file ∧
            w₁.Publishes u false size file w' ∧
            ∀ uri v, w'.sessions uri = some v → w₁.sessions uri = some v := by
        intro resp w' ⟨hsessions, file, hparse, hpublishes⟩
        rw [show makesFolder octetStream = false by decide +kernel] at hpublishes
        refine ⟨h'.target, _, file, rfl, hparse, hpublishes, ?_⟩
        intro uri v hv
        rwa [hsessions] at hv
      obtain ⟨hpublished, hreported⟩ := published_of_treeRel
        (q := .upload _ _ _ _ _ _) nofun hdue (hR _ _ _ _ hr)
      cases r with
      | error e => exact ⟨rfl, rfl, hpublished, nofun⟩
      | ok resp =>
          rw [Code.outcome_ok, Code.wp_bind, Code.wp_when]
          refine ⟨fun _ => ⟨rfl, rfl, hpublished, nofun⟩, ?_⟩
          intro hok
          refine ⟨rfl, rfl, hpublished, ?_⟩
          intro resp' hresp'
          cases hresp'
          exact hreported resp rfl (by simpa using hok)

/-- The publication of a `Close`. -/
theorem wp_publish_due (hR : ∀ w q r w', R w q r w' → treeRel pj mayFail w q r w')
    (buf : ChunkedUploadBuffer) :
    Code.wp (globEnv R) (publish pj buf) (UploadEnds pj w handle (handle.dueFor w buf))
      handle w := by
  unfold publish WriteHandle.dueFor
  cases buf.onClose with
  | finalChunk => exact wp_publishFinalChunk_due hR buf
  | singleRequest => exact wp_publishSingleRequest_due hR buf

/-- A `Close`: what it may have published, and what it did if it says so. -/
structure Closed (w : World) (handle : WriteHandle) (out : Except Exn Unit) (h' : WriteHandle)
    (w' : World) : Prop where
  isWrite : h'.isWrite = false
  done : PublishedAs w handle.target (handle.publication w) w'
  reported : out = .ok () → ∀ u, handle.publication w = some u →
    ∃ size, w.Publishes u false size h'.file w'

/-- What is not published is closed all the same. -/
theorem WritesFor.closed {h' : WriteHandle} {out : Except Exn Unit}
    (h : WritesFor w handle.target false h' w')
    (hnone : out = .ok () → handle.publication w = none) : Closed w handle out h' w' := by
  refine ⟨h.isWrite, ⟨.inl h.becomes, h.sessions⟩, ?_⟩
  intro hout u hu
  rw [hnone hout] at hu
  cases hu

theorem wp_close_closed (hR : ∀ w q r w', R w q r w' → treeRel pj mayFail w q r w') :
    Code.wp (globEnv R) (close pj) (fun out h' w' => Closed w handle out h' w') handle w := by
  have hstart : WritesFor w handle.target false { handle with isWrite := false } w :=
    .start { handle with isWrite := false } w
  unfold close
  rw [Code.wp_bind, Code.wp_get, Code.outcome_ok, Code.wp_when]
  refine ⟨?_, ?_⟩
  · intro hwrite
    rw [Code.wp_bind, Code.wp_modify, Code.outcome_ok]
    split
    · rename_i hfailed
      refine Code.wp_mono (keeps_abortUpload hR _ w hstart) ?_
      intro out h' w' hkept
      refine hkept.closed fun _ => ?_
      unfold WriteHandle.publication
      rw [hwrite, hfailed]
      rfl
    · rename_i hfailed
      rw [Code.wp_bind, Code.wp_onError]
      unfold uploadHandleContents
      rw [Code.wp_bind, Code.wp_get, Code.outcome_ok]
      simp only
      split
      · rename_i buf hsound hbuf
        have hdue : { handle with isWrite := false }.dueFor w buf = handle.publication w := by
          unfold WriteHandle.publication
          rw [hwrite, hsound, hbuf]
          rfl
        rw [Code.wp_bind]
        refine Code.wp_mono (wp_publish_due hR buf) ?_
        intro out h₁ w₁ ⟨htarget, hclosed, hpublished, hreported⟩
        rw [hdue] at hpublished hreported
        cases out with
        | error e =>
            have hfail := WritesFor.start h₁ w₁
            rw [htarget, hclosed] at hfail
            refine Code.wp_mono (keeps_failWrite hR _ _ hfail) ?_
            intro out h₂ w₂ hend
            cases out with
            | error e' => exact ⟨hend.isWrite, hpublished.afterwards hend, nofun⟩
            | ok _ => exact ⟨hend.isWrite, hpublished.afterwards hend, nofun⟩
        | ok resp =>
            obtain ⟨u, size, file, hu, hparse, hpublishes⟩ := hreported resp rfl
            rw [Code.outcome_ok, hparse]
            refine ⟨hclosed, hpublished, ?_⟩
            intro _ u' hu'
            rw [hu] at hu'
            cases hu'
            exact ⟨size, hpublishes⟩
      · rename_i hnothing
        have hnone : handle.publication w = none := by
          unfold WriteHandle.publication
          cases hupload : handle.upload with
          | none => cases handle.isWrite && !handle.writeFailed <;> rfl
          | some buf => exact absurd hupload (hnothing buf (by simpa using hfailed))
        have hclosed : Closed w handle (.ok ()) { handle with isWrite := false } w :=
          hstart.closed fun _ => hnone
        exact ⟨hclosed.isWrite, hclosed.done, hclosed.reported⟩
  · intro hwrite
    refine ⟨hwrite, ⟨.inl ⟨rfl, rfl, rfl⟩, .inl⟩, ?_⟩
    intro _ u hu
    unfold WriteHandle.publication at hu
    rw [hwrite] at hu
    cases hu

end Writing

end GDrive
