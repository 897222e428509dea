/-
Unique names over whole runs: opening for writing, writing, closing, moving
and making directories, with any number of handles open at once.

# What looks before it creates

A missing folder is made only where nothing has its name, and a move deals
with what has the target's (`wp_openFileForWriting_coherent`,
`wp_moveFile_coherent`): these keep the names unique wherever they start.
`CreateDirectory` does not look, and `Close` publishes where `OpenFile`
looked when the handle was opened. For these the name has to be free when
they run (`TreeOp.Clear`).

# The run

The invariant is that no name is ambiguous and that the path cache agrees
with the tree (`Coherent`), which is how the parent of a directory to be made
is known from its path.
-/
import GDrive.Fs.EnsureParents
import GDrive.Fs.FolderWalk
import GDrive.Fs.Survival

namespace GDrive

open Interaction Naming

-- ================================================================ the operations

/-- The path cache, and the handles opened for writing in their order. -/
structure ExtensionState where
  cache : PathCache := {}
  handles : List WriteHandle := []

abbrev ExtensionCode (α : Type) := Code Client Exn ExtensionState α

namespace ExtensionState

def onCache {α : Type} (c : CacheCode α) : ExtensionCode α :=
  Code.zoom ExtensionState.cache (fun cache s => { s with cache }) c

/-- An operation on the `k`-th handle. -/
def onHandle (k : Nat) (c : WriteCode Unit) : ExtensionCode Unit :=
  fun s =>
    match s.handles[k]? with
    | some h => (c h).bind fun r => .ret (r.1, { s with handles := s.handles.set k r.2 })
    | none => .ret (.ok (), s)

end ExtensionState

/-- The operations that change the tree. -/
inductive TreeOp
  | openForWriting (o : Opener) (path : Str)
  | write (k : Nat) (data : Str)
  | close (k : Nat)
  | moveFile (o : Opener) (source target : Str)
  | createDirectory (o : Opener) (directory : Str)

/-- What the handle's `Close` publishes: with the last chunk what the open
session is for, by one request what the handle was opened for. -/
def WriteHandle.publication (h : WriteHandle) (w : World) : Option OpenUpload :=
  match h.isWrite && !h.writeFailed, h.upload with
  | true, some buf =>
      match buf.onClose with
      | .finalChunk => w.sessions h.uploadSession
      | .singleRequest => some ⟨h.file.id, h.writeParentId, h.writeName⟩
  | _, _ => none

namespace TreeOp

def body (pj : Picojson) (rounds : Nat) : TreeOp → ExtensionCode Unit
  | .openForWriting o path => do
      let h ← ExtensionState.onCache (openFileForWriting pj rounds o path)
      Code.modify fun s => { s with handles := s.handles ++ [h] }
  | .write k data => ExtensionState.onHandle k (GDrive.write data)
  | .close k => ExtensionState.onHandle k (GDrive.close pj)
  | .moveFile o source target => ExtensionState.onCache (GDrive.moveFile pj rounds o source target)
  | .createDirectory o directory =>
      ExtensionState.onCache (GDrive.createDirectory pj rounds o directory)

/-- An operation of the identity whose files are given by their paths. -/
def PathForm (auth : AuthContext) : TreeOp → Prop
  | .openForWriting o path => o.auth = auth ∧ IsPathForm path
  | .write _ _ | .close _ => True
  | .moveFile o source target => o.auth = auth ∧ IsPathForm source ∧ IsPathForm target
  | .createDirectory o directory => o.auth = auth ∧ IsPathForm directory

/-- The name is free where the operation does not look: for a file that a
`Close` makes, for a directory in the folder that its parent's text leads to.
A file that a `Close` overwrites still has the name it was opened under; a
move's target is no path whose parent's text would be read as an id. -/
def Clear (op : TreeOp) (s : ExtensionState) (w : World) : Prop :=
  match op with
  | .openForWriting _ _ | .write _ _ => True
  | .close k => ∀ h u, s.handles[k]? = some h → h.publication w = some u → w.Admits u
  | .moveFile _ _ target => ¬SlashedId target
  | .createDirectory _ directory => ∀ uri p, parseGDriveUri directory = .ok uri →
      w.ParentOf uri.parentPath p → w.named p uri.fileName = []

end TreeOp

section SiblingNames

variable {pj : Picojson} {rounds : Nat} {auth : AuthContext} {o : Opener} {R : Rel Client World}
  {w w' : World} {c : PathCache}

-- ================================================================ opening to write

theorem keptByWalks_coherent (auth : AuthContext) :
    KeptByWalks auth (fun _ _ _ => True) SameId (Coherent auth) :=
  ⟨fun h => h.agrees, fun h => h.root, fun h hc' => h.same_cache hc', fun _ _ _ => trivial,
    fun h hcreates _ hfree _ => h.creates hcreates hfree⟩

/-- Opening for writing keeps the names unique. -/
theorem wp_openFileForWriting_coherent
    (hR : ∀ w q r w', R w q r w' → treeRel pj (fun _ => False) w q r w') (hrounds : 1 ≤ rounds)
    (h : Coherent o.auth c w) (path : Str) :
    Code.wp (fsEnv R) (openFileForWriting pj rounds o path)
      (fun _ c' w' => Coherent o.auth c' w') c w :=
  Code.wp_mono (wp_openFileForWriting_kept hR hrounds (keptByWalks_coherent _) h path)
    fun _ _ _ hopened => hopened.1

-- ==================================================================== the tree

/-- `CreateDirectory` keeps the names unique where its own is free. -/
theorem wp_createDirectory_coherent
    (hR : ∀ w q r w', R w q r w' → treeRel pj (fun _ => False) w q r w') (hrounds : 1 ≤ rounds)
    (h : Coherent o.auth c w) {directory : Str}
    (hfree : ∀ uri p, parseGDriveUri directory = .ok uri → w.ParentOf uri.parentPath p →
      w.named p uri.fileName = []) :
    Code.wp (fsEnv R) (createDirectory pj rounds o directory)
      (fun _ c' w' => Coherent o.auth c' w') c w := by
  unfold createDirectory parsedUri
  rw [Code.wp_bind]
  split
  · exact h
  · rename_i uri hparse
    have hfree := hfree uri
    rw [Code.wp_pure, Code.outcome_ok]
    unfold mutateCreateDirectory
    split
    · exact h
    · exact h
    · rename_i s rest
      rw [Code.wp_bind]
      refine Code.wp_mono (wp_resolveParentId hR hrounds h.root (knows_agree w)
        (parentPath_ne_nil _) h.agrees) ?_
      intro out c₁ w₁ ⟨hw, hagrees, hparent⟩
      subst hw
      have h₁ := h.same_cache hagrees
      cases out with
      | error e => exact h₁
      | ok p =>
          have hp := hparent p rfl
          rw [Code.outcome_ok, Code.wp_bind, wp_call]
          refine ⟨trivial, ?_⟩
          intro r w₂ hr
          obtain ⟨resp, file, rfl, hok, hname, -, hcreates⟩ := treeRel_newFolder (hR _ _ _ _ hr)
          have hmade : Coherent o.auth c₁ w₂ := by
            refine h₁.creates hcreates ?_
            rw [hname, deref_of_parentOf hp]
            exact hfree p hparse hp
          rw [Code.outcome_ok, Code.wp_bind, Code.wp_when, hok]
          exact ⟨nofun, fun _ => hmade.same_cache (hmade.agrees.invalidatePrefix _)⟩

/-- A move between paths keeps the names unique. -/
theorem wp_moveFile_coherent
    (hR : ∀ w q r w', R w q r w' → treeRel pj (fun _ => False) w q r w') (hrounds : 1 ≤ rounds)
    (h : Coherent o.auth c w) {source target : Str} (hsource : IsPathForm source)
    (htarget : ¬SlashedId target) :
    Code.wp (fsEnv R) (moveFile pj rounds o source target)
      (fun _ c' w' => Coherent o.auth c' w') c w := by
  unfold moveFile parsedUri
  rw [Code.wp_bind]
  split
  · exact h
  · rename_i src hsrc
    rw [Code.wp_pure, Code.outcome_ok, Code.wp_bind]
    split
    · exact h
    · rename_i dst hdst
      rw [Code.wp_pure, Code.outcome_ok]
      refine wp_mutateMoveFile_plan hR hrounds h.root (knows_agree w) (clean_of_parse hsrc) h.agrees
        trivial
        (fun e c' h' => h.same_cache h') ?_
      intro x p oldParent c₁ hplan h₁
      refine Code.wp_mono (wp_moveAndDelete_over hR (fun _ h => h.elim) oldParent hplan.single) ?_
      intro out c₂ w₂ ⟨hc, hmove⟩
      rw [hc]
      exact hplan.coherent hsrc hdst hsource htarget hmove (h.same_cache h₁)

-- ================================================================== the handles

/-- The calls of a write handle that publish nothing. -/
def PublishesNothing : CallReq → Prop
  | .generateFileId | .startResumableUpload _ _ _ _ | .cancelUpload _ => True
  | .uploadChunk _ _ final => final = false
  | _ => False

theorem PublishesNothing.coherent {q : CallReq} {r : Except Exn DriveResponse}
    (hq : PublishesNothing q) (h : Coherent auth c w) (hr : treeRel pj (fun _ => False) w q r w') :
    Coherent auth c w' := by
  refine h.same_nodes ?_
  have hne : ∀ id, q ≠ .getMetadata id := by
    intro id heq
    rw [heq] at hq
    exact hq
  obtain ⟨resp, -, -, hsucceeds⟩ := treeRel_succeeds hr id hne
  match q with
  | .generateFileId =>
      obtain rfl : w' = w := hsucceeds
      exact ⟨rfl, rfl, rfl⟩
  | .startResumableUpload _ _ _ _ => exact hsucceeds.2.2.1
  | .cancelUpload _ => exact hsucceeds.1
  | .uploadChunk _ _ true => cases hq
  | .uploadChunk _ _ false =>
      obtain rfl : w' = w := hsucceeds
      exact ⟨rfl, rfl, rfl⟩

theorem asks_throwUploadError (error : GDriveError) :
    Code.Asks PublishesNothing (throwUploadError error) :=
  Code.asks_bind Code.asks_get fun _ => Code.asks_throw _

theorem asks_sendUploadChunk (buf : ChunkedUploadBuffer) :
    Code.Asks PublishesNothing (sendUploadChunk buf) := by
  unfold sendUploadChunk openSession
  refine Code.asks_bind ?_ fun _ => Code.asks_bind Code.asks_get fun h => ?_
  · refine Code.asks_bind Code.asks_get fun h => Code.asks_when _ ?_
    refine Code.asks_bind (asks_call trivial) fun start => ?_
    exact Code.asks_bind (Code.asks_when _ (asks_throwUploadError _)) fun _ => Code.asks_modify _
  · refine Code.asks_bind (asks_call rfl) fun resp => ?_
    exact Code.asks_bind (Code.asks_when _ (asks_throwUploadError _)) fun _ => Code.asks_modify _

theorem asks_abortUpload : Code.Asks PublishesNothing abortUpload := by
  unfold abortUpload
  refine Code.asks_bind Code.asks_get fun h => Code.asks_when _ ?_
  refine Code.asks_bind (Code.asks_modify _) fun _ => ?_
  exact Code.asks_tryCatch (Code.asks_bind (asks_call trivial) fun _ => Code.asks_pure _)
    fun _ => Code.asks_pure _

theorem asks_failWrite : Code.Asks PublishesNothing failWrite :=
  Code.asks_bind (Code.asks_modify _) fun _ => asks_abortUpload

theorem asks_writeLoop (rounds : Nat) (data : Str) :
    Code.Asks PublishesNothing (writeLoop rounds data) := by
  induction rounds generalizing data with
  | zero =>
      cases data with
      | nil => exact Code.asks_pure _
      | cons c data => exact Code.asks_cut
  | succ rounds ih =>
      cases data with
      | nil => exact Code.asks_pure _
      | cons c data =>
          unfold writeLoop makeRoom fillBuffer
          refine Code.asks_bind (Code.asks_bind Code.asks_get fun h => ?_) fun _ =>
            Code.asks_bind (Code.asks_bind Code.asks_get fun h => ?_) fun rest => ih rest
          · split
            · exact Code.asks_pure _
            · exact Code.asks_when _ (asks_sendUploadChunk _)
          · split
            · exact Code.asks_pure _
            · exact Code.asks_bind (Code.asks_modify _) fun _ => Code.asks_pure _

theorem asks_write (data : Str) : Code.Asks PublishesNothing (write data) := by
  unfold write
  refine Code.asks_bind Code.asks_get fun h => ?_
  split
  · exact Code.asks_throw _
  · split
    · exact Code.asks_throw _
    · exact Code.asks_bind (Code.asks_onError (asks_writeLoop _ _) asks_failWrite)
        fun _ => Code.asks_modify _

/-- What publishes nothing changes no name. -/
theorem wp_publishesNothing (hR : ∀ w q r w', R w q r w' → treeRel pj (fun _ => False) w q r w')
    {code : WriteCode Unit} (hcode : Code.Asks PublishesNothing code) {handle : WriteHandle}
    (h : Coherent auth c w) :
    Code.wp (.ofRel R fun _ => True) code (fun _ _ w' => Coherent auth c w') handle w := by
  refine Code.wp_of_asks hcode ?_ h
  intro w q r w' hq h hr
  exact hq.coherent h (hR _ _ _ _ hr)

/-- The publication of a `Close`. -/
theorem wp_publish_coherent (hR : ∀ w q r w', R w q r w' → treeRel pj (fun _ => False) w q r w')
    {handle : WriteHandle} {buf : ChunkedUploadBuffer} (h : Coherent auth c w)
    (hchunk : buf.onClose = .finalChunk → ∀ u, w.sessions handle.uploadSession = some u → w.Admits u)
    (hsingle : buf.onClose = .singleRequest →
      w.Admits ⟨handle.file.id, handle.writeParentId, handle.writeName⟩) :
    Code.wp (.ofRel R fun _ => True) (publish pj buf) (fun _ _ w' => Coherent auth c w') handle w := by
  unfold publish
  split
  · rename_i haction
    unfold publishFinalChunk
    rw [Code.wp_bind, Code.wp_get, Code.outcome_ok, Code.wp_bind, wp_call]
    refine ⟨trivial, ?_⟩
    intro r w₁ hr
    obtain ⟨resp, rfl, hok, u, file, hsession, -, hpublishes, -⟩ :=
      treeRel_succeeds (hR _ _ _ _ hr) id nofun
    rw [Code.outcome_ok, Code.wp_bind, Code.wp_when, hok]
    exact ⟨nofun, fun _ => h.publishes hpublishes (hchunk haction u hsession)⟩
  · rename_i haction
    have hreserve : Code.wp (.ofRel R fun _ => True) (reserveId pj)
        (fun _ h' w' => h' = handle ∧ w' = w) handle w := by
      unfold reserveId
      rw [Code.wp_bind, Code.wp_get, Code.outcome_ok]
      split
      · rw [Code.wp_bind, wp_call]
        refine ⟨trivial, ?_⟩
        intro r w₁ hr
        obtain ⟨resp, rfl, -, hsame⟩ := treeRel_succeeds (hR _ _ _ _ hr) id nofun
        exact ⟨rfl, hsame⟩
      · exact ⟨rfl, rfl⟩
    unfold publishSingleRequest
    rw [Code.wp_bind]
    refine Code.wp_mono hreserve ?_
    intro out h' w₁ ⟨hhandle, hw⟩
    subst hhandle hw
    cases out with
    | error e => exact h
    | ok reserved =>
        rw [Code.outcome_ok, Code.wp_bind, Code.wp_get, Code.outcome_ok, Code.wp_bind, wp_call]
        refine ⟨trivial, ?_⟩
        intro r w₂ hr
        obtain ⟨resp, rfl, hok, -, file, -, hpublishes⟩ := treeRel_succeeds (hR _ _ _ _ hr) id nofun
        rw [Code.outcome_ok, Code.wp_bind, Code.wp_when, hok]
        rw [show makesFolder octetStream = false by decide +kernel] at hpublishes
        exact ⟨nofun, fun _ => h.publishes hpublishes (hsingle haction)⟩

theorem WriteHandle.publication_finalChunk {h : WriteHandle} {buf : ChunkedUploadBuffer}
    (hwrite : h.isWrite = true) (hfailed : h.writeFailed = false) (hbuf : h.upload = some buf)
    (haction : buf.onClose = .finalChunk) : h.publication w = w.sessions h.uploadSession := by
  unfold WriteHandle.publication
  rw [hwrite, hfailed, hbuf]
  simp only [Bool.not_false, Bool.and_self, haction]

theorem WriteHandle.publication_singleRequest {h : WriteHandle} {buf : ChunkedUploadBuffer}
    (hwrite : h.isWrite = true) (hfailed : h.writeFailed = false) (hbuf : h.upload = some buf)
    (haction : buf.onClose = .singleRequest) :
    h.publication w = some ⟨h.file.id, h.writeParentId, h.writeName⟩ := by
  unfold WriteHandle.publication
  rw [hwrite, hfailed, hbuf]
  simp only [Bool.not_false, Bool.and_self, haction]

theorem wp_uploadHandleContents_coherent
    (hR : ∀ w q r w', R w q r w' → treeRel pj (fun _ => False) w q r w')
    {handle : WriteHandle} (h : Coherent auth c w)
    (hclear : ∀ u, { handle with isWrite := true }.publication w = some u → w.Admits u) :
    Code.wp (.ofRel R fun _ => True) (uploadHandleContents pj)
      (fun _ _ w' => Coherent auth c w') handle w := by
  unfold uploadHandleContents
  rw [Code.wp_bind, Code.wp_get, Code.outcome_ok]
  split
  · rename_i buf hfailed hbuf
    rw [Code.wp_bind]
    refine Code.wp_mono (wp_publish_coherent hR h ?_ ?_) ?_
    · intro haction u hu
      have hpublication := WriteHandle.publication_finalChunk (w := w)
        (h := { handle with isWrite := true }) rfl hfailed hbuf haction
      exact hclear u (hpublication.trans hu)
    · intro haction
      exact hclear _ (WriteHandle.publication_singleRequest (h := { handle with isWrite := true })
        rfl hfailed hbuf haction)
    · intro out h' w' hpublished
      cases out with
      | error e => exact hpublished
      | ok resp =>
          rw [Code.outcome_ok]
          split
          · exact hpublished
          · exact hpublished
  · exact h

/-- `Close` keeps the names unique where what it publishes is admitted. -/
theorem wp_close_coherent (hR : ∀ w q r w', R w q r w' → treeRel pj (fun _ => False) w q r w')
    {handle : WriteHandle} (h : Coherent auth c w)
    (hclear : ∀ u, handle.publication w = some u → w.Admits u) :
    Code.wp (.ofRel R fun _ => True) (close pj) (fun _ _ w' => Coherent auth c w') handle w := by
  unfold close
  rw [Code.wp_bind, Code.wp_get, Code.outcome_ok, Code.wp_when]
  refine ⟨?_, fun _ => h⟩
  intro hwrite
  rw [Code.wp_bind, Code.wp_modify, Code.outcome_ok]
  split
  · exact wp_publishesNothing hR asks_abortUpload h
  · rw [Code.wp_bind, Code.wp_onError]
    have hcontents : Code.wp (.ofRel R fun _ => True) (uploadHandleContents pj)
        (fun _ _ w' => Coherent auth c w') { handle with isWrite := false } w := by
      refine wp_uploadHandleContents_coherent hR h ?_
      intro u hu
      refine hclear u ?_
      rw [← hu, ← hwrite]
    refine Code.wp_mono hcontents ?_
    intro out h' w' hpublished
    cases out with
    | error e =>
        refine Code.wp_mono (wp_publishesNothing hR asks_failWrite hpublished) ?_
        intro out h'' w'' hend
        cases out with
        | error e => exact hend
        | ok _ => exact hend
    | ok _ => exact hpublished

-- ====================================================================== the run

/-- Each operation that meets its condition keeps the names unique. -/
theorem TreeOp.wp_body (hR : ∀ w q r w', R w q r w' → treeRel pj (fun _ => False) w q r w')
    (hrounds : 1 ≤ rounds) {op : TreeOp} {s : ExtensionState} (h : Coherent auth s.cache w)
    (hform : op.PathForm auth) (hclear : op.Clear s w) :
    Code.wp (.ofRel R fun _ => True) (op.body pj rounds)
      (fun _ s' w' => Coherent auth s'.cache w') s w := by
  -- An operation on a handle leaves the path cache alone.
  have honHandle : ∀ {k : Nat} {code : WriteCode Unit},
      (∀ handle, s.handles[k]? = some handle → Code.wp (.ofRel R fun _ => True) code
        (fun _ _ w' => Coherent auth s.cache w') handle w) →
      Code.wp (.ofRel R fun _ => True) (ExtensionState.onHandle k code)
        (fun _ s' w' => Coherent auth s'.cache w') s w := by
    intro k code hcode
    unfold Code.wp ExtensionState.onHandle
    split
    · rename_i handle hhandle
      rw [Env.wp_bind]
      exact hcode handle hhandle
    · exact h
  cases op with
  | openForWriting o path =>
      obtain ⟨rfl, -⟩ := hform
      unfold TreeOp.body ExtensionState.onCache
      rw [Code.wp_bind, Code.wp_zoom]
      refine Code.wp_mono (Code.wp_of_total (wp_openFileForWriting_coherent hR hrounds h path)) ?_
      intro out c' w' hopened
      cases out with
      | error e => exact hopened
      | ok handle => exact hopened
  | write k data =>
      refine honHandle ?_
      intro handle _
      exact wp_publishesNothing hR (asks_write data) h
  | close k =>
      refine honHandle ?_
      intro handle hhandle
      exact wp_close_coherent hR h fun u => hclear handle u hhandle
  | moveFile o source target =>
      obtain ⟨rfl, hsource, -⟩ := hform
      unfold TreeOp.body ExtensionState.onCache
      rw [Code.wp_zoom]
      exact Code.wp_of_total (wp_moveFile_coherent hR hrounds h hsource hclear)
  | createDirectory o directory =>
      obtain ⟨rfl, -⟩ := hform
      unfold TreeOp.body ExtensionState.onCache
      rw [Code.wp_zoom]
      exact Code.wp_of_total (wp_createDirectory_coherent hR hrounds h hclear)

/-- From a tree with unique names, runs whose operations all meet their
condition lead to trees with unique names. -/
theorem sibling_names_stay_unique {start : World} (hrounds : 1 ≤ rounds)
    (hroot : rootFolderFor auth = start.rootAlias) (hstart : start.UniqueNames)
    {past : List (TreeOp × Except Exn Unit)} {s : ExtensionState}
    (hrun : Guarded (treeRel pj fun _ => False) (TreeOp.body pj rounds)
      (fun op s w => op.PathForm auth ∧ op.Clear s w) {} start past s w) : w.UniqueNames := by
  have hcoherent : Coherent auth s.cache w := by
    refine hrun.inv (I := fun s w => Coherent auth s.cache w) ?_ ⟨hstart, cacheInv_empty, hroot⟩
    intro op s w h hguard
    exact TreeOp.wp_body (fun _ _ _ _ hr => hr) hrounds h hguard.1 hguard.2
  exact hcoherent.unique

end SiblingNames

-- ========================================================== a directory made twice

section Again

def createA : TreeOp := .createDirectory me (str "gdrive://a")

/-- `CreateDirectory` of `a`, from a state. -/
def createAFrom (s : ExtensionState) : Prog Client (Except Exn Unit × ExtensionState) :=
  createA.body madeJson 1 s

/-- The state a run ends in. -/
def lastState (p : Prog Client (Except Exn Unit × ExtensionState)) : ExtensionState :=
  ((ended p).map (·.2)).getD {}

/-- The extension once it has made `a`. -/
def withA : ExtensionState := lastState ((createAFrom {}).play making 0).1

theorem reaches_createA (s : ExtensionState) (n m : Nat)
    (hanswered : answered making (createAFrom s) n = true)
    (hreturned : (ended ((createAFrom s).play making n).1).map (·.1.isOk) = some true)
    (hplayed : ((createAFrom s).play making n).2 = m) :
    Reaches (treeRel madeJson fun _ => False) (createAFrom s) (madeTrees n)
      (.ret (.ok (), lastState ((createAFrom s).play making n).1)) (madeTrees m) := by
  have hrun := reaches_answered making_truthful hanswered
  obtain ⟨⟨out, s'⟩, hend, hok⟩ := Option.map_eq_some_iff.mp hreturned
  cases out with
  | error e => cases hok
  | ok _ =>
      unfold lastState
      rw [hend]
      rw [eq_ret_of_ended hend, hplayed] at hrun
      exact hrun

theorem createA_pathForm : createA.PathForm me.auth := by
  refine ⟨rfl, ?_⟩
  intro id hid
  have hparse : parseGDriveUri (str "gdrive://a") = .ok (.path [str "a"]) := by decide +kernel
  rw [hparse] at hid
  cases hid

theorem reaches_firstA : Reaches (treeRel madeJson fun _ => False) (createAFrom {}) (madeTrees 0)
    (.ret (.ok (), withA)) (madeTrees 1) :=
  reaches_createA {} 0 1 (by decide +kernel) (by decide +kernel) (by decide +kernel)

/-- The second `CreateDirectory` of a path makes a second directory. -/
theorem create_directory_twice : ∃ s,
    History (treeRel madeJson fun _ => False) (TreeOp.body madeJson 1) {} (madeTrees 0)
      [(createA, .ok ()), (createA, .ok ())] s (madeTrees 2) ∧
    createA.PathForm me.auth ∧ (madeTrees 0).UniqueNames ∧ ¬(madeTrees 2).UniqueNames := by
  have hsecond := reaches_createA withA 1 2 (by decide +kernel) (by decide +kernel)
    (by decide +kernel)
  refine ⟨_, .snoc (.snoc .nil reaches_firstA) hsecond, createA_pathForm, madeTrees_unique, ?_⟩
  intro hunique
  have htwo : ((madeTrees 2).named (str "R") (str "a")).length = 2 := by decide +kernel
  have hone := hunique (str "R") (str "a")
  omega

/-- The first finds its name free. -/
theorem sibling_names_stay_unique_once :
    Guarded (treeRel madeJson fun _ => False) (TreeOp.body madeJson 1)
      (fun op s w => op.PathForm me.auth ∧ op.Clear s w) {} (madeTrees 0) [(createA, .ok ())]
      withA (madeTrees 1) ∧ (madeTrees 1).UniqueNames := by
  have hrun : Guarded (treeRel madeJson fun _ => False) (TreeOp.body madeJson 1)
      (fun op s w => op.PathForm me.auth ∧ op.Clear s w) {} (madeTrees 0) [(createA, .ok ())]
      withA (madeTrees 1) :=
    .snoc .nil ⟨createA_pathForm, fun _ _ _ _ => rfl⟩ reaches_firstA
  exact ⟨hrun, sibling_names_stay_unique le_rfl rfl madeTrees_unique hrun⟩

end Again

end GDrive
