/-
The client's calls over the wire are the calls of the tree.

Whatever is lost, refused, repeated or answered in pages on the way: a call
over HTTP against `Service` comes out as `treeRel` says a call may
(`client_simulates`). A change that may be repeated is made once, since it
cannot be made twice (`wp_change`); a create that Drive answers as a duplicate
is the client's own.
-/
import GDrive.Fs.Service
import GDrive.Interaction.Refinement
import GDrive.Write.Calls

namespace GDrive

open Interaction

-- ================================================= the tree without its sessions

section Sessions

variable {w w' : World} {f g : Str → Option OpenUpload}

theorem World.Becomes.withSessions {nodes : List Node} (h : w.Becomes nodes w') :
    (w.withSessions f).Becomes nodes (w'.withSessions g) :=
  ⟨h.nodes, h.rootId, h.rootAlias⟩

theorem World.Publishes.withSessions {u : OpenUpload} {folder : Bool} {size : Nat}
    {file : DriveFileMeta} (h : w.Publishes u folder size file w') :
    (w.withSessions f).Publishes u folder size file (w'.withSessions g) := by
  obtain ⟨hkind, hnative, hsize, hplace⟩ := h
  refine ⟨hkind, hnative, hsize, ?_⟩
  split
  · rename_i hnew
    rw [if_pos hnew] at hplace
    exact ⟨hplace.1, hplace.2.1, hplace.2.2.withSessions⟩
  · rename_i hold
    rw [if_neg hold] at hplace
    exact ⟨hplace.1, hplace.2.1, hplace.2.2.1, hplace.2.2.2.withSessions⟩

theorem World.Removes.withSessions {id : Str} {permanent : Bool} (h : w.Removes id permanent w') :
    (w.withSessions f).Removes id permanent (w'.withSessions g) := by
  obtain ⟨hnode, gone, hgone, hbecomes⟩ := h
  exact ⟨hnode, gone, hgone, hbecomes.withSessions⟩

theorem World.Moves.withSessions {id newParentId newName : Str}
    (h : w.Moves id newParentId newName w') :
    (w.withSessions f).Moves id newParentId newName (w'.withSessions g) :=
  ⟨h.1, h.2.withSessions⟩

/-- Where a file that is overwritten lies is not asked for. -/
theorem World.Publishes.retarget {u u' : OpenUpload} {folder : Bool} {size size' : Nat}
    {file : DriveFileMeta} (h : w.Publishes u folder size file w') (hid : u'.fileId = u.fileId)
    (hname : u'.name = u.name) (hparent : u.fileId = [] → u'.parentId = u.parentId)
    (hsize : folder = false → size' = size) : w.Publishes u' folder size' file w' := by
  obtain ⟨hkind, hnative, hbytes, hplace⟩ := h
  refine ⟨hkind, hnative, fun hfile => by rw [hsize hfile]; exact hbytes hfile, ?_⟩
  rw [hid, hname]
  split
  · rename_i hnew
    rw [if_pos hnew] at hplace
    rw [hparent (List.isEmpty_iff.mp hnew)]
    exact hplace
  · rename_i hold
    rw [if_neg hold] at hplace
    exact hplace

end Sessions

-- ================================================================ one logical call

section Calls

variable {pj : Picojson} {cursor : World → DriveQuery → Str → List DriveFileMeta} {v v' : Service}

def serviceEnv (pj : Picojson) (cursor : World → DriveQuery → Str → List DriveFileMeta) :
    Env Wire Service :=
  .ofRel (serviceRel pj cursor) fun _ => True

theorem serviceEnv_quiet {q : WireReq} {P : Wire.Ans q → Service → Prop} (hq : q.quiet = true)
    (hP : ∀ ans, P ans v) : (serviceEnv pj cursor).ask q P v :=
  (serviceRel_quiet pj cursor).ask q P hq trivial hP

/-- What a response says about the reply it was made from. -/
theorem responseOf_succeeds (op : DriveOp) {flag : Bool} {raw : RawResult}
    (h : (responseOf pj op op.success flag raw).ok = true) :
    raw.succeeds op ∧ (responseOf pj op op.success flag raw).body = raw.body ∧
      (responseOf pj op op.success flag raw).location = raw.location := by
  unfold responseOf at h ⊢
  split at h
  · cases h
  · rename_i hok
    split at h
    · rename_i hstatus
      rw [if_neg hok, if_pos hstatus]
      exact ⟨⟨by simpa using hok, hstatus⟩, rfl, rfl⟩
    · cases h

theorem responseOf_fails (op : DriveOp) {flag : Bool} {raw : RawResult}
    {kind : GDriveErrorKind} (hkind : kind ≠ .transient)
    (h : (responseOf pj op op.success flag raw).ok = false)
    (herror : (responseOf pj op op.success flag raw).error.kind = kind) :
    FailsAs pj op raw kind := by
  unfold responseOf at h herror
  split at h
  · rename_i hok
    rw [if_pos hok] at herror
    exact absurd herror.symm hkind
  · rename_i hok
    rw [if_neg hok] at herror
    split at h
    · cases h
    · rename_i hstatus
      rw [if_neg hstatus] at herror
      exact ⟨by simpa using hok, hstatus, herror⟩

/-- A call of requests that change nothing. -/
theorem wp_lookup (op : DriveOp) (hop : ∀ v raw v', Answers pj cursor v op raw v' → v' = v)
    (flag : Bool) (depth : Nat) (v : Service) :
    (serviceEnv pj cursor).wp (executeWithRetry pj op op.success flag depth)
      (fun r v' => v' = v ∧ ∀ resp, r = .ok resp → ∃ raw, Answers pj cursor v op raw v ∧
        resp = responseOf pj op op.success flag raw) v := by
  refine wp_executeWithRetry (I := fun v' => v' = v) ?_ ?_ ?_ ?_ depth rfl
  · exact fun _ _ => trivial
  · exact fun q P v' hq _ hP => serviceEnv_quiet hq hP
  · exact fun e v' hI => ⟨hI, nofun⟩
  · rintro accessToken v' rfl
    refine ⟨trivial, ?_⟩
    intro (raw : RawResult) v'' hv
    obtain rfl : v'' = v' := hop v' raw v'' hv
    refine ⟨fun _ => rfl, rfl, ?_⟩
    intro resp hr
    cases hr
    exact ⟨raw, hv, rfl⟩

/-- A request that has been applied, and its body. -/
def Service.Applied (pj : Picojson) (v : Service) (op : DriveOp) (body : Str) (v' : Service) :
    Prop :=
  v'.sessions = v.sessions ∧ v.tree.Applies pj op body v'.tree

/-- How a call that asks for a change ends: it has been made, and this is the
answer to it; or the call failed, and it may have been made. -/
def ChangeEnds (pj : Picojson) (v : Service) (op : DriveOp) (r : Except Exn DriveResponse)
    (v' : Service) : Prop :=
  (∃ resp, r = .ok resp ∧ resp.ok = true ∧ v.Applied pj op resp.body v') ∨
    ((∀ resp, r = .ok resp → resp.ok = false ∧ (resp.httpStatus = 409 →
        ∀ id, op.reservedId = some id → ¬v'.tree.Unused id)) ∧
      (v' = v ∨ ∃ body, v.Applied pj op body v'))

theorem wp_change (op : DriveOp)
    (hop : ∀ v raw v', Answers pj cursor v op raw v' → Changes pj v op raw v')
    {flag : Bool} (depth : Nat) {v : Service}
    (honce : mayRetry op flag = true → ∀ body v₁ body' v₂, v.Applied pj op body v₁ →
      ¬v₁.Applied pj op body' v₂) :
    (serviceEnv pj cursor).wp (executeWithRetry pj op op.success flag depth)
      (ChangeEnds pj v op) v := by
  -- Before a request: nothing yet, or an earlier one was applied and may be repeated.
  refine wp_executeWithRetry
    (I := fun v' => v' = v ∨ (mayRetry op flag = true ∧ ∃ body, v.Applied pj op body v'))
    ?_ ?_ ?_ ?_ depth (.inl rfl)
  · exact fun _ _ => trivial
  · exact fun q P v' hq _ hP => serviceEnv_quiet hq hP
  · exact fun e v' hI => .inr ⟨nofun, hI.imp id And.right⟩
  · intro accessToken v₁ hI
    refine ⟨trivial, ?_⟩
    intro (raw : RawResult) v₂ hv
    obtain ⟨hduplicate, hchange⟩ := hop v₁ raw v₂ hv
    have hstatus : (responseOf pj op op.success flag raw).httpStatus = 409 →
        ∀ id, op.reservedId = some id → ¬v₂.tree.Unused id := by
      intro h409 id hid
      obtain ⟨rfl, hused⟩ := hduplicate (responseOf_status (by decide) h409) id hid
      exact hused
    have hfails : (responseOf pj op op.success flag raw).ok = false →
        (v₂ = v ∨ ∃ body, v.Applied pj op body v₂) →
        ChangeEnds pj v op (.ok (responseOf pj op op.success flag raw)) v₂ := by
      intro hok hmade
      refine .inr ⟨?_, hmade⟩
      rintro resp hr
      cases hr
      exact ⟨hok, hstatus⟩
    rcases hchange with ⟨rfl, hnot⟩ | ⟨hsessions, hauth, body, happlies, hbody⟩
    · -- Not applied.
      refine ⟨fun _ => hI, hfails ?_ (hI.imp id And.right)⟩
      rw [Bool.eq_false_iff]
      exact fun hok => hnot (responseOf_succeeds op hok).1
    · -- Applied, so no earlier one was.
      obtain rfl : v₁ = v := by
        rcases hI with rfl | ⟨hmay, body', hearlier⟩
        · rfl
        · exact absurd ⟨hsessions, happlies⟩ (honce hmay body' v₁ body v₂ hearlier)
      have happlied : v₁.Applied pj op body v₂ := ⟨hsessions, happlies⟩
      constructor
      · intro hgo
        refine .inr ⟨?_, body, happlied⟩
        unfold GoesOn at hgo
        split at hgo
        · exact hgo
        · rename_i hdelivered
          obtain ⟨hfailed, hkind | ⟨-, hmay⟩⟩ := hgo
          · exact absurd ⟨by simpa using hdelivered, hfailed, hkind⟩ hauth
          · exact hmay
      · cases hok : (responseOf pj op op.success flag raw).ok with
        | true =>
            obtain ⟨hsucceeds, hsame, -⟩ := responseOf_succeeds op hok
            refine .inl ⟨_, rfl, hok, ?_⟩
            rw [hsame, hbody hsucceeds]
            exact happlied
        | false => exact hfails hok (.inr ⟨body, happlied⟩)

-- ==================================================================== the lookups

/-- The tree is seen as it was. -/
theorem Service.SeenAs.withSessions {f : Str → Option OpenUpload} (hholds : v.Holds f) :
    v.SeenAs (v.tree.withSessions f) :=
  ⟨f, rfl, hholds⟩

/-- A call that fails and has changed nothing. -/
theorem clientRel_failed {q : CallReq} {r : Except Exn DriveResponse} {w : World} (h : Failed q r) :
    clientRel pj w q r w := by
  refine ⟨.inr (.inr ⟨trivial, h, .inl rfl⟩), ?_⟩
  rintro - resp hr hok
  rw [(h resp hr).1] at hok
  cases hok

theorem failed_of_notOk {q : CallReq} (hq : ∀ id, q ≠ .getMetadata id)
    {r : Except Exn DriveResponse} (h : ∀ resp, r = .ok resp → resp.ok = false) : Failed q r :=
  fun resp hr => ⟨h resp hr, fun id hid => absurd hid (hq id)⟩

/-- `files.get` answers as the tree is. -/
theorem wp_getMetadata_calls (depth : Nat) (fileId : Str) (v : Service)
    (f : Str → Option OpenUpload) :
    (serviceEnv pj cursor).wp (getMetadata pj depth fileId)
      (fun r v' => v' = v ∧
        clientRel pj (v.tree.withSessions f) (.getMetadata fileId) r
          (v.tree.withSessions f)) v := by
  refine Env.wp_mono (wp_lookup (.filesGet fileId) (fun _ _ _ h => h.1) false depth v) ?_
  rintro r v' ⟨rfl, hr⟩
  refine ⟨rfl, ?_⟩
  cases r with
  | error e => exact clientRel_failed nofun
  | ok resp =>
      obtain ⟨raw, ⟨-, hfound, hmissing⟩, rfl⟩ := hr resp rfl
      cases hok : (responseOf pj (.filesGet fileId) [200] false raw).ok with
      | true =>
          obtain ⟨hsucceeds, hbody, -⟩ := responseOf_succeeds (.filesGet fileId) hok
          obtain ⟨file, hparse, hmeta⟩ := hfound hsucceeds
          refine ⟨.inl ⟨_, rfl, hok, rfl, file, ?_, hmeta⟩, nofun⟩
          rw [← hparse]
          exact congrArg _ hbody
      | false =>
          by_cases hkind : (responseOf pj (.filesGet fileId) [200] false raw).error.kind = .notFound
          · have habsent := hmissing (responseOf_fails (.filesGet fileId) nofun hok hkind)
            exact ⟨.inr (.inl ⟨fileId, _, rfl, rfl, hok, hkind, habsent, rfl⟩), nofun⟩
          · refine clientRel_failed ?_
            rintro resp hresp
            cases hresp
            exact ⟨hok, fun _ _ => hkind⟩

/-- A download or an export leaves the tree alone. -/
theorem wp_lookup_calls (q : CallReq) (op : DriveOp) (flag : Bool)
    (hop : ∀ v raw v', Answers pj cursor v op raw v' → v' = v) (hq : ∀ id, q ≠ .getMetadata id)
    (hgenerated : q ≠ .generateFileId) (hsucceeds : ∀ w resp, World.Succeeds pj w q resp w)
    (depth : Nat) (v : Service) (f : Str → Option OpenUpload) :
    (serviceEnv pj cursor).wp (executeWithRetry pj op op.success flag depth)
      (fun r v' => v' = v ∧
        clientRel pj (v.tree.withSessions f) q r (v.tree.withSessions f)) v := by
  refine Env.wp_mono (wp_lookup op hop flag depth v) ?_
  rintro r v' ⟨rfl, -⟩
  refine ⟨rfl, ?_, fun heq => absurd heq hgenerated⟩
  cases r with
  | error e => exact .inr (.inr ⟨trivial, nofun, .inl rfl⟩)
  | ok resp =>
      cases hok : resp.ok with
      | true => exact .inl ⟨resp, rfl, hok, hsucceeds _ _⟩
      | false =>
          refine .inr (.inr ⟨trivial, failed_of_notOk hq ?_, .inl rfl⟩)
          rintro _ hresp
          cases hresp
          exact hok

/-- A generated id is unused. -/
theorem wp_generateFileId_calls (depth : Nat) (v : Service) (f : Str → Option OpenUpload) :
    (serviceEnv pj cursor).wp (client pj depth .generateFileId)
      (fun r v' => v' = v ∧
        clientRel pj (v.tree.withSessions f) .generateFileId r (v.tree.withSessions f)) v := by
  refine Env.wp_mono (wp_lookup .generateIds (fun _ _ _ h => h.1) false depth v) ?_
  rintro r v' ⟨rfl, hr⟩
  refine ⟨rfl, ?_⟩
  cases r with
  | error e => exact clientRel_failed nofun
  | ok resp =>
      obtain ⟨raw, ⟨-, hunused⟩, rfl⟩ := hr resp rfl
      cases hok : (responseOf pj .generateIds [200] false raw).ok with
      | true =>
          obtain ⟨hsucceeds, hbody, -⟩ := responseOf_succeeds .generateIds hok
          refine ⟨.inl ⟨_, rfl, hok, rfl⟩, ?_⟩
          rintro - resp hresp - id hid
          cases hresp
          exact hunused hsucceeds id (by rw [← hid]; exact congrArg _ hbody.symm)
      | false =>
          refine clientRel_failed (failed_of_notOk (fun _ h => by cases h) ?_)
          rintro _ hresp
          cases hresp
          exact hok

/-- The pages from a token on, together. -/
theorem wp_listPages_calls (hpj : pj.RoundTrips) (depth : Nat) (query : DriveQuery) (v : Service)
    (rounds : Nat) (token : Str) (sofar : List DriveFileMeta)
    (hsizes : ∀ file ∈ sofar, file.size = -1 ∨ (0 ≤ file.size ∧ file.size < 2 ^ 63)) :
    (serviceEnv pj cursor).wp (listPages pj depth query rounds token sofar)
      (fun r v' => v' = v ∧ ∀ resp, r = .ok resp → resp.ok = true →
        parseFileList pj resp.body = some (sofar ++ cursor v.tree query token, [])) v := by
  induction rounds generalizing token sofar with
  | zero => trivial
  | succ rounds ih =>
      unfold listPages
      rw [Env.wp_bind]
      refine Env.wp_mono
        (wp_lookup (.filesList query token) (fun _ _ _ h => h.1) false depth v) ?_
      rintro r v' ⟨rfl, hr⟩
      cases r with
      | error e => exact ⟨rfl, nofun⟩
      | ok last =>
          obtain ⟨raw, ⟨-, hpages⟩, rfl⟩ := hr last rfl
          simp only
          split
          · rename_i hfailed
            refine ⟨rfl, ?_⟩
            rintro resp hresp hok
            cases hresp
            rw [hok] at hfailed
            cases hfailed
          · rename_i hok
            obtain ⟨hsucceeds, hbody, -⟩ :=
              responseOf_succeeds (.filesList query token) (by simpa using hok)
            obtain ⟨files, next, hpage, hcursor⟩ := hpages hsucceeds
            rw [hbody, hpage.parseFileList]
            have hall : ∀ file ∈ sofar ++ files,
                file.size = -1 ∨ (0 ≤ file.size ∧ file.size < 2 ^ 63) := by
              intro file hfile
              rcases List.mem_append.mp hfile with hfile | hfile
              · exact hsizes file hfile
              · exact hpage.sizes file hfile
            simp only
            split
            · rename_i hlast
              rw [if_pos (List.isEmpty_iff.mp hlast), List.append_nil] at hcursor
              refine ⟨rfl, ?_⟩
              rintro resp hresp -
              cases hresp
              rw [hcursor]
              exact (isPage_serializeFileList hpj hall).parseFileList
            · rename_i hmore
              rw [if_neg fun hnil => hmore (List.isEmpty_iff.mpr hnil)] at hcursor
              rw [hcursor, ← List.append_assoc]
              exact ih next (sofar ++ files) hall

-- ==================================================================== the changes

theorem nonEmpty_getD (s : Str) : (nonEmpty s).getD [] = s := by
  unfold nonEmpty
  split
  · rename_i hnil
    exact (List.isEmpty_iff.mp hnil).symm
  · rfl

/-- A change that has been made, or may have been, by a call that is it. -/
theorem ChangeEnds.call {q : CallReq} {op : DriveOp} {r : Except Exn DriveResponse}
    {f : Str → Option OpenUpload} (h : ChangeEnds pj v op r v') (hholds : v.Holds f)
    (hq : ∀ id, q ≠ .getMetadata id) (hgenerated : q ≠ .generateFileId)
    (hsucceeds : ∀ {body v'}, v.Applied pj op body v' → ∀ resp : DriveResponse, resp.body = body →
      (v.tree.withSessions f).Succeeds pj q resp (v'.tree.withSessions f)) :
    ∃ w', clientRel pj (v.tree.withSessions f) q r w' ∧ v'.SeenAs w' := by
  have hheld : ∀ {body v'}, v.Applied pj op body v' → v'.Holds f := by
    intro body v' happlied uri u hu
    rw [happlied.1]
    exact hholds hu
  refine ⟨v'.tree.withSessions f, ?_, f, rfl, ?_⟩
  · refine ⟨?_, fun heq => absurd heq hgenerated⟩
    rcases h with ⟨resp, rfl, hok, happlied⟩ | ⟨hfailed, hmade⟩
    · exact .inl ⟨resp, rfl, hok, hsucceeds happlied resp rfl⟩
    · refine .inr (.inr ⟨trivial, failed_of_notOk hq fun resp hr => (hfailed resp hr).1, ?_⟩)
      rcases hmade with rfl | ⟨body, happlied⟩
      · exact .inl rfl
      · exact .inr ⟨{ body }, hsucceeds happlied _ rfl⟩
  · rcases h with ⟨resp, -, -, happlied⟩ | ⟨-, rfl | ⟨body, happlied⟩⟩
    · exact hheld happlied
    · exact hholds
    · exact hheld happlied

/-- What is deleted for good cannot be deleted again. -/
theorem not_deleted_twice {fileId body body' : Str} {v₁ v₂ : Service}
    (h : v.Applied pj (.filesDelete fileId) body v₁) :
    ¬v₁.Applied pj (.filesDelete fileId) body' v₂ := by
  rintro ⟨-, ⟨n, hn, hid⟩, -⟩
  obtain ⟨-, -, gone, hgone, hbecomes⟩ := h
  rw [hbecomes.nodes, if_pos rfl, List.mem_filter] at hn
  rw [hid, (hgone fileId).mpr .self] at hn
  cases hn.2

/-- Nor is a file created again under an id that was reserved for it. -/
theorem not_created_twice {metadata : RequestMetadata} {contentType data id body body' : Str}
    {v₁ v₂ : Service} (hreserved : metadata.id = some id)
    (h : v.Applied pj (.createMultipart metadata contentType data) body v₁) :
    ¬v₁.Applied pj (.createMultipart metadata contentType data) body' v₂ := by
  rintro ⟨-, file', -, hid', hpublishes'⟩
  obtain ⟨-, file, -, hid, hpublishes⟩ := h
  obtain ⟨n, hn, rfl⟩ := World.Publishes.mem hpublishes
  have hunused : v₁.tree.Unused file'.id := by
    obtain ⟨-, -, -, hplace⟩ := hpublishes'
    rw [if_pos (show (uploadOf [] metadata).fileId.isEmpty = true from rfl)] at hplace
    exact hplace.2.1
  refine (hunused.2.2 n hn).1 ?_
  rw [hid id hreserved, hid' id hreserved]

theorem mayRetry_post {op : DriveOp} (h : op.method = .post ∨ op.method = .patch) :
    mayRetry op false = false := by
  rcases h with h | h <;> simp [mayRetry, isIdempotent, h]

/-- A create whose reserved id was free, and that may have been repeated. -/
theorem wp_createReserved_calls (depth : Nat) {parentId name contentType data id : Str}
    (hnew : v.tree.Unused id) (hid : id ≠ []) :
    (serviceEnv pj cursor).wp
      ((executeWithRetry pj (.createMultipart (uploadMetadata [] parentId name contentType id)
        contentType data) [200] true depth).bind (recognizeOwnCreate pj depth id))
      (ChangeEnds pj v (.createMultipart (uploadMetadata [] parentId name contentType id)
        contentType data)) v := by
  have hreserved : (uploadMetadata [] parentId name contentType id).id = some id := by
    show (if List.isEmpty id then none else some id) = some id
    rw [if_neg fun hnil => hid (List.isEmpty_iff.mp hnil)]
  rw [Env.wp_bind]
  refine Env.wp_mono (wp_change (.createMultipart _ contentType data) (fun _ _ _ h => h) depth
    fun _ _ _ _ _ h => not_created_twice hreserved h) ?_
  intro r v₁ h
  cases r with
  | error e => exact h
  | ok resp =>
      show (serviceEnv pj cursor).wp
        (if !resp.ok ∧ resp.httpStatus = 409 then getMetadata pj depth id else .ret (.ok resp)) _ v₁
      split
      · -- Drive says that the id is used: only an earlier attempt can have used it.
        rename_i hduplicate
        obtain ⟨hnotok, h409⟩ := hduplicate
        rcases h with ⟨_, hresp, hok, -⟩ | ⟨hfailed, hmade⟩
        · cases hresp
          rw [hok] at hnotok
          cases hnotok
        · have hused := (hfailed resp rfl).2 h409 id hreserved
          rcases hmade with rfl | ⟨body, happlied⟩
          · exact absurd hnew hused
          · refine Env.wp_mono (wp_getMetadata_calls depth id v₁ fun _ => none) ?_
            rintro r' v' ⟨rfl, hcall, -⟩
            obtain ⟨hsessions, file, hparse, hfileId, hpublishes⟩ := happlied
            rcases hcall with ⟨resp', rfl, hok', -, file', hparse', hmeta⟩ |
              ⟨_, resp', -, rfl, hok', -⟩ | ⟨-, hfailed', -⟩
            · -- The file it finds is the one that was created.
              obtain ⟨n, hn, rfl⟩ := World.Publishes.mem hpublishes
              refine .inl ⟨resp', rfl, hok', hsessions, n.file, ?_, hfileId, hpublishes⟩
              rw [hparse']
              rcases hmeta with ⟨n', hn', rfl, hid'⟩ | ⟨hnone, -⟩
              · have hsame := hfileId id hreserved
                have hderef : v'.tree.deref id = id := by
                  rw [← hsame]
                  exact World.deref_node hn
                rw [show (v'.tree.withSessions fun _ => none).deref id = v'.tree.deref id from rfl,
                  hderef, ← hsame] at hid'
                rw [World.node_unique hn' hn hid']
              · have hsame := hfileId id hreserved
                have hderef : v'.tree.deref id = id := by
                  rw [← hsame]
                  exact World.deref_node hn
                refine absurd ?_ (hnone n hn)
                rw [show (v'.tree.withSessions fun _ => none).deref id = v'.tree.deref id from rfl,
                  hderef, hsame]
            · refine .inr ⟨?_, .inr ⟨body, hsessions, file, hparse, hfileId, hpublishes⟩⟩
              rintro _ hr
              cases hr
              refine ⟨hok', ?_⟩
              rintro - id' hid'
              cases hreserved.symm.trans hid'
              exact hused
            · refine .inr ⟨?_, .inr ⟨body, hsessions, file, hparse, hfileId, hpublishes⟩⟩
              rintro resp' hr
              refine ⟨(hfailed' resp' hr).1, ?_⟩
              rintro - id' hid'
              cases hreserved.symm.trans hid'
              exact hused
      · exact h

/-- An upload is one request, or a create and its recognition. -/
theorem wp_upload_calls (depth : Nat) {fileId parentId name contentType data reservedId : Str}
    {f : Str → Option OpenUpload} (hholds : v.Holds f)
    (hexpects : (v.tree.withSessions f).Expects
      (.upload fileId parentId name contentType data reservedId)) :
    (serviceEnv pj cursor).wp (upload pj depth fileId parentId name contentType data reservedId)
      (fun r v' => ∃ w', clientRel pj (v.tree.withSessions f)
        (.upload fileId parentId name contentType data reservedId) r w' ∧ v'.SeenAs w') v := by
  obtain ⟨hfolder, hunused⟩ := hexpects
  have hcall : ∀ {op r v'}, ChangeEnds pj v op r v' →
      (∀ {body v'}, v.Applied pj op body v' → ∃ file, parseFileMeta pj body = some file ∧
        v.tree.Publishes ⟨fileId, parentId, name⟩ (makesFolder contentType) data.length file
          v'.tree) →
      ∃ w', clientRel pj (v.tree.withSessions f)
        (.upload fileId parentId name contentType data reservedId) r w' ∧ v'.SeenAs w' := by
    intro op r v' h happlied
    refine h.call hholds (fun _ h => by cases h) (fun h => by cases h) ?_
    rintro body v' hmade resp rfl
    obtain ⟨file, hparse, hpublishes⟩ := happlied hmade
    exact ⟨rfl, file, hparse, hpublishes.withSessions⟩
  have hname : (nonEmpty name).getD [] = name := nonEmpty_getD name
  unfold upload
  split
  · -- A folder.
    rename_i htype
    obtain rfl := hfolder htype
    refine Env.wp_mono (wp_change (.createFolder _) (fun _ _ _ h => h) depth ?_) ?_
    · exact fun hmay => absurd hmay (by rw [mayRetry_post (.inl rfl)]; nofun)
    · intro r v' h
      refine hcall h ?_
      rintro body v' ⟨-, file, hparse, hpublishes⟩
      have hmakes : makesFolder contentType = true := by
        rw [makesFolder, htype]
        exact decide_eq_true rfl
      rw [hmakes]
      exact ⟨file, hparse, hpublishes.retarget rfl hname.symm
        (fun _ => (nonEmpty_getD parentId).symm) nofun⟩
  · split
    · rename_i hnew
      obtain rfl := List.isEmpty_iff.mp hnew
      have hmade : ∀ {body v'}, v.Applied pj (.createMultipart
          (uploadMetadata [] parentId name contentType reservedId) contentType data) body v' →
          ∃ file, parseFileMeta pj body = some file ∧
            v.tree.Publishes ⟨[], parentId, name⟩ (makesFolder contentType) data.length file
              v'.tree := by
        rintro body v' ⟨-, file, hparse, -, hpublishes⟩
        exact ⟨file, hparse, hpublishes.retarget rfl hname.symm
          (fun _ => (nonEmpty_getD parentId).symm) fun _ => rfl⟩
      split
      · -- Sent once.
        refine Env.wp_mono
          (wp_change (.createMultipart _ contentType data) (fun _ _ _ h => h) depth ?_) ?_
        · exact fun hmay => absurd hmay (by rw [mayRetry_post (.inl rfl)]; nofun)
        · exact fun r v' h => hcall h hmade
      · rename_i hreserved
        have hid : reservedId ≠ [] := fun hnil => hreserved (List.isEmpty_iff.mpr hnil)
        exact Env.wp_mono (wp_createReserved_calls depth (hunused rfl hid) hid)
          fun r v' h => hcall h hmade
    · -- An existing file: its place is not asked for.
      rename_i hold
      refine Env.wp_mono
        (wp_change (.updateMultipart fileId _ contentType data) (fun _ _ _ h => h) depth ?_) ?_
      · exact fun hmay => absurd hmay (by rw [mayRetry_post (.inr rfl)]; nofun)
      · intro r v' h
        refine hcall h ?_
        rintro body v' ⟨-, file, hparse, hpublishes⟩
        exact ⟨file, hparse, hpublishes.retarget rfl hname.symm
          (fun hnil => absurd (List.isEmpty_iff.mpr hnil) hold) fun _ => rfl⟩

end Calls

end GDrive
