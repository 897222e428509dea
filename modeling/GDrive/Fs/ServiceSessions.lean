/-
Resumable sessions over the wire, and the client as a whole.

A session whose URI never arrived publishes nothing, so what the client holds
is all there is to see (`Service.Holds`). The last chunk may be sent, and its
outcome asked for, any number of times: the session publishes once, and then
answers with the file it made (`FinalSent`).

With these, every call of the client is one of the tree's
(`client_simulates`).
-/
import GDrive.Fs.ServiceCalls
import GDrive.Fs.EnsureParents

namespace GDrive

open Interaction

/-- A path has one URI. -/
theorem driveSessionPath_injective {uri uri' path : Str} (h : driveSessionPath uri = some path)
    (h' : driveSessionPath uri' = some path) : uri = uri' := by
  have hshape : ∀ {uri : Str}, driveSessionPath uri = some path →
      uri = str "https://www.googleapis.com" ++ path := by
    intro uri h
    unfold driveSessionPath at h
    simp only at h
    split at h
    · cases h
    · rename_i hfollowed
      rw [not_or, Bool.not_eq_true, Bool.not_eq_false'] at hfollowed
      obtain ⟨rest, rfl⟩ := List.isPrefixOf_iff_prefix.mp hfollowed.2
      cases h
      rfl
  rw [hshape h, hshape h']

section Sessions

variable {pj : Picojson} {cursor : World → DriveQuery → Str → List DriveFileMeta}
  {v v' : Service} {f : Str → Option OpenUpload}

-- ================================================================== opening one

/-- Sessions have come up, and nothing else. -/
structure Service.Opens (v v' : Service) : Prop where
  tree : v'.tree = v.tree
  sessions : ∀ {path s}, v.sessions path = some s → v'.sessions path = some s

theorem Service.Holds.opens (h : v.Holds f) (hopens : v.Opens v') : v'.Holds f := by
  intro uri u hu
  obtain ⟨path, fileId, metadata, hpath, hsession, hsame⟩ := h hu
  exact ⟨path, fileId, metadata, hpath, hopens.sessions hsession, hsame⟩

/-- Starting a session, any number of times. -/
theorem wp_startSession (depth : Nat) (fileId contentType : Str) (metadata : RequestMetadata)
    (v : Service) :
    (serviceEnv pj cursor).wp
      (executeWithRetry pj (.startSession fileId metadata contentType) [200] true depth)
      (fun r v' => v.Opens v' ∧ ∀ resp, r = .ok resp → resp.ok = true →
        ∀ path, driveSessionPath resp.location = some path →
          v.sessions path = none ∧ v'.sessions path = some (.started fileId metadata)) v := by
  refine wp_executeWithRetry (I := v.Opens) ?_ ?_ ?_ ?_ depth ⟨rfl, id⟩
  · exact fun _ _ => trivial
  · exact fun q P v' hq _ hP => serviceEnv_quiet hq hP
  · exact fun e v' hI => ⟨hI, nofun⟩
  · intro accessToken v₁ hI
    refine ⟨trivial, ?_⟩
    intro (raw : RawResult) v₂ hv
    rcases hv with ⟨rfl, hnone⟩ | ⟨path, hfree, rfl, hlocation⟩
    · refine ⟨fun _ => hI, hI, ?_⟩
      rintro resp hr hok path hpath
      cases hr
      obtain ⟨hsucceeds, -, hsame⟩ :=
        responseOf_succeeds (.startSession fileId metadata contentType) hok
      have hpath' : driveSessionPath raw.location = some path := by
        rw [← hpath]
        exact congrArg _ hsame.symm
      rw [hnone hsucceeds] at hpath'
      cases hpath'
    · have hopens : v.Opens
          { v₁ with
            sessions := Function.update v₁.sessions path (some (.started fileId metadata)) } := by
        refine ⟨hI.tree, ?_⟩
        intro path' s hs
        have hne : path' ≠ path := by
          rintro rfl
          rw [hI.sessions hs] at hfree
          cases hfree
        show Function.update v₁.sessions path (some (.started fileId metadata)) path' = some s
        rw [Function.update_of_ne hne]
        exact hI.sessions hs
      refine ⟨fun _ => hopens, hopens, ?_⟩
      rintro resp hr hok path' hpath'
      cases hr
      obtain ⟨hsucceeds, -, hsame⟩ :=
        responseOf_succeeds (.startSession fileId metadata contentType) hok
      obtain rfl := hlocation hsucceeds path' (by rw [← hpath']; exact congrArg _ hsame.symm)
      refine ⟨?_, Function.update_self _ _ _⟩
      cases hbefore : v.sessions path' with
      | none => rfl
      | some s =>
          rw [hI.sessions hbefore] at hfree
          cases hfree

theorem wp_startResumableUpload_calls (depth : Nat) (fileId parentId name contentType : Str)
    (hholds : v.Holds f) :
    (serviceEnv pj cursor).wp (startResumableUpload pj depth fileId parentId name contentType)
      (fun r v' => ∃ w', clientRel pj (v.tree.withSessions f)
        (.startResumableUpload fileId parentId name contentType) r w' ∧ v'.SeenAs w') v := by
  unfold startResumableUpload
  rw [Env.wp_bind]
  refine Env.wp_mono (wp_startSession depth fileId contentType _ v) ?_
  intro r v' ⟨hopens, hlocation⟩
  have hfailed : ∀ r' : Except Exn DriveResponse, (∀ resp, r' = .ok resp → resp.ok = false) →
      ∃ w', clientRel pj (v.tree.withSessions f)
        (.startResumableUpload fileId parentId name contentType) r' w' ∧ v'.SeenAs w' := by
    intro r' hr'
    refine ⟨v.tree.withSessions f,
      clientRel_failed (failed_of_notOk (fun _ h => by cases h) hr'), f, ?_, hholds.opens hopens⟩
    rw [hopens.tree]
  cases r with
  | error e => exact hfailed _ nofun
  | ok resp =>
      show ∃ w', clientRel pj _ _ (.ok (checkSessionUri resp)) w' ∧ v'.SeenAs w'
      cases hok : (checkSessionUri resp).ok with
      | false =>
          refine hfailed _ ?_
          rintro _ hr'
          cases hr'
          exact hok
      | true =>
          have husable := driveSessionPath_checkSessionUri hok
          have hsame : checkSessionUri resp = resp := by
            unfold checkSessionUri at hok ⊢
            split at hok
            · cases hok
            · rename_i hc
              exact if_neg hc
          rw [hsame] at hok husable ⊢
          obtain ⟨path, hpath⟩ := Option.ne_none_iff_exists'.mp husable
          obtain ⟨hfree, hstarted⟩ := hlocation resp rfl hok path hpath
          refine ⟨v'.tree.withSessions
            (Function.update f resp.location (some ⟨fileId, parentId, name⟩)), ⟨?_, nofun⟩, _, rfl,
            ?_⟩
          · refine .inl ⟨resp, rfl, hok, ne_nil_of_driveSessionPath hpath, ?_, ?_, rfl⟩
            · -- The client holds no session there.
              cases hheld : f resp.location with
              | none => exact hheld
              | some u =>
                  obtain ⟨path', _, _, hpath', hsession, -⟩ := hholds hheld
                  cases hpath.symm.trans hpath'
                  rw [hfree] at hsession
                  cases hsession
            · rw [hopens.tree]
              exact ⟨rfl, rfl, rfl⟩
          · intro uri u hu
            by_cases huri : uri = resp.location
            · rw [huri, Function.update_self] at hu
              cases hu
              refine ⟨path, fileId, _, huri ▸ hpath, hstarted, rfl, nonEmpty_getD name, ?_⟩
              intro hnil
              show (if fileId.isEmpty then nonEmpty parentId else none).getD [] = parentId
              rw [if_pos (List.isEmpty_iff.mpr hnil), nonEmpty_getD]
            · rw [Function.update_of_ne huri] at hu
              exact hholds.opens hopens hu

-- ==================================================================== its chunks

/-- The session at a path has published. -/
def Completes (pj : Picojson) (v : Service) (path : Str) (size : Nat) (body : Str) (v' : Service) :
    Prop :=
  ∃ fileId metadata file, v.sessions path = some (.started fileId metadata) ∧
    parseFileMeta pj body = some file ∧
    v.tree.Publishes (uploadOf fileId metadata) false size file v'.tree ∧
    v'.sessions = Function.update v.sessions path (some (.completed file))

/-- A session's reply: it had published, or it publishes now, or nothing has
happened. -/
theorem SessionAnswers.cases {path : Str} {range : ContentRange} {raw : RawResult}
    (h : SessionAnswers pj v path range raw v') :
    (v' = v ∧ (raw.Published → ∃ file, v.sessions path = some (.completed file) ∧
      parseFileMeta pj raw.body = some file)) ∨
    ∃ body size, range.total = some size ∧ Completes pj v path size body v' ∧
      (raw.Published → raw.body = body) := by
  unfold SessionAnswers at h
  split at h
  · exact .inl ⟨h.1, fun hpublished => absurd hpublished h.2⟩
  · rename_i file hcompleted
    exact .inl ⟨h.1, fun hpublished => ⟨file, hcompleted, h.2 hpublished⟩⟩
  · rename_i fileId metadata hstarted
    rcases h with ⟨hsame, hnot⟩ | ⟨body, file, size, hparse, htotal, hpublishes, hsessions, hbody⟩
    · exact .inl ⟨hsame, fun hpublished => absurd hpublished hnot⟩
    · exact .inr ⟨body, size, htotal, ⟨fileId, metadata, file, hstarted, hparse, hpublishes,
        hsessions⟩, hbody⟩

theorem requestRange_total (buf : ChunkedUploadBuffer) (final : Bool) (step : UploadStep)
    (state : ChunkUploadState) : (requestRange buf final step state).total = buf.totalOf final := by
  unfold requestRange
  split <;> rfl

/-- A chunk before the last one carries no total. -/
theorem wp_chunkSent (buf : ChunkedUploadBuffer) (depth : Nat) (sessionUri : Str) (v : Service) :
    (serviceEnv pj cursor).wp (uploadChunk pj buf false depth sessionUri) (fun _ v' => v' = v) v :=
    by
  unfold uploadChunk
  split
  · rfl
  · rename_i path _
    rw [Env.wp_bind]
    refine Env.wp_mono (wp_uploadChunkLoop (I := fun _ _ v' => v' = v) (Q := fun _ v' => v' = v)
      ?_ ?_ ?_ depth _ _ v rfl) fun _ _ h => h
    · exact fun _ _ _ _ => trivial
    · exact fun _ _ q P v' hq _ hP => serviceEnv_quiet hq hP
    · rintro step state v₁ rfl
      refine ⟨trivial, ?_⟩
      intro (raw : RawResult) v₂ hv
      have hsame : v₂ = v₁ := by
        rcases SessionAnswers.cases hv with ⟨hsame, -⟩ | ⟨_, size, htotal, -⟩
        · exact hsame
        · rw [requestRange_total] at htotal
          cases htotal
      simp only [hsame]
      split <;> trivial

/-- What the last chunk of an open session has come to. -/
def FinalSent (pj : Picojson) (v : Service) (path : Str) (size : Nat) (v' : Service) : Prop :=
  v' = v ∨ ∃ body, Completes pj v path size body v'

/-- The last chunk: a success is the session's publication. -/
theorem wp_finalSent (buf : ChunkedUploadBuffer) (depth : Nat) {sessionUri path fileId : Str}
    {metadata : RequestMetadata} (hpath : driveSessionPath sessionUri = some path)
    (hstarted : v.sessions path = some (.started fileId metadata)) :
    (serviceEnv pj cursor).wp (uploadChunk pj buf true depth sessionUri)
      (fun resp v' => FinalSent pj v path buf.total v' ∧
        (resp.ok = true → Completes pj v path buf.total resp.body v')) v := by
  unfold uploadChunk
  rw [hpath]
  simp only
  rw [Env.wp_bind]
  refine Env.wp_mono (wp_uploadChunkLoop
    (I := fun _ _ v' => FinalSent pj v path buf.total v')
    (Q := fun r v' => FinalSent pj v path buf.total v' ∧ r.1.kind ≠ .accepted ∧
      (r.1.kind = .done → Completes pj v path buf.total r.2.body v'))
    ?_ ?_ ?_ depth _ _ v (.inl rfl)) ?_
  · exact fun _ _ _ _ => trivial
  · exact fun _ _ q P v' hq _ hP => serviceEnv_quiet hq hP
  · intro step state v₁ hI
    refine ⟨trivial, ?_⟩
    intro (raw : RawResult) v₂ hv
    have hsent : FinalSent pj v path buf.total v₂ ∧
        (raw.Published → Completes pj v path buf.total raw.body v₂) := by
      rcases SessionAnswers.cases hv with ⟨rfl, hcompleted⟩ | ⟨body, size, htotal, hnow, hbody⟩
      · refine ⟨hI, ?_⟩
        intro hpublished
        obtain ⟨file, hsession, hparse⟩ := hcompleted hpublished
        rcases hI with rfl | ⟨body, fileId', metadata', file', hbefore, -, hpublishes, hsessions⟩
        · rw [hstarted] at hsession
          cases hsession
        · rw [hsessions, Function.update_self] at hsession
          cases hsession
          exact ⟨fileId', metadata', _, hbefore, hparse, hpublishes, hsessions⟩
      · rw [requestRange_total] at htotal
        cases htotal
        rcases hI with rfl | ⟨_, _, _, file', -, -, -, hsessions⟩
        · refine ⟨.inr ⟨body, hnow⟩, ?_⟩
          intro hpublished
          rw [hbody hpublished]
          exact hnow
        · -- It has published before.
          obtain ⟨_, _, _, hopen, -⟩ := hnow
          rw [hsessions, Function.update_self] at hopen
          cases hopen
    have hcases := nextUploadStep_cases buf true state (replyOf pj raw)
    simp only
    split
    · exact hsent.1
    · refine ⟨hsent.1, ?_, fun hdone => hsent.2 (hcases.of_done hdone).2⟩
      intro haccepted
      cases (hcases.of_accepted haccepted).1
  · rintro ⟨step, raw⟩ v' ⟨hsent, haccepted, hdone⟩
    refine ⟨hsent, ?_⟩
    intro hok
    simp only at haccepted hdone hok ⊢
    unfold chunkResponse at hok ⊢
    by_cases hkind : step.kind = .done
    · rw [if_pos hkind]
      exact hdone hkind
    · rw [if_neg hkind, if_neg haccepted] at hok
      cases hok

/-- The publication, as the client sees it. -/
theorem Completes.succeeds {sessionUri path body : Str} {buf : ChunkedUploadBuffer}
    {u : OpenUpload} (h : Completes pj v path buf.total body v')
    (hpath : driveSessionPath sessionUri = some path) (hholds : v.Holds f)
    (hu : f sessionUri = some u) :
    (∀ resp : DriveResponse, resp.body = body →
      (v.tree.withSessions f).Succeeds pj (.uploadChunk sessionUri buf true) resp
        (v'.tree.withSessions (Function.update f sessionUri none))) ∧
      v'.SeenAs (v'.tree.withSessions (Function.update f sessionUri none)) := by
  obtain ⟨fileId, metadata, file, hstarted, hparse, hpublishes, hsessions⟩ := h
  constructor
  · rintro resp rfl
    obtain ⟨path', fileId', metadata', hpath', hstarted', hid, hname, hparent⟩ := hholds hu
    cases hpath.symm.trans hpath'
    cases hstarted.symm.trans hstarted'
    exact ⟨u, file, hu, hparse,
      (hpublishes.retarget hid.symm hname.symm
        (fun hnil => (hparent (hid.symm.trans hnil)).symm) fun _ => rfl).withSessions, rfl⟩
  · refine ⟨_, rfl, ?_⟩
    intro uri u' hu'
    by_cases huri : uri = sessionUri
    · rw [huri, Function.update_self] at hu'
      cases hu'
    · rw [Function.update_of_ne huri] at hu'
      obtain ⟨path', fileId', metadata', hpath', hstarted', hsame⟩ := hholds hu'
      have hne : path' ≠ path := by
        rintro rfl
        exact huri (driveSessionPath_injective hpath' hpath)
      refine ⟨path', fileId', metadata', hpath', ?_, hsame⟩
      rw [hsessions, Function.update_of_ne hne]
      exact hstarted'

theorem wp_uploadChunk_calls (depth : Nat) (sessionUri : Str) (buf : ChunkedUploadBuffer)
    (final : Bool) (hholds : v.Holds f)
    (hexpects : (v.tree.withSessions f).Expects (.uploadChunk sessionUri buf final)) :
    (serviceEnv pj cursor).wp (client pj depth (.uploadChunk sessionUri buf final))
      (fun r v' => ∃ w',
        clientRel pj (v.tree.withSessions f) (.uploadChunk sessionUri buf final) r w' ∧
        v'.SeenAs w') v := by
  show (serviceEnv pj cursor).wp
    ((uploadChunk pj buf final depth sessionUri).bind fun resp =>
      (.ret (.ok resp) : Prog Wire (Except Exn DriveResponse))) _ v
  rw [Env.wp_bind]
  have hstays : ∀ resp : DriveResponse, resp.ok = false →
      ∃ w', clientRel pj (v.tree.withSessions f) (.uploadChunk sessionUri buf final) (.ok resp) w' ∧
        v.SeenAs w' := by
    intro resp hok
    refine ⟨_, clientRel_failed (failed_of_notOk (fun _ h => by cases h) ?_), .withSessions hholds⟩
    rintro _ hr
    cases hr
    exact hok
  cases final with
  | false =>
      refine Env.wp_mono (wp_chunkSent buf depth sessionUri v) ?_
      rintro resp v' rfl
      cases hok : resp.ok with
      | false => exact hstays resp hok
      | true => exact ⟨_, ⟨.inl ⟨resp, rfl, hok, rfl⟩, nofun⟩, .withSessions hholds⟩
  | true =>
      obtain ⟨u, hu⟩ := Option.ne_none_iff_exists'.mp hexpects
      obtain ⟨path, fileId, metadata, hpath, hstarted, -⟩ := hholds hu
      refine Env.wp_mono (wp_finalSent buf depth hpath hstarted) ?_
      rintro resp v' ⟨hsent, hdone⟩
      cases hok : resp.ok with
      | true =>
          obtain ⟨hsucceeds, hseen⟩ := (hdone hok).succeeds hpath hholds hu
          exact ⟨_, ⟨.inl ⟨resp, rfl, hok, hsucceeds resp rfl⟩, nofun⟩, hseen⟩
      | false =>
          rcases hsent with rfl | ⟨body, hcompletes⟩
          · exact hstays resp hok
          · -- It has published, and the client does not know.
            obtain ⟨hsucceeds, hseen⟩ := hcompletes.succeeds hpath hholds hu
            refine ⟨_, ⟨.inr (.inr ⟨trivial, failed_of_notOk (fun _ h => by cases h) ?_,
              .inr ⟨{ body }, hsucceeds _ rfl⟩⟩), nofun⟩, hseen⟩
            rintro _ hr
            cases hr
            exact hok

theorem wp_cancelUpload_calls (sessionUri : Str) (hholds : v.Holds f) :
    (serviceEnv pj cursor).wp (cancelUpload sessionUri)
      (fun r v' => ∃ w', clientRel pj (v.tree.withSessions f) (.cancelUpload sessionUri) r w' ∧
        v'.SeenAs w') v := by
  have hfailed : ∀ w, clientRel pj w (.cancelUpload sessionUri) (.ok {}) w := by
    intro w
    refine clientRel_failed (failed_of_notOk (fun _ h => by cases h) ?_)
    rintro _ hr
    cases hr
    rfl
  unfold cancelUpload
  split
  · exact ⟨_, hfailed _, .withSessions hholds⟩
  · rename_i path hpath
    refine ⟨trivial, ?_⟩
    rintro - v' ⟨htree, hsessions⟩
    rcases hsessions with hsame | hgone
    · refine ⟨v.tree.withSessions f, hfailed _, f, by rw [htree], ?_⟩
      intro uri u hu
      rw [hsame]
      exact hholds hu
    · refine ⟨v.tree.withSessions (Function.update f sessionUri none), ?_, _, by rw [htree], ?_⟩
      · refine ⟨.inr (.inr ⟨trivial, failed_of_notOk (fun _ h => by cases h) ?_,
          .inr ⟨{}, ⟨rfl, rfl, rfl⟩, .inr rfl⟩⟩), nofun⟩
        rintro _ hr
        cases hr
        rfl
      · intro uri u hu
        by_cases huri : uri = sessionUri
        · rw [huri, Function.update_self] at hu
          cases hu
        · rw [Function.update_of_ne huri] at hu
          obtain ⟨path', fileId, metadata, hpath', hstarted, hsame⟩ := hholds hu
          have hne : path' ≠ path := by
            rintro rfl
            exact huri (driveSessionPath_injective hpath' hpath)
          refine ⟨path', fileId, metadata, hpath', ?_, hsame⟩
          rw [hgone, Function.update_of_ne hne]
          exact hstarted

-- ================================================================== the client

/-- Every call of the client over the wire is a call of the tree: with its
retries, its pages, its refreshed tokens and what is lost on the way, it is
answered, and changes what it changes, as `treeRel` says. -/
theorem client_simulates (hpj : pj.RoundTrips)
    (hcursor : ∀ w query, cursor w query [] = w.listing query) (depth : Nat) :
    Simulates (serviceRel pj cursor) (client pj depth) (clientRel pj) World.Expects
      Service.SeenAs := by
  rintro v _ q r v' ⟨f, rfl, hholds⟩ hexpects hr
  have hlookup : ∀ {p : Prog Wire (Except Exn DriveResponse)},
      (serviceEnv pj cursor).wp p (fun r v' => v' = v ∧
        clientRel pj (v.tree.withSessions f) q r (v.tree.withSessions f)) v →
      Reaches (serviceRel pj cursor) p v (.ret r) v' →
      ∃ w', clientRel pj (v.tree.withSessions f) q r w' ∧ v'.SeenAs w' := by
    intro p hwp hp
    obtain ⟨rfl, hcall⟩ := Env.wp_returns hwp hp
    exact ⟨_, hcall, .withSessions hholds⟩
  cases q with
  | getMetadata fileId => exact hlookup (wp_getMetadata_calls depth fileId v f) hr
  | download fileId first last =>
      exact hlookup
          (wp_lookup_calls (.download fileId first last) (.filesMedia fileId first last) false
        (fun _ _ _ h => h) (fun _ h => by cases h) (fun h => by cases h) (fun _ _ => rfl) depth v
        f) hr
  | «export» fileId mimeType =>
      exact hlookup (wp_lookup_calls (.export fileId mimeType) (.filesExport fileId mimeType) false
        (fun _ _ _ h => h) (fun _ h => by cases h) (fun h => by cases h) (fun _ _ => rfl) depth v
        f) hr
  | generateFileId => exact hlookup (wp_generateFileId_calls depth v f) hr
  | list query token =>
      obtain rfl : token = [] := hexpects
      obtain ⟨rfl, hlist⟩ :=
        Env.wp_returns (wp_listPages_calls hpj depth query v depth [] [] nofun) hr
      refine ⟨v'.tree.withSessions f, ⟨?_, nofun⟩, .withSessions hholds⟩
      cases r with
      | error e => exact .inr (.inr ⟨trivial, nofun, .inl rfl⟩)
      | ok resp =>
          cases hok : resp.ok with
          | true =>
              have hparse := hlist resp rfl hok
              rw [List.nil_append, hcursor] at hparse
              exact .inl ⟨resp, rfl, hok, rfl, hparse⟩
          | false =>
              refine .inr (.inr ⟨trivial, failed_of_notOk (fun _ h => by cases h) ?_, .inl rfl⟩)
              rintro _ hresp
              cases hresp
              exact hok
  | upload fileId parentId name contentType data reservedId =>
      exact Env.wp_returns (wp_upload_calls depth hholds hexpects) hr
  | startResumableUpload fileId parentId name contentType =>
      exact Env.wp_returns
        (wp_startResumableUpload_calls depth fileId parentId name contentType hholds) hr
  | uploadChunk sessionUri buf final =>
      exact Env.wp_returns (wp_uploadChunk_calls depth sessionUri buf final hholds hexpects) hr
  | cancelUpload sessionUri => exact Env.wp_returns (wp_cancelUpload_calls sessionUri hholds) hr
  | delete fileId permanent =>
      cases permanent with
      | true =>
          have hends := Env.wp_returns (wp_change (.filesDelete fileId)
            (fun _ _ _ h => h) depth fun _ _ _ _ _ h => not_deleted_twice h) hr
          refine hends.call hholds (fun _ h => by cases h) (fun h => by cases h) ?_
          exact fun h _ _ => ⟨rfl, World.Removes.withSessions h.2⟩
      | false =>
          have hends := Env.wp_returns (wp_change (.trash fileId)
            (fun _ _ _ h => h) depth fun hmay =>
              absurd hmay (by rw [mayRetry_post (.inr rfl)]; nofun)) hr
          refine hends.call hholds (fun _ h => by cases h) (fun h => by cases h) ?_
          exact fun h _ _ => ⟨rfl, World.Removes.withSessions h.2⟩
  | move fileId newParentId newName oldParentId =>
      have hends := Env.wp_returns (wp_change
        (.move fileId newParentId newName oldParentId) (fun _ _ _ h => h) depth fun hmay =>
          absurd hmay (by rw [mayRetry_post (.inr rfl)]; nofun)) hr
      refine hends.call hholds (fun _ h => by cases h) (fun h => by cases h) ?_
      exact fun h _ _ => ⟨rfl, World.Moves.withSessions h.2⟩

end Sessions

-- ============================================================== a reply that is lost

section Lost

/-- A request that gets no reply, and is not applied. -/
theorem answers_unanswered (pj : Picojson)
    (cursor : World → DriveQuery → Str → List DriveFileMeta) (v : Service) (op : DriveOp) :
    Answers pj cursor v op {} v := by
  have hno : ∀ op, ¬RawResult.succeeds {} op := fun _ h => nomatch h.1
  have hchanges : ∀ op, Changes pj v op {} v := fun op => ⟨nofun, .inl ⟨rfl, hno op⟩⟩
  cases op with
  | filesGet id => exact ⟨rfl, fun h => absurd h (hno _), fun h => nomatch h.1⟩
  | filesList query token => exact ⟨rfl, fun h => absurd h (hno _)⟩
  | filesMedia id first last => rfl
  | filesExport id mimeType => rfl
  | generateIds => exact ⟨rfl, fun h => absurd h (hno _)⟩
  | startSession id metadata contentType => exact .inl ⟨rfl, fun h => absurd h (hno _)⟩
  | _ => exact hchanges _

/-- A file that is made under an id reserved for it. -/
def reservedFile : DriveFileMeta :=
  { id := str "N", name := str "a", mimeType := octetStream, size := 1 }

theorem reserved_formTree : FormTree [{ file := reservedFile, parent := str "R" }] flat := by
  decide +kernel

theorem empty_formTree : FormTree [] flat := by decide +kernel

def reservedTrees (made : Bool) : World :=
  if made then treeOf [{ file := reservedFile, parent := str "R" }] flat reserved_formTree
  else treeOf [] flat empty_formTree

def reservedBody : Str := textJson.serialize (fileObject reservedFile)

def reservedCall : CallReq := .upload [] (str "R") (str "a") octetStream (str "x") (str "N")

/-- All of a listing as one page. -/
def onePage (w : World) (query : DriveQuery) (token : Str) : List DriveFileMeta :=
  if token = [] then w.listing query else []

/-- A network that loses the first reply. -/
def lossyNetwork : Bool → (q : WireReq) → Wire.Ans q × Bool
  | made, .token => (.ok (str "t"), made)
  | made, .refresh _ => (.ok (str "t"), made)
  | made, .http _ op =>
      if op = .createMultipart (uploadMetadata [] (str "R") (str "a") octetStream (str "N"))
          octetStream (str "x") then
        if made then (({ transportOk := true, status := 409 } : RawResult), made)
        else (({} : RawResult), true)
      else if op = .filesGet (str "N") ∧ made = true then
        (({ transportOk := true, status := 200, body := reservedBody } : RawResult), made)
      else (({} : RawResult), made)
  | made, .session _ _ _ => (({} : RawResult), made)
  | made, .cancelSession _ => ((), made)
  | made, .sleep _ _ => ((), made)

theorem parse_reservedBody : parseFileMeta textJson reservedBody = some reservedFile := by
  unfold parseFileMeta reservedBody Picojson.parseObject
  rw [textJson_parse]
  decide +kernel

theorem reserved_unused : (reservedTrees false).Unused (str "N") :=
  ⟨by decide +kernel, by decide +kernel, nofun⟩

theorem reserved_publishes :
    (reservedTrees false).Publishes ⟨[], str "R", str "a"⟩ false 1 reservedFile
      (reservedTrees true) := by
  refine ⟨by decide +kernel, by decide +kernel, fun _ => rfl, ?_⟩
  rw [if_pos (show (⟨[], str "R", str "a"⟩ : OpenUpload).fileId.isEmpty = true from rfl)]
  exact ⟨rfl, reserved_unused, rfl, rfl, rfl⟩

theorem lossyNetwork_serves (made : Bool) (q : WireReq) :
    serviceRel textJson onePage { tree := reservedTrees made } q (lossyNetwork made q).1
      { tree := reservedTrees (lossyNetwork made q).2 } := by
  cases q with
  | token => rfl
  | refresh => rfl
  | session path range data => exact ⟨rfl, nofun⟩
  | cancelSession => exact ⟨rfl, .inl rfl⟩
  | sleep => rfl
  | http accessToken op =>
      show Answers textJson onePage _ op (lossyNetwork made (.http accessToken op)).1 _
      unfold lossyNetwork
      simp only
      split
      · rename_i hop
        subst hop
        cases made with
        | true =>
            refine ⟨?_, .inl ⟨rfl, fun h => absurd h.2 (by decide)⟩⟩
            rintro - id hid
            cases hid
            refine ⟨rfl, fun hunused => ?_⟩
            exact (hunused.2.2 { file := reservedFile, parent := str "R" }
              (List.mem_singleton.mpr rfl)).1 rfl
        | false =>
            refine ⟨nofun, .inr ⟨rfl, fun h => (nomatch h.1), reservedBody, ?_,
              fun h => (nomatch h.1)⟩⟩
            refine ⟨reservedFile, parse_reservedBody, ?_, ?_⟩
            · rintro id hid
              cases hid
              rfl
            · exact reserved_publishes
      · split
        · rename_i hget
          obtain ⟨rfl, rfl⟩ := hget
          refine ⟨rfl, fun _ => ⟨reservedFile, parse_reservedBody, ?_⟩, fun h => ?_⟩
          · exact .inl ⟨{ file := reservedFile, parent := str "R" },
              List.mem_singleton.mpr rfl, rfl, by decide +kernel⟩
          · exact absurd (show (200 : Nat) ∈ [200] from List.mem_singleton.mpr rfl) h.2.1
        · exact answers_unanswered _ _ _ _

/-- The first reply of a create is lost, and the second attempt is refused as
a duplicate: the call succeeds, with the one file in the tree. -/
theorem client_simulates_lost_reply : ∃ resp w', resp.ok = true ∧
    clientRel textJson (reservedTrees false) reservedCall (.ok resp) w' ∧
    Service.SeenAs { tree := reservedTrees true } w' := by
  have hrun := Prog.play_reaches_of (I := fun _ => True) (R := (serviceRel textJson onePage).along
    fun made => { tree := reservedTrees made })
    (fun made q _ => ⟨lossyNetwork_serves made q, trivial⟩) (client textJson 3 reservedCall)
    (w := false) trivial
  have hplayed : ((client textJson 3 reservedCall).play lossyNetwork false).2 = true := by
    decide +kernel
  obtain ⟨resp, hresp, hok⟩ : ∃ resp,
      ((client textJson 3 reservedCall).play lossyNetwork false).1 = .ret (.ok resp) ∧
        resp.ok = true :=
    ⟨{ ok := true, httpStatus := 200, body := reservedBody }, rfl, rfl⟩
  have hreaches := hrun.1.seen
  rw [hplayed, hresp] at hreaches
  obtain ⟨w', hcall, hseen⟩ := client_simulates textJson_roundTrips (fun _ _ => if_pos rfl) 3
    { tree := reservedTrees false } ((reservedTrees false).withSessions fun _ => none) reservedCall
    (.ok resp) { tree := reservedTrees true } ⟨_, rfl, nofun⟩
    ⟨fun h => absurd h (by decide), fun _ _ => reserved_unused⟩ hreaches
  exact ⟨resp, w', hok, hcall, hseen⟩

end Lost

end GDrive
