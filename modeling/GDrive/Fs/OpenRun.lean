/-
Runs over open files.

The invariant (`Tracks`) has the path cache agree with the tree, and each
upload that a handle or a session may still publish rename nothing. Each
operation keeps it, and with it whatever of the tree and of the cache is kept
by the changes that the operations make (`Tracking`): folders that are made,
and publications that a guard allows.
-/
import GDrive.Fs.OpenFiles
import GDrive.Fs.OpenWrites

namespace GDrive

open Interaction

/-- What holds of the tree (`J`), of the entries (`X`) and of the metadata
(`Y`) of the cache, and is not ended by what the operations do where what is
published `leaves` it alone. -/
structure Tracking (mayFail : CallReq → Prop) (leaves : OpenUpload → Prop) (J : World → Prop)
    (X : World → DriveFileMeta → Nat → Prop) (Y : World → Nat → Str → DriveFileMeta → Prop) :
    Prop where
  sound : ∀ {w}, J w → SoundFacts w mayFail (X w) (Y w)
  entries : ∀ {w w' file g}, w.Extends w' → X w file g → X w' file g
  metadata : ∀ {w w' g id file}, w.Extends w' → Y w g id file → Y w' g id file
  still : ∀ {w w'}, J w → w.Becomes w.nodes w' → J w'
  creates : ∀ {w w' p folder}, J w → w.Creates p folder w' → J w'
  publishes : ∀ {w w' u size file}, J w → w.Publishes u false size file w' → leaves u → J w'

/-- The invariant of a run. -/
structure Tracks (auth : AuthContext) (J : World → Prop) (X : World → DriveFileMeta → Nat → Prop)
    (Y : World → Nat → Str → DriveFileMeta → Prop) (s : OpenFiles) (w : World) : Prop where
  holds : J w
  agrees : CacheInv w auth (X w) (Y w) s.fs.cache
  root : rootFolderFor auth = w.rootAlias
  readers : ∀ r ∈ s.readers, r.auth = auth
  writers : ∀ h ∈ s.writers, h.isWrite = true → w.KeepsName h.target
  sessions : ∀ {uri u}, w.sessions uri = some u → w.KeepsName u

/-- An operation of the identity. What a `Close` publishes is `leaves`. -/
def AccessOp.Allowed (auth : AuthContext) (leaves : OpenUpload → Prop) (op : AccessOp)
    (s : OpenFiles) (w : World) : Prop :=
  match op with
  | .lookup op => op.opener.auth = auth ∧ op.ByPath w
  | .openForReading o _ _ | .openForWriting o _ => o.auth = auth
  | .readAt _ _ _ _ | .readNext _ _ _ | .seek _ _ | .write _ _ => True
  | .close k => ∀ h u, s.writers[k]? = some h → h.publication w = some u → leaves u

section OpenRun

variable {signed : Bool} {pj : Picojson} {rounds : Nat} {auth : AuthContext}
  {mayFail : CallReq → Prop} {leaves : OpenUpload → Prop} {J : World → Prop}
  {X : World → DriveFileMeta → Nat → Prop} {Y : World → Nat → Str → DriveFileMeta → Prop}
  {R : Rel Client World} {s : OpenFiles} {w w' : World}

theorem CacheInv.extends {c : PathCache} (h : CacheInv w auth (X w) (Y w) c)
    (hgrows : w.Extends w') (hX : ∀ {file g}, X w file g → X w' file g)
    (hY : ∀ {g id file}, Y w g id file → Y w' g id file) :
    CacheInv w' auth (X w') (Y w') c :=
  ⟨fun hsegs he => (h.names hsegs he).extends hgrows, fun he => hX (h.stamps he),
    fun hfile => hY (h.looked hfile)⟩

/-- The tree has grown, and what was open renames nothing still. -/
theorem Tracks.grows (ht : Tracking mayFail leaves J X Y) (h : Tracks auth J X Y s w)
    (hgrows : w.Extends w') (hJ : J w')
    (hsessions : ∀ {uri u}, w'.sessions uri = some u → w.KeepsName u) : Tracks auth J X Y s w' := by
  refine ⟨hJ, h.agrees.extends hgrows (ht.entries hgrows) (ht.metadata hgrows), ?_, h.readers, ?_,
    fun hu => (hsessions hu).extends hgrows⟩
  · rw [h.root, hgrows.rootAlias]
  · exact fun handle hmem hwrite => (h.writers handle hmem hwrite).extends hgrows

/-- Another cache that agrees with the tree. -/
theorem Tracks.recache {c : PathCache} (h : Tracks auth J X Y s w)
    (hc : CacheInv w auth (X w) (Y w) c) :
    Tracks auth J X Y { s with fs := { s.fs with cache := c } } w :=
  ⟨h.holds, hc, h.root, h.readers, h.writers, h.sessions⟩

/-- Opening for writing keeps it. -/
theorem Tracks.keptByWalks (ht : Tracking mayFail leaves J X Y) (s : OpenFiles) :
    KeptByWalks auth X Y
      (fun c w => Tracks auth J X Y { s with fs := { s.fs with cache := c } } w) where
  agrees h := h.agrees
  root h := h.root
  recache h hc := h.recache hc
  listed := by
    intro c w p name folder g h hfolder
    have hfound : w.found p name true = [folder] := hfolder
    exact (ht.sound h.holds).listed hfound g
  creates := by
    intro c w w' p folder h hcreates hkind hfree hsessions
    refine h.grows ht (hcreates.extends_folder hkind hfree) (ht.creates h.holds hcreates) ?_
    intro uri u hu
    rw [hsessions] at hu
    exact h.sessions hu

-- ===================================================================== the reads

theorem wp_openFileForReading_auth {o : Opener}
    (hR : ∀ w q r w', R w q r w' → treeRel pj mayFail w q r w') (hrounds : 1 ≤ rounds)
    (hs : SoundFacts w mayFail (X w) (Y w)) (hroot : rootFolderFor o.auth = w.rootAlias)
    (path : Str) (nullIfNotExists : Bool) {fs : Fs}
    (hcache : CacheInv w o.auth (X w) (Y w) fs.cache) :
    Code.wp (globEnv R) (openFileForReading pj rounds o path nullIfNotExists)
      (fun out fs' w' => w' = w ∧ CacheInv w o.auth (X w) (Y w) fs'.cache ∧
        ∀ handle, out = .ok (some handle) → handle.auth = o.auth) fs w := by
  unfold openFileForReading checkedUri
  rw [Code.wp_bind]
  split
  · exact ⟨rfl, hcache, nofun⟩
  · rename_i uri hparse
    split
    · rw [Code.wp_pure, Code.outcome_ok, Code.wp_bind]
      unfold Fs.onCache
      rw [Code.wp_zoom]
      refine Code.wp_mono (keeps_resolveForReading hR hrounds hs hroot path (clean_of_parse hparse)
        _ w ⟨rfl, hcache⟩) ?_
      intro out c' w' ⟨hw, hc⟩
      subst hw
      cases out with
      | error e => exact ⟨rfl, hc, nofun⟩
      | ok found =>
          rw [Code.outcome_ok]
          cases found with
          | none =>
              simp only
              split
              · exact ⟨rfl, hc, nofun⟩
              · exact ⟨rfl, hc, nofun⟩
          | some file =>
              simp only
              rw [Code.wp_bind, Code.wp_modify, Code.outcome_ok]
              split
              · unfold withExport
                rw [Code.wp_bind, Code.wp_bind, wp_call]
                refine ⟨trivial, ?_⟩
                intro r w'' hr
                have hsame : w'' = w' := by
                  rcases hR _ _ _ _ hr with ⟨resp, -, -, hsame⟩ | ⟨_, _, hget, -⟩ |
                    ⟨-, -, hsame | ⟨resp, hsame⟩⟩
                  · exact hsame
                  · cases hget
                  · exact hsame
                  · exact hsame
                cases r with
                | error e => exact ⟨hsame, hc, nofun⟩
                | ok resp =>
                    rw [Code.outcome_ok, Code.wp_bind, Code.wp_when]
                    refine ⟨fun _ => ⟨hsame, hc, nofun⟩, fun _ => ⟨hsame, hc, ?_⟩⟩
                    intro handle hhandle
                    cases hhandle
                    rfl
              · refine ⟨rfl, hc, ?_⟩
                intro handle hhandle
                cases hhandle
                rfl
    · exact ⟨rfl, hcache, nofun⟩

theorem keeps_openForReading {o : Opener} {path : Str} {nullIfNotExists : Bool}
    (hR : ∀ w q r w', R w q r w' → treeRel pj mayFail w q r w') (hrounds : 1 ≤ rounds)
    (ht : Tracking mayFail leaves J X Y) :
    Code.Keeps (globEnv R) (Tracks o.auth J X Y)
      ((AccessOp.openForReading o path nullIfNotExists).body signed pj rounds) := by
  intro s w h
  unfold AccessOp.body OpenFiles.onFs
  rw [Code.wp_bind, Code.wp_zoom]
  refine Code.wp_mono (wp_openFileForReading_auth hR hrounds (ht.sound h.holds) h.root path
    nullIfNotExists h.agrees) ?_
  intro out fs' w' ⟨hw, hc, hauth⟩
  subst hw
  cases out with
  | error e => exact ⟨h.holds, hc, h.root, h.readers, h.writers, h.sessions⟩
  | ok opened =>
      refine ⟨h.holds, hc, h.root, ?_, h.writers, h.sessions⟩
      intro handle hmem
      rcases List.mem_append.mp hmem with hmem | hmem
      · exact h.readers handle hmem
      · rw [Option.mem_toList] at hmem
        exact hauth handle (congrArg _ hmem)

/-- Code over one of the readers. -/
theorem keeps_onReader {k : Nat} {code : ReadCode Unit}
    (hcode : ∀ w, J w → rootFolderFor auth = w.rootAlias →
      Code.Keeps (globEnv R) (ReadsIn w auth (X w) (Y w)) code) :
    Code.Keeps (globEnv R) (Tracks auth J X Y) (OpenFiles.onReader k code) := by
  intro s w h
  unfold Code.wp OpenFiles.onReader
  split
  · rename_i handle hhandle
    rw [Env.wp_bind]
    have hauth := h.readers handle (List.mem_of_getElem? hhandle)
    refine Env.wp_mono (hcode w h.holds h.root _ w ⟨⟨rfl, h.agrees⟩, hauth⟩) ?_
    intro r w' ⟨⟨hw, hc⟩, hauth'⟩
    subst hw
    refine ⟨h.holds, hc, h.root, ?_, h.writers, h.sessions⟩
    intro reader hmem
    rcases List.mem_or_eq_of_mem_set hmem with hmem | rfl
    · exact h.readers reader hmem
    · exact hauth'
  · exact h

-- ==================================================================== the writes

theorem keeps_openForWriting {o : Opener} {path : Str}
    (hR : ∀ w q r w', R w q r w' → treeRel pj mayFail w q r w') (hrounds : 1 ≤ rounds)
    (ht : Tracking mayFail leaves J X Y) :
    Code.Keeps (globEnv R) (Tracks o.auth J X Y)
      ((AccessOp.openForWriting o path).body signed pj rounds) := by
  intro s w h
  unfold AccessOp.body OpenFiles.onFs Fs.onCache
  rw [Code.wp_bind, Code.wp_zoom, Code.wp_zoom]
  refine Code.wp_mono (Code.wp_of_total
    (wp_openFileForWriting_kept hR hrounds (Tracks.keptByWalks ht s) h path)) ?_
  intro out c' w' ⟨h', hfresh⟩
  cases out with
  | error e => exact h'
  | ok handle =>
      refine ⟨h'.holds, h'.agrees, h'.root, h'.readers, ?_, h'.sessions⟩
      intro writer hmem hwrite
      rcases List.mem_append.mp hmem with hmem | hmem
      · exact h'.writers writer hmem hwrite
      · rw [List.mem_singleton.mp hmem]
        exact (hfresh handle rfl).keepsName

theorem wp_onWriter {E : Env Client World} {k : Nat} {code : WriteCode Unit}
    {Q : Except Exn Unit → OpenFiles → World → Prop}
    (hcode : ∀ handle, s.writers[k]? = some handle → Code.wp E code
      (fun out h' w' => Q out { s with writers := s.writers.set k h' } w') handle w)
    (hnone : s.writers[k]? = none → Q (.ok ()) s w) :
    Code.wp E (OpenFiles.onWriter k code) Q s w := by
  unfold Code.wp OpenFiles.onWriter
  split
  · rename_i handle hhandle
    rw [Env.wp_bind]
    exact hcode handle hhandle
  · rename_i hmissing
    exact hnone hmissing

/-- Another handle in its place, which is to publish what renames nothing. -/
theorem Tracks.rehandle (h : Tracks auth J X Y s w) (k : Nat) {h' : WriteHandle}
    (hkeeps : h'.isWrite = true → w.KeepsName h'.target) :
    Tracks auth J X Y { s with writers := s.writers.set k h' } w := by
  refine ⟨h.holds, h.agrees, h.root, h.readers, ?_, h.sessions⟩
  intro writer hmem hwrite
  rcases List.mem_or_eq_of_mem_set hmem with hmem | rfl
  · exact h.writers writer hmem hwrite
  · exact hkeeps hwrite

theorem keeps_writeOp {k : Nat} {data : Str}
    (hR : ∀ w q r w', R w q r w' → treeRel pj mayFail w q r w')
    (ht : Tracking mayFail leaves J X Y) :
    Code.Keeps (globEnv R) (Tracks auth J X Y)
      ((AccessOp.write k data).body signed pj rounds) := by
  intro s w h
  refine wp_onWriter ?_ fun _ => h
  intro handle hhandle
  have hmem := List.mem_of_getElem? hhandle
  cases hwrite : handle.isWrite with
  | false =>
      -- Nothing has been sent of a handle that does not write.
      unfold GDrive.write
      rw [Code.wp_bind, Code.wp_get, Code.outcome_ok, if_pos (.inl hwrite)]
      refine h.rehandle k ?_
      rw [hwrite]
      exact nofun
  | true =>
      have hkeeps := h.writers handle hmem hwrite
      refine Code.wp_mono (keeps_write hR data handle w (.start handle w)) ?_
      intro out h' w' hkept
      have hgrows := hkept.becomes.extends
      refine (h.grows ht hgrows (ht.still h.holds hkept.becomes) ?_).rehandle k fun _ => ?_
      · intro uri u hu
        rcases hkept.sessions hu with hbefore | rfl
        · exact h.sessions hbefore
        · exact hkeeps
      · rw [hkept.target]
        exact hkeeps.extends hgrows

theorem WriteHandle.isWrite_of_publication {handle : WriteHandle} {u : OpenUpload}
    (h : handle.publication w = some u) : handle.isWrite = true := by
  unfold WriteHandle.publication at h
  split at h
  · rename_i hboth _
    exact (Bool.and_eq_true_iff.mp hboth).1
  · cases h

/-- What a handle publishes renames nothing. -/
theorem Tracks.keepsName (h : Tracks auth J X Y s w) {k : Nat} {handle : WriteHandle}
    {u : OpenUpload} (hhandle : s.writers[k]? = some handle)
    (hdue : handle.publication w = some u) : w.KeepsName u := by
  have hkeeps := h.writers handle (List.mem_of_getElem? hhandle)
    (WriteHandle.isWrite_of_publication hdue)
  unfold WriteHandle.publication at hdue
  split at hdue
  · split at hdue
    · exact h.sessions hdue
    · cases hdue
      exact hkeeps
  · cases hdue

/-- A `Close` whose handle writes. -/
theorem Tracks.closed (ht : Tracking mayFail leaves J X Y) (h : Tracks auth J X Y s w) {k : Nat}
    {handle h' : WriteHandle} {out : Except Exn Unit} (hhandle : s.writers[k]? = some handle)
    (hwrite : handle.isWrite = true) (hclosed : Closed w handle out h' w')
    (hleaves : ∀ u, handle.publication w = some u → leaves u) :
    Tracks auth J X Y { s with writers := s.writers.set k h' } w' := by
  have hkeeps := h.writers handle (List.mem_of_getElem? hhandle) hwrite
  have hsessions : ∀ {uri u}, w'.sessions uri = some u → w.KeepsName u := by
    intro uri u hu
    rcases hclosed.done.sessions hu with hbefore | rfl
    · exact h.sessions hbefore
    · exact hkeeps
  have hgrown : Tracks auth J X Y s w' := by
    rcases hclosed.done.tree with hbecomes | ⟨u, size, file, hu, hpublishes⟩
    · exact h.grows ht hbecomes.extends (ht.still h.holds hbecomes) hsessions
    · exact h.grows ht (hpublishes.extends (h.keepsName hhandle hu))
        (ht.publishes h.holds hpublishes (hleaves u hu)) hsessions
  refine hgrown.rehandle k ?_
  rw [hclosed.isWrite]
  exact nofun

theorem wp_closeOp {k : Nat} (hR : ∀ w q r w', R w q r w' → treeRel pj mayFail w q r w')
    (ht : Tracking mayFail leaves J X Y) (h : Tracks auth J X Y s w)
    (hleaves : ∀ handle u, s.writers[k]? = some handle → handle.publication w = some u → leaves u) :
    Code.wp (globEnv R) ((AccessOp.close k).body signed pj rounds)
      (fun _ s' w' => Tracks auth J X Y s' w') s w := by
  refine wp_onWriter ?_ fun _ => h
  intro handle hhandle
  cases hwrite : handle.isWrite with
  | false =>
      unfold GDrive.close
      rw [Code.wp_bind, Code.wp_get, Code.outcome_ok, Code.wp_when, hwrite]
      refine ⟨nofun, fun _ => h.rehandle k ?_⟩
      rw [hwrite]
      exact nofun
  | true =>
      refine Code.wp_mono (wp_close_closed hR) ?_
      intro out h' w' hclosed
      exact h.closed ht hhandle hwrite hclosed fun u => hleaves handle u hhandle

-- ======================================================================= the run

/-- Each operation that is allowed keeps the invariant. -/
theorem AccessOp.wp_body (hR : ∀ w q r w', R w q r w' → treeRel pj mayFail w q r w')
    (hrounds : 1 ≤ rounds) (ht : Tracking mayFail leaves J X Y) {op : AccessOp}
    (h : Tracks auth J X Y s w) (hallowed : op.Allowed auth leaves s w) :
    Code.wp (globEnv R) (op.body signed pj rounds) (fun _ s' w' => Tracks auth J X Y s' w')
      s w := by
  cases op with
  | lookup op =>
      obtain ⟨rfl, hpath⟩ := hallowed
      unfold AccessOp.body OpenFiles.onFs Fs.onCache
      rw [Code.wp_zoom, Code.wp_zoom]
      refine Code.wp_mono (LookupOp.keeps_body hR hrounds (ht.sound h.holds) h.root hpath _ w
        ⟨rfl, h.agrees⟩) ?_
      intro out c' w' ⟨hw, hc⟩
      subst hw
      exact h.recache hc
  | openForReading o path nullIfNotExists =>
      obtain rfl := hallowed
      exact keeps_openForReading hR hrounds ht s w h
  | readAt k thread nrBytes location =>
      refine keeps_onReader (fun w hJ hroot => ?_) s w h
      exact (keeps_readAt hR hrounds (ht.sound hJ) hroot nrBytes location).bind
        fun _ => Code.keeps_pure ()
  | readNext k thread nrBytes =>
      refine keeps_onReader (fun w hJ hroot => ?_) s w h
      exact (keeps_readNext hR hrounds (ht.sound hJ) hroot nrBytes).bind
        fun _ => Code.keeps_pure ()
  | seek k location =>
      have hseek : Code.Keeps (globEnv R) (Tracks auth J X Y)
          (OpenFiles.onReader k (GDrive.seek location)) :=
        keeps_onReader fun w _ _ => keeps_adjust fun _ => ⟨rfl, rfl⟩
      exact hseek s w h
  | openForWriting o path =>
      obtain rfl := hallowed
      exact keeps_openForWriting hR hrounds ht s w h
  | write k data => exact keeps_writeOp hR ht s w h
  | close k => exact wp_closeOp hR ht h hallowed

/-- So a run of allowed operations does. -/
theorem Tracks.run (hrounds : 1 ≤ rounds) (ht : Tracking mayFail leaves J X Y)
    (h : Tracks auth J X Y s w) {past : List (AccessOp × Except Exn Unit)} {s' : OpenFiles}
    (hrun : Guarded (treeRel pj mayFail) (AccessOp.body signed pj rounds)
      (AccessOp.Allowed auth leaves) s w past s' w') : Tracks auth J X Y s' w' :=
  hrun.inv (I := Tracks auth J X Y)
    (fun _ _ _ h hallowed => AccessOp.wp_body (fun _ _ _ _ hr => hr) hrounds ht h hallowed) h

end OpenRun

end GDrive
