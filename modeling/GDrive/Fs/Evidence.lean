/-
What an operation knows of the files it puts into the path cache: each came
in a reply of Drive to a request of its own, or from an entry that its own
query has put there.

`evidence` keeps account of it. Code may put, or report as fresh, only what
it has learned since it announced its query; the rest of the cache may answer
it anything. `Learns` has the rules for it, and an `Operation` is a program that
meets them: the read path and the write path of `OpenFile`, and `Glob`, do
(`Operation.openFileForReading`, `Operation.openFileForWriting`,
`Operation.glob`), and so does whatever resolves, calls and invalidates.
-/
import GDrive.Fs.Shared

namespace GDrive

open Interaction

/-- A file is in a reply of Drive. -/
def Carries (pj : Picojson) (request : CallReq) (resp : DriveResponse) (file : DriveFileMeta) :
    Prop :=
  resp.ok = true ∧
    match request with
    | .list _ _ => ∃ page next, parseFileList pj resp.body = some (page, next) ∧ file ∈ page
    | _ => parseFileMeta pj resp.body = some file

structure Evidence where
  known : DriveFileMeta → Prop := fun _ => False
  /-- The query that has been announced. -/
  announced : Option Nat := none

namespace Evidence

def learn (e : Evidence) (P : DriveFileMeta → Prop) : Evidence :=
  { e with known := fun file => e.known file ∨ P file }

/-- Nothing is forgotten. -/
structure Grows (e e' : Evidence) : Prop where
  announced : e'.announced = e.announced
  known : ∀ {file}, e.known file → e'.known file

theorem Grows.refl (e : Evidence) : e.Grows e := ⟨rfl, id⟩

theorem Grows.trans {e e' e'' : Evidence} (h : e.Grows e') (h' : e'.Grows e'') : e.Grows e'' :=
  ⟨h'.announced.trans h.announced, fun hfile => h'.known (h.known hfile)⟩

theorem grows_learn (e : Evidence) (P : DriveFileMeta → Prop) : e.Grows (e.learn P) :=
  ⟨rfl, .inl⟩

end Evidence

open Evidence

/-- The party that keeps account. -/
def evidence (pj : Picojson) : Env Shared Evidence where
  ask
    | .beginQuery generation, P, _ => P () { announced := some generation }
    | .setMaxEntries _, P, e => P () e
    | .tryGet _, P, e =>
        P none e ∧ ∀ file, P (some (file, false)) e ∧ P (some (file, true)) (e.learn (· = file))
    | .put _ file, P, e => e.known file ∧ P () e
    | .invalidatePrefix _, P, e => P () e
    | .lookUpMetadata _ _ _, P, e => ∀ r, P r e
    | .refreshMetadata _ _, P, e => ∀ r, P r e
    | .drive request, P, e =>
        (∀ error, P (.error error) e) ∧ ∀ resp, P (.ok resp) (e.learn (Carries pj request resp))
    | .report query found, P, e =>
        e.announced = some query ∧ (∀ file, found = some (file, true) → e.known file) ∧ P () e
  stop _ := True
  mono := by
    intro q P P' e hP h
    cases q with
    | beginQuery generation => exact hP _ _ h
    | setMaxEntries max => exact hP _ _ h
    | tryGet key => exact ⟨hP _ _ h.1, fun file => ⟨hP _ _ (h.2 file).1, hP _ _ (h.2 file).2⟩⟩
    | put key file => exact ⟨h.1, hP _ _ h.2⟩
    | invalidatePrefix key => exact hP _ _ h
    | lookUpMetadata auth fileId contextPath => exact fun r => hP _ _ (h r)
    | refreshMetadata o file => exact fun r => hP _ _ (h r)
    | drive request => exact ⟨fun error => hP _ _ (h.1 error), fun resp => hP _ _ (h.2 resp)⟩
    | report query found => exact ⟨h.1, h.2.1, hP _ _ h.2.2⟩

-- ======================================================================== rules

/-- From evidence that is `I`, code comes to `R`, and forgets nothing. -/
def Learns {S : Sig} {σ α : Type} (E : Env S Evidence) (I : Evidence → Prop) (c : Code S Exn σ α)
    (R : α → Evidence → Prop) : Prop :=
  ∀ s e, I e →
    Code.wp E c (Code.outcome (fun a _ e' => e.Grows e' ∧ R a e') fun _ _ e' => e.Grows e') s e

/-- What stays true as evidence grows. -/
def Stays (I : Evidence → Prop) : Prop := ∀ {e e'}, I e → e.Grows e' → I e'

/-- All of these files are known. -/
def AllKnown (files : List DriveFileMeta) (e : Evidence) : Prop := ∀ file ∈ files, e.known file

theorem allKnown_nil {e : Evidence} : AllKnown [] e := fun _ hfile => absurd hfile List.not_mem_nil

theorem stays_allKnown (files : List DriveFileMeta) : Stays (AllKnown files) :=
  fun h hgrows file hfile => hgrows.known (h file hfile)

theorem stays_announced (query : Nat) : Stays fun e => e.announced = some query :=
  fun h hgrows => hgrows.announced.trans h

section Rules

variable {S : Sig} {σ α β : Type} {E : Env S Evidence} {I J : Evidence → Prop}
  {R : α → Evidence → Prop} {c : Code S Exn σ α}

theorem learns_pure {a : α} (h : ∀ e, I e → R a e) : Learns E I (pure a : Code S Exn σ α) R :=
  fun _ e he => ⟨.refl e, h e he⟩

theorem learns_throw (error : Exn) : Learns E I (Code.throw error : Code S Exn σ α) R :=
  fun _ e _ => .refl e

theorem Learns.bind {f : α → Code S Exn σ β} {R' : β → Evidence → Prop} (hc : Learns E I c R)
    (hf : ∀ a, Learns E (R a) (f a) R') : Learns E I (c >>= f) R' := by
  intro s e he
  rw [Code.wp_bind]
  refine Code.wp_mono (hc s e he) ?_
  intro r s' e' h
  cases r with
  | error error => exact h
  | ok a =>
      obtain ⟨hgrows, ha⟩ := h
      refine Code.wp_mono (hf a s' e' ha) ?_
      intro r' _ e'' h'
      cases r' with
      | error error => exact hgrows.trans h'
      | ok b => exact ⟨hgrows.trans h'.1, h'.2⟩

/-- Consequence. -/
theorem Learns.weaken {R' : α → Evidence → Prop} (h : Learns E I c R) (hJ : ∀ e, J e → I e)
    (hR : ∀ a e, R a e → R' a e) : Learns E J c R' := by
  intro s e he
  refine Code.wp_mono (h s e (hJ e he)) ?_
  intro r _ e' h'
  cases r with
  | error error => exact h'
  | ok a => exact ⟨h'.1, hR a e' h'.2⟩

/-- What stays true is true afterwards. -/
theorem Learns.keeping (h : Learns E I c R) (hJ : Stays J) :
    Learns E (fun e => I e ∧ J e) c fun a e => R a e ∧ J e := by
  intro s e he
  refine Code.wp_mono (h s e he.1) ?_
  intro r _ e' h'
  cases r with
  | error error => exact h'
  | ok a => exact ⟨h'.1, h'.2, hJ he.2 h'.1⟩

/-- A check that may throw. -/
theorem learns_when (b : Bool) (error : Exn) :
    Learns E I (Code.when b (Code.throw error) : Code S Exn σ Unit) fun _ e => b = false ∧ I e := by
  cases b with
  | true => exact learns_throw error
  | false => exact learns_pure fun e he => ⟨rfl, he⟩

end Rules

-- ======================================================================== calls

section Calls

variable {pj : Picojson} {α : Type} {I : Evidence → Prop}

/-- The party as code that only calls the client meets it. -/
def callEvidence (pj : Picojson) : Env Client Evidence :=
  (evidence pj).through fun q => Prog.req (S := Shared) (SharedReq.drive q)

theorem learns_onCalls {c : CacheCode α} {R : α → Evidence → Prop}
    (h : Learns (callEvidence pj) I c R) : Learns (evidence pj) I (onCalls c) R := by
  intro _ e he
  unfold onCalls Code.outcomes
  rw [Code.wp_lift, Env.wp_handle, Env.wp_bind]
  refine Env.wp_mono (h {} e he) ?_
  intro r e' h'
  obtain ⟨r, s⟩ := r
  cases r with
  | error error => exact h'
  | ok a => exact h'

theorem learns_call (q : CallReq) :
    Learns (callEvidence pj) I (call q : CacheCode _) fun resp e =>
      ∀ file, Carries pj q resp file → e.known file := by
  intro s e _
  rw [wp_call]
  refine ⟨fun error => .refl e, fun resp => ⟨grows_learn e _, ?_⟩⟩
  intro file hfile
  exact .inr hfile

/-- There is nothing to know before a call. -/
theorem learns_calls (c : CacheCode α) : Learns (callEvidence pj) I c fun _ _ => True := by
  intro s e _
  have hprog : ∀ (p : Prog Client (Except Exn α × PathCache)) (e' : Evidence), e.Grows e' →
      (callEvidence pj).wp p (fun r e'' => Code.outcome (fun _ _ e'' => e.Grows e'' ∧ True)
        (fun _ _ e'' => e.Grows e'') r.1 r.2 e'') e' := by
    intro p
    induction p with
    | ret r =>
        intro e' hgrows
        obtain ⟨r, s⟩ := r
        cases r with
        | error error => exact hgrows
        | ok a => exact ⟨hgrows, trivial⟩
    | cut => exact fun _ _ => trivial
    | ask q k ih =>
        intro e' hgrows
        exact ⟨fun error => ih _ e' hgrows,
          fun resp => ih _ _ (hgrows.trans (grows_learn e' _))⟩
  exact hprog (c s) e (.refl e)

variable (pj)

/-- A listing knows every file on its pages. -/
theorem learns_listAll (query : DriveQuery) (contextPath malformed token : Str) (rounds : Nat)
    (found : List DriveFileMeta) :
    Learns (callEvidence pj) (AllKnown found)
      (listAll pj query contextPath malformed rounds token found : CacheCode _) AllKnown := by
  induction rounds generalizing token found with
  | zero => exact fun _ _ _ => trivial
  | succ rounds ih =>
      unfold listAll
      refine (((learns_call (.list query token)).keeping (stays_allKnown found)).weaken
        (J := AllKnown found) (fun e he => ⟨trivial, he⟩) fun _ _ h => h).bind fun resp => ?_
      refine (learns_when _ _).bind fun _ => ?_
      split
      · exact learns_throw _
      · rename_i page next hparse
        have hpage : ∀ e, (!resp.ok) = false ∧
            (∀ file, Carries pj (.list query token) resp file → e.known file) ∧ AllKnown found e →
            AllKnown (found ++ page) e := by
          intro e he file hfile
          obtain ⟨hok, hcarried, hfound⟩ := he
          rcases List.mem_append.mp hfile with hold | hnew
          · exact hfound file hold
          · exact hcarried file ⟨by simpa using hok, page, next, hparse, hnew⟩
        split
        · exact learns_pure hpage
        · exact (ih next (found ++ page)).weaken hpage fun _ _ h => h

theorem learns_listByName (rounds : Nat) (parentId name : Str) (requireFolder : Bool)
    (contextPath : Str) :
    Learns (callEvidence pj) I
      (listByName pj rounds parentId name requireFolder contextPath : CacheCode _) AllKnown :=
  (learns_listAll pj _ _ _ _ _ []).weaken (fun _ _ => allKnown_nil) fun _ _ h => h

/-- A recursive listing, too. -/
theorem learns_listFolder (rounds : Nat) (path : Str) (recursive : Bool) (depth : Nat)
    (folderId relPrefix : Str) :
    Learns (callEvidence pj) I (listFolder pj rounds path recursive depth folderId relPrefix)
      fun listing => AllKnown (listing.map (·.2)) := by
  induction depth generalizing folderId relPrefix I with
  | zero => exact fun _ _ _ => trivial
  | succ depth ih =>
      unfold listFolder
      refine ((learns_listAll pj _ _ _ _ _ []).weaken (J := I) (fun _ _ => allKnown_nil)
        fun _ _ h => h).bind fun children => ?_
      induction children with
      | nil => exact learns_pure fun e he => he
      | cons child rest ihrest =>
          unfold listFolder.listBelow
          have hinside : Learns (callEvidence pj) (AllKnown (child :: rest))
              (listFolder.descendInto (fun id rel => listFolder pj rounds path recursive depth id rel)
                (recursive && child.isFolder) child.id (below relPrefix child.name))
              fun listing e => AllKnown (listing.map (·.2)) e ∧ AllKnown (child :: rest) e := by
            unfold listFolder.descendInto
            split
            · exact ((ih child.id _ (I := fun _ => True)).keeping (stays_allKnown _)).weaken
                (fun e he => ⟨trivial, he⟩) fun _ _ h => h
            · exact learns_pure fun e he => ⟨allKnown_nil, he⟩
          refine hinside.bind fun inside => ?_
          refine (((ihrest.keeping (stays_allKnown (inside.map (·.2)))).keeping
            (stays_allKnown [child])).weaken ?_ fun _ _ h => h).bind fun others => ?_
          · intro e he
            obtain ⟨hbelow, hall⟩ := he
            refine ⟨⟨fun file hfile => hall file (List.mem_cons_of_mem _ hfile), hbelow⟩, ?_⟩
            intro file hfile
            rw [List.mem_singleton.mp hfile]
            exact hall child List.mem_cons_self
          · refine learns_pure fun e he => ?_
            obtain ⟨⟨hothers, hbelow⟩, hchild⟩ := he
            intro file hfile
            rw [List.cons_append, List.map_cons, List.map_append] at hfile
            rcases List.mem_cons.mp hfile with rfl | hfile
            · exact hchild _ List.mem_cons_self
            · rcases List.mem_append.mp hfile with hfile | hfile
              · exact hbelow file hfile
              · exact hothers file hfile

end Calls

-- ================================================================ critical sections

/-- Anything but fresh is known without more ado. -/
def FreshIsKnown (found : Option (DriveFileMeta × Bool)) (e : Evidence) : Prop :=
  ∀ file, found = some (file, true) → e.known file

section Sections

variable {pj : Picojson} {I : Evidence → Prop}

theorem learns_tryGet (key : CacheKey) :
    Learns (evidence pj) I (Shared.tryGet key) FreshIsKnown := by
  intro _ e _
  refine ⟨⟨.refl e, ?_⟩, fun file => ⟨⟨.refl e, ?_⟩, grows_learn e _, ?_⟩⟩
  · intro file hfile
    cases hfile
  · intro file' hfile
    cases hfile
  · intro file' hfile
    cases hfile
    exact .inr rfl

theorem learns_put (key : CacheKey) (file : DriveFileMeta) (hI : ∀ e, I e → e.known file) :
    Learns (evidence pj) I (Shared.put key file) fun _ e => I e :=
  fun _ e he => ⟨hI e he, .refl e, he⟩

theorem learns_invalidatePrefix (key : CacheKey) :
    Learns (evidence pj) I (Shared.invalidatePrefix key) fun _ e => I e :=
  fun _ e he => ⟨.refl e, he⟩

theorem learns_lookUpMetadata (auth : AuthContext) (fileId contextPath : Str) :
    Learns (evidence pj) I (Shared.lookUpMetadata auth fileId contextPath) fun _ e => I e := by
  intro _ e he r
  cases r with
  | error error => exact .refl e
  | ok found => exact ⟨.refl e, he⟩

theorem learns_refreshLeaf (o : Opener) (file : DriveFileMeta) :
    Learns (evidence pj) I (Shared.refreshLeaf o file) fun _ e => I e := by
  intro _ e he r
  cases r with
  | error error => exact .refl e
  | ok found => exact ⟨.refl e, he⟩

theorem learns_report (query : Nat) (found : Option (DriveFileMeta × Bool)) :
    Learns (evidence pj) (fun e => FreshIsKnown found e ∧ e.announced = some query)
      (Shared.report query found) fun _ _ => True :=
  fun _ e he => ⟨he.2, he.1, .refl e, trivial⟩

-- =================================================================== resolution

variable (pj)

theorem learns_resolveSegment (rounds : Nat) (auth : AuthContext) (isLast : Bool)
    (parentId canonical segment contextPath : Str) :
    Learns (evidence pj) I
      (Shared.resolveSegment pj rounds auth isLast parentId canonical segment contextPath)
      FreshIsKnown := by
  unfold Shared.resolveSegment
  refine (learns_tryGet _).bind fun cached => ?_
  cases cached with
  | some hit => exact learns_pure fun e he => he
  | none =>
      refine (learns_onCalls (learns_listByName pj rounds parentId segment (!isLast)
        contextPath)).bind fun found => ?_
      rcases found with _ | ⟨file, _ | ⟨_, _⟩⟩
      · exact learns_pure fun e _ file hfile => by cases hfile
      · refine (learns_put _ file fun e he => he file List.mem_cons_self).bind fun _ => ?_
        refine learns_pure fun e he file' hfile => ?_
        cases hfile
        exact he file List.mem_cons_self
      · exact learns_throw _

theorem learns_resolveSegments (rounds : Nat) (auth : AuthContext) (contextPath parentId : Str)
    (canonical : Str) (segments : List Str) :
    Learns (evidence pj) I
      (Shared.resolveSegments pj rounds auth contextPath parentId canonical segments)
      FreshIsKnown := by
  induction segments generalizing parentId canonical I with
  | nil => exact learns_pure fun e _ file hfile => by cases hfile
  | cons segment rest ih =>
      cases rest with
      | nil => exact learns_resolveSegment pj _ _ _ _ _ _ _
      | cons next rest =>
          unfold Shared.resolveSegments
          refine (learns_resolveSegment pj _ _ _ _ _ _ _).bind fun found => ?_
          cases found with
          | none => exact learns_pure fun e _ file hfile => by cases hfile
          | some hit => exact ih _ _

/-- What is resolved as fresh is known. -/
theorem learns_tryResolvePath (rounds : Nat) (auth : AuthContext) (uri : GDriveUri) :
    Learns (evidence pj) I (Shared.tryResolvePath pj rounds auth uri) FreshIsKnown := by
  have hnot : ∀ (found : Option DriveFileMeta) (e : Evidence),
      FreshIsKnown (found.map fun file => (file, false)) e := by
    intro found e file hfile
    cases found with
    | none => cases hfile
    | some _ => cases hfile
  cases uri with
  | fileId id =>
      exact (learns_lookUpMetadata (I := I) _ _ _).bind fun found =>
        learns_pure fun e _ => hnot found e
  | path segments =>
      cases segments with
      | nil =>
          exact (learns_onCalls (I := I) (learns_calls _)).bind fun found =>
            learns_pure fun e _ => hnot found e
      | cons segment rest => exact learns_resolveSegments pj _ _ _ _ _ _

theorem learns_currentLeaf (rounds : Nat) (o : Opener) (uri : GDriveUri) (file : DriveFileMeta) :
    Learns (evidence pj) I (Shared.currentLeaf pj rounds o uri file) fun _ _ => True := by
  unfold Shared.currentLeaf
  refine (learns_refreshLeaf o file).bind fun refreshed => ?_
  cases refreshed with
  | some current => exact learns_pure fun _ _ => trivial
  | none =>
      refine (learns_invalidatePrefix _).bind fun _ => ?_
      exact (learns_tryResolvePath pj _ _ _).bind fun _ => learns_pure fun _ _ => trivial

-- ============================================================== the parent walk

theorem learns_makeFolder (o : Opener) (parentId canonical segment path : Str) :
    Learns (evidence pj) I (Shared.makeFolder pj o parentId canonical segment path)
      fun _ _ => True := by
  unfold Shared.makeFolder
  refine (learns_onCalls (learns_call _)).bind fun resp => ?_
  refine (learns_when _ _).bind fun _ => ?_
  split
  · exact learns_throw _
  · rename_i created hparse
    refine (learns_put _ created fun e he => ?_).bind fun _ => learns_pure fun _ _ => trivial
    exact he.2 created ⟨by simpa using he.1, hparse⟩

theorem learns_adoptFolder (o : Opener) (canonical : Str) (folder : DriveFileMeta)
    (hI : ∀ e, I e → e.known folder) :
    Learns (evidence pj) I (Shared.adoptFolder o canonical folder) fun _ _ => True :=
  (learns_put _ folder hI).bind fun _ => learns_pure fun _ _ => trivial

theorem learns_enterListed (rounds : Nat) (o : Opener) (parentId canonical segment path : Str) :
    Learns (evidence pj) I (Shared.enterListed pj rounds o parentId canonical segment path)
      fun _ _ => True := by
  unfold Shared.enterListed
  refine (learns_onCalls (learns_listByName pj rounds _ _ _ _)).bind fun found => ?_
  rcases found with _ | ⟨folder, _ | ⟨_, _⟩⟩
  · unfold Shared.makeFreeFolder
    refine (learns_onCalls (learns_listByName pj rounds _ _ _ _)).bind fun anyKind => ?_
    split
    · exact learns_throw _
    · rename_i folder _ hfolder
      refine learns_adoptFolder pj o _ folder fun e he => he folder ?_
      exact List.mem_of_mem_filter (List.mem_of_getLast? hfolder)
    · exact learns_makeFolder pj o _ _ _ _
  · exact learns_adoptFolder pj o _ folder fun e he => he folder List.mem_cons_self
  · exact learns_throw _

theorem learns_enterFolder (rounds : Nat) (o : Opener) (parentIsNew : Bool)
    (parentId canonical segment path : Str) :
    Learns (evidence pj) I
      (Shared.enterFolder pj rounds o parentIsNew parentId canonical segment path)
      fun _ _ => True := by
  unfold Shared.enterFolder
  split
  · exact learns_makeFolder pj o _ _ _ _
  · refine (learns_tryGet _).bind fun cached => ?_
    rcases cached with _ | ⟨file, fresh⟩
    · exact learns_enterListed pj rounds o _ _ _ _
    · simp only
      split
      · exact learns_pure fun _ _ => trivial
      · exact (learns_invalidatePrefix _).bind fun _ => learns_enterListed pj rounds o _ _ _ _

theorem learns_walkParents (rounds : Nat) (o : Opener) (path : Str) (parentIsNew : Bool)
    (parentId canonical : Str) (segments : List Str) :
    Learns (evidence pj) I
      (Shared.walkParents pj rounds o path parentIsNew parentId canonical segments)
      fun _ _ => True := by
  induction segments generalizing parentIsNew parentId canonical I with
  | nil => exact learns_pure fun _ _ => trivial
  | cons segment rest ih =>
      unfold Shared.walkParents
      exact (learns_enterFolder pj rounds o _ _ _ _ _).bind fun _ => ih _ _ _

theorem learns_openFileForWriting (rounds : Nat) (o : Opener) (path : Str) :
    Learns (evidence pj) I (Shared.openFileForWriting pj rounds o path) fun _ _ => True := by
  unfold Shared.openFileForWriting
  refine (learns_onCalls (learns_calls _)).bind fun uri => ?_
  cases uri with
  | fileId id => exact learns_pure fun _ _ => trivial
  | path segments =>
      simp only
      split
      · exact learns_throw _
      · refine (learns_walkParents pj rounds o _ _ _ _ _).bind fun parent => ?_
        refine (learns_onCalls (learns_calls _)).bind fun existing => ?_
        rcases existing with _ | ⟨file, _ | ⟨_, _⟩⟩
        · exact learns_pure fun _ _ => trivial
        · exact learns_pure fun _ _ => trivial
        · exact learns_throw _

-- ======================================================================== globs

theorem learns_putEach (o : Opener) (literalPrefix : Str) (listing : List Listed) :
    Learns (evidence pj) (AllKnown (listing.map (·.2)))
      (Shared.putEach o literalPrefix listing) fun _ _ => True := by
  induction listing with
  | nil => exact learns_pure fun _ _ => trivial
  | cons entry rest ih =>
      refine (learns_put _ entry.2 fun e he => he _ List.mem_cons_self).bind fun _ => ?_
      exact ih.weaken (fun e he file hfile => he file (List.mem_cons_of_mem _ hfile)) fun _ _ h => h

theorem learns_globLiteral (rounds : Nat) (o : Opener) (uri : GDriveUri) (path : Str) :
    Learns (evidence pj) I (Shared.globLiteral pj rounds o uri path) fun _ _ => True := by
  unfold Shared.globLiteral
  refine (learns_tryResolvePath pj _ _ _).bind fun found => ?_
  rcases found with _ | ⟨file, fresh⟩
  · exact learns_pure fun _ _ => trivial
  · exact learns_pure fun _ _ => trivial

theorem learns_globRoot (rounds : Nat) (o : Opener) (literalPrefix : Str) :
    Learns (evidence pj) I (Shared.globRoot pj rounds o literalPrefix) fun _ _ => True := by
  unfold Shared.globRoot
  split
  · exact learns_pure fun _ _ => trivial
  · split
    · exact learns_throw _
    · exact (learns_tryResolvePath pj _ _ _).bind fun _ => learns_pure fun _ _ => trivial

/-- A listing warms the cache with what it has listed. -/
theorem learns_globPattern (signed : Bool) (rounds : Nat) (o : Opener) (depth : Nat)
    (path pattern : Str) :
    Learns (evidence pj) I (Shared.globPattern signed pj rounds o depth path pattern)
      fun _ _ => True := by
  unfold Shared.globPattern
  refine (learns_globRoot pj rounds o _).bind fun root => ?_
  cases root with
  | none => exact learns_pure fun _ _ => trivial
  | some folderId =>
      refine (learns_onCalls (learns_listFolder pj _ _ _ _ _ _)).bind fun listing => ?_
      refine Learns.bind ((learns_putEach pj o _ _).weaken ?_ fun _ _ h => h) fun _ =>
        learns_pure fun _ _ => trivial
      intro e he file hfile
      obtain ⟨entry, hentry, rfl⟩ := List.mem_map.mp hfile
      exact he _ (List.mem_map_of_mem (List.mem_of_mem_filter hentry))

theorem learns_globExpansions (signed : Bool) (rounds : Nat) (o : Opener) (depth : Nat)
    (path : Str) (patterns : List Str) :
    Learns (evidence pj) I (Shared.globExpansions signed pj rounds o depth path patterns)
      fun _ _ => True := by
  induction patterns generalizing I with
  | nil => exact learns_pure fun _ _ => trivial
  | cons pattern rest ih =>
      have hone : Learns (evidence pj) I
          (Shared.globExpansion signed pj rounds o depth path pattern) fun _ _ => True := by
        unfold Shared.globExpansion
        split
        · exact learns_globPattern pj signed rounds o _ _ _
        · split
          · exact learns_pure fun _ _ => trivial
          · exact learns_globLiteral pj rounds o _ _
      exact hone.bind fun _ => ih.bind fun _ => learns_pure fun _ _ => trivial

theorem learns_globPath (signed : Bool) (rounds : Nat) (o : Opener) (depth : Nat) (path : Str)
    (uri : GDriveUri) :
    Learns (evidence pj) I (Shared.globPath signed pj rounds o depth path uri) fun _ _ => True := by
  unfold Shared.globPath
  split
  · exact learns_throw _
  · refine (learns_globExpansions pj signed rounds o _ _ _).bind fun found => ?_
    unfold Shared.orLiteral
    split
    · exact learns_globLiteral pj rounds o _ _
    · exact learns_pure fun _ _ => trivial

end Sections

-- ================================================================== operations

/-- Code that puts and reports nothing that it does not know, from the
beginning. -/
def Honest (pj : Picojson) {α : Type} (c : SharedCode α) : Prop :=
  Code.wp (evidence pj) c (fun _ _ _ => True) () {}

section Honest

variable {pj : Picojson} {α : Type}

theorem Learns.honest {c : SharedCode α} {R : α → Evidence → Prop}
    (h : Learns (evidence pj) (fun _ => True) c R) : Honest pj c :=
  Code.wp_mono (h () {} trivial) fun _ _ _ _ => trivial

/-- Code that announces its query first. -/
theorem honest_of_announced {o : Opener} {c : SharedCode α} {R : α → Evidence → Prop}
    (h : Learns (evidence pj) (fun e => e.announced = some o.query) c R) :
    Honest pj (Shared.beginQuery o >>= fun _ => c) := by
  have hrest : Code.wp (evidence pj) c (fun _ _ _ => True) () { announced := some o.query } :=
    Code.wp_mono (h () _ rfl) fun _ _ _ _ => trivial
  unfold Honest
  rw [Code.wp_bind]
  exact hrest

theorem honest_resolveForReading (rounds : Nat) (o : Opener) (path : Str) (uri : GDriveUri) :
    Honest pj (Shared.resolveForReading pj rounds o path uri) := by
  refine honest_of_announced (R := fun _ _ => True) ?_
  refine (((learns_tryResolvePath pj rounds o.auth uri (I := fun _ => True)).keeping
    (stays_announced o.query)).weaken (fun e he => ⟨trivial, he⟩) fun _ _ h => h).bind
      fun found => ?_
  refine (learns_report o.query found).bind fun _ => ?_
  rcases found with _ | ⟨file, leafIsFresh⟩
  · exact learns_pure fun _ _ => trivial
  · simp only
    split
    · exact learns_throw _
    · split
      · exact learns_pure fun _ _ => trivial
      · exact learns_currentLeaf pj rounds o uri file

theorem honest_globFound (signed : Bool) (rounds : Nat) (o : Opener) (depth : Nat) (path : Str) :
    Honest pj (Shared.globFound signed pj rounds o depth path) := by
  unfold Shared.globFound
  split
  · exact (learns_throw (R := fun _ _ => True) _).honest
  · refine honest_of_announced (R := fun _ _ => True) ?_
    split
    · split
      · exact learns_pure fun _ _ => trivial
      · exact learns_throw _
    · exact learns_globLiteral pj rounds o _ _
    · split
      · exact learns_globPath pj signed rounds o _ _ _
      · exact learns_globLiteral pj rounds o _ _

end Honest

/-- What a thread can run: it is honest. -/
structure Operation (pj : Picojson) where
  prog : Prog Shared Unit
  honest : (evidence pj).wp prog (fun _ _ => True) {}

namespace Operation

variable (pj : Picojson)

/-- Honest code, whatever it returns. -/
def of {α : Type} (c : SharedCode α) (h : Honest pj c) : Operation pj where
  prog := (c ()).bind fun _ => .ret ()
  honest := by
    rw [Env.wp_bind]
    exact h

/-- `OpenFile` for reading, as far as it concerns the path cache. -/
def openFileForReading (rounds : Nat) (o : Opener) (path : Str) (uri : GDriveUri) : Operation pj :=
  of pj _ (honest_resolveForReading rounds o path uri)

/-- `OpenFile` for writing, which announces nothing. -/
def openFileForWriting (rounds : Nat) (o : Opener) (path : Str) : Operation pj :=
  of pj _ (learns_openFileForWriting pj rounds o path).honest

def glob (signed : Bool) (rounds : Nat) (o : Opener) (depth : Nat) (path : Str) : Operation pj :=
  of pj _ (honest_globFound signed rounds o depth path)

end Operation

end GDrive
