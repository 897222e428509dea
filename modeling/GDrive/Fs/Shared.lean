/-
The operations that fill the path cache, as the threads that share it run
them: between two critical sections, or around a Drive call, another thread
may come in.

`Shared` is the signature of these moments, and `Shared.tryResolvePath` and
the others are the functions of the same names with the moments in them. A
thread that runs alone does just what those do (`alone_resolveForReading`,
`alone_openFileForWriting`, `alone_globFound`).
-/
import GDrive.Fs.Glob
import GDrive.Fs.Open
import GDrive.Interaction.Interpret

namespace GDrive

open Interaction

/-- One critical section of the path cache, or one call of the client. -/
inductive SharedReq
  | beginQuery (generation : Nat)
  | setMaxEntries (max : Nat)
  | tryGet (key : CacheKey)
  | put (key : CacheKey) (file : DriveFileMeta)
  | invalidatePrefix (key : CacheKey)
  /-- `GetOrFetchMetadata`, for the id: form and for the refresh of a leaf: it
  reads and fills the metadata entries only. -/
  | lookUpMetadata (auth : AuthContext) (fileId contextPath : Str)
  | refreshMetadata (o : Opener) (file : DriveFileMeta)
  | drive (request : CallReq)
  /-- No moment of the code: `OpenFile` has been told this by
  `TryResolvePath`, for its query. -/
  | report (query : Nat) (found : Option (DriveFileMeta × Bool))

abbrev Shared : Sig where
  Req := SharedReq
  Ans
    | .tryGet _ => Option (DriveFileMeta × Bool)
    | .lookUpMetadata _ _ _ => Except Exn (Option DriveFileMeta)
    | .refreshMetadata _ _ => Except Exn (Option DriveFileMeta)
    | .drive _ => Except Exn DriveResponse
    | _ => Unit

/-- Code with the moments in it. -/
abbrev SharedCode (α : Type) := Code Shared Exn Unit α

/-- What a request does where no other thread runs. -/
def alone (pj : Picojson) (thread : Nat) : (q : SharedReq) → CacheCode (Shared.Ans q)
  | .beginQuery generation => Code.modify (PathCache.beginQuery thread generation)
  | .setMaxEntries max => Code.modify (PathCache.setMaxEntries max)
  | .tryGet key => useCache (PathCache.tryGet thread key)
  | .put key file => Code.modify (PathCache.put thread key file)
  | .invalidatePrefix key => Code.modify (PathCache.invalidatePrefix key)
  | .lookUpMetadata auth fileId contextPath =>
      Code.attempt (getOrFetchMetadata auth fileId (fetchMetadata pj fileId contextPath))
  | .refreshMetadata o file => Code.attempt (refreshLeaf pj o file)
  | .drive request => Code.req request
  | .report _ _ => pure ()

-- ======================================================================= pieces

/-- A piece of code that calls the client and does not look at the cache. -/
def onCalls {α : Type} (c : CacheCode α) : SharedCode α :=
  Code.lift ((c.outcomes {}).handle fun q => Prog.req (S := Shared) (SharedReq.drive q))

theorem alone_onCalls {pj : Picojson} {thread : Nat} {α : Type} {c : CacheCode α} (h : c.Idle) :
    Code.interpret (alone pj thread) (onCalls c) = c := by
  refine Code.interpret_idle h {} _ _ ?_
  intro q
  exact bind_pure (Code.req q : CacheCode _)

section Idle

variable (pj : Picojson) (rounds : Nat)

theorem idle_listAll (query : DriveQuery) (contextPath malformed token : Str)
    (found : List DriveFileMeta) :
    (listAll pj query contextPath malformed rounds token found : CacheCode _).Idle := by
  induction rounds generalizing token found with
  | zero => exact Code.idle_cut
  | succ rounds ih =>
      unfold listAll
      refine Code.idle_bind (Code.idle_lift _) fun resp => ?_
      refine Code.idle_bind (Code.idle_when _ (Code.idle_throw _)) fun _ => ?_
      split
      · exact Code.idle_throw _
      · split
        · exact Code.idle_pure _
        · exact ih _ _

theorem idle_listByName (parentId name : Str) (requireFolder : Bool) (contextPath : Str) :
    (listByName pj rounds parentId name requireFolder contextPath : CacheCode _).Idle :=
  idle_listAll pj rounds _ _ _ _ _

theorem idle_fetchMetadata (fileId contextPath : Str) :
    (fetchMetadata pj fileId contextPath : CacheCode _).Idle := by
  unfold fetchMetadata
  refine Code.idle_bind (Code.idle_lift _) fun resp => ?_
  split
  · split
    · exact Code.idle_pure _
    · exact Code.idle_throw _
  · split
    · exact Code.idle_throw _
    · exact Code.idle_pure _

theorem idle_listFolder (path : Str) (recursive : Bool) (depth : Nat) (folderId relPrefix : Str) :
    (listFolder pj rounds path recursive depth folderId relPrefix).Idle := by
  induction depth generalizing folderId relPrefix with
  | zero => exact Code.idle_cut
  | succ depth ih =>
      unfold listFolder
      refine Code.idle_bind (idle_listAll pj rounds _ _ _ _ _) fun children => ?_
      induction children with
      | nil => exact Code.idle_pure _
      | cons child rest ihrest =>
          unfold listFolder.listBelow
          refine Code.idle_bind ?_ fun inside => Code.idle_bind ihrest fun others => Code.idle_pure _
          unfold listFolder.descendInto
          split
          · exact ih _ _
          · exact Code.idle_pure _

theorem idle_checkedUri (o : Opener) (path : Str) : (checkedUri o path : CacheCode _).Idle := by
  unfold checkedUri
  split
  · exact Code.idle_throw _
  · split
    · exact Code.idle_pure _
    · exact Code.idle_throw _

theorem idle_probeLeaf (parentIsNew : Bool) (parentId name path : Str) :
    (probeLeaf pj rounds parentIsNew parentId name path).Idle := by
  unfold probeLeaf
  split
  · exact Code.idle_pure _
  · exact idle_listByName pj rounds _ _ _ _

end Idle

-- =================================================================== resolution

namespace Shared

def beginQuery (o : Opener) : SharedCode Unit := do
  Code.req (S := Shared) (SharedReq.beginQuery o.query)
  Code.req (S := Shared) (SharedReq.setMaxEntries o.settings.pathCacheEntries)

def tryGet (key : CacheKey) : SharedCode (Option (DriveFileMeta × Bool)) :=
  Code.req (S := Shared) (SharedReq.tryGet key)

def put (key : CacheKey) (file : DriveFileMeta) : SharedCode Unit :=
  Code.req (S := Shared) (SharedReq.put key file)

def invalidatePrefix (key : CacheKey) : SharedCode Unit :=
  Code.req (S := Shared) (SharedReq.invalidatePrefix key)

def lookUpMetadata (auth : AuthContext) (fileId contextPath : Str) :
    SharedCode (Option DriveFileMeta) := do
  let r ← Code.req (S := Shared) (SharedReq.lookUpMetadata auth fileId contextPath)
  Code.ofExcept r

def refreshLeaf (o : Opener) (file : DriveFileMeta) : SharedCode (Option DriveFileMeta) := do
  let r ← Code.req (S := Shared) (SharedReq.refreshMetadata o file)
  Code.ofExcept r

def report (query : Nat) (found : Option (DriveFileMeta × Bool)) : SharedCode Unit :=
  Code.req (S := Shared) (SharedReq.report query found)

section Resolve

variable (pj : Picojson) (rounds : Nat) (auth : AuthContext)

def resolveSegment (isLast : Bool) (parentId canonical segment contextPath : Str) :
    SharedCode (Option (DriveFileMeta × Bool)) := do
  let cached ← tryGet ⟨auth, canonical⟩
  match cached with
  | some hit => pure (some hit)
  | none => do
      let found ← onCalls (listByName pj rounds parentId segment (!isLast) contextPath)
      match found with
      | [] => pure none
      | [file] => do
          put ⟨auth, canonical⟩ file
          pure (some (file, true))
      | _ => Code.throw (ambiguousError found contextPath)

def resolveSegments (contextPath : Str) :
    (parentId canonical : Str) → List Str → SharedCode (Option (DriveFileMeta × Bool))
  | _, _, [] => pure none
  | parentId, canonical, [leaf] =>
      resolveSegment pj rounds auth true parentId (extendPath canonical leaf) leaf contextPath
  | parentId, canonical, segment :: next :: rest => do
      let found ← resolveSegment pj rounds auth false parentId
        (extendPath canonical segment) segment contextPath
      match found with
      | none => pure none
      | some (folder, _) =>
          resolveSegments contextPath folder.id (extendPath canonical segment) (next :: rest)

def tryResolvePath (uri : GDriveUri) : SharedCode (Option (DriveFileMeta × Bool)) :=
  match uri with
  | .fileId id => do
      let found ← lookUpMetadata auth id uri.toString
      pure (found.map fun file => (file, false))
  | .path [] => do
      let found ← onCalls (fetchMetadata pj (rootFolderFor auth) uri.toString)
      pure (found.map fun file => (file, false))
  | .path segments =>
      resolveSegments pj rounds auth uri.toString (rootFolderFor auth) [] segments

end Resolve

-- ====================================================================== reading

section Reading

variable (pj : Picojson) (rounds : Nat) (o : Opener)

def currentLeaf (uri : GDriveUri) (file : DriveFileMeta) : SharedCode (Option DriveFileMeta) := do
  let refreshed ← refreshLeaf o file
  match refreshed with
  | some current => pure (some current)
  | none => do
      invalidatePrefix (o.key (canonicalPathOf uri))
      let found ← tryResolvePath pj rounds o.auth uri
      pure (found.map (·.1))

def resolveForReading (path : Str) (uri : GDriveUri) : SharedCode (Option DriveFileMeta) := do
  beginQuery o
  let found ← tryResolvePath pj rounds o.auth uri
  report o.query found
  match found with
  | none => pure none
  | some (file, leafIsFresh) =>
      if file.isFolder then Code.throw (isDirectoryError uri.toString)
      else if skipsRefresh o path uri leafIsFresh then pure (some file)
      else currentLeaf pj rounds o uri file

end Reading

-- ============================================================== the parent walk

section Writing

variable (pj : Picojson) (rounds : Nat) (o : Opener)

def makeFolder (parentId canonical segment path : Str) : SharedCode (Str × Bool) := do
  let resp ← onCalls (call (.upload [] parentId segment kFolderMimeType [] []))
  Code.when (!resp.ok) (Code.throw (.drive resp.error path))
  match parseFileMeta pj resp.body with
  | none => Code.throw (malformedFolderError path)
  | some created => do
      put (o.key canonical) created
      pure (created.id, true)

def adoptFolder (canonical : Str) (folder : DriveFileMeta) : SharedCode (Str × Bool) := do
  put (o.key canonical) folder
  pure (folder.id, false)

def makeFreeFolder (parentId canonical segment path : Str) : SharedCode (Str × Bool) := do
  let anyKind ← onCalls (listByName pj rounds parentId segment false path)
  match (anyKind.filter (!·.isFolder)).getLast?, (anyKind.filter (·.isFolder)).getLast? with
  | some _, _ => Code.throw (fileInTheWayError segment path)
  | none, some folder => adoptFolder o canonical folder
  | none, none => makeFolder pj o parentId canonical segment path

def enterListed (parentId canonical segment path : Str) : SharedCode (Str × Bool) := do
  let found ← onCalls (listByName pj rounds parentId segment true path)
  match found with
  | [] => makeFreeFolder pj rounds o parentId canonical segment path
  | [folder] => adoptFolder o canonical folder
  | _ => Code.throw (ambiguousError found path)

def enterFolder (parentIsNew : Bool) (parentId canonical segment path : Str) :
    SharedCode (Str × Bool) :=
  if parentIsNew then makeFolder pj o parentId canonical segment path
  else do
    let cached ← tryGet (o.key canonical)
    match cached with
    | none => enterListed pj rounds o parentId canonical segment path
    | some (file, _) =>
        if file.isFolder then pure (file.id, false)
        else do
          invalidatePrefix (o.key canonical)
          enterListed pj rounds o parentId canonical segment path

def walkParents (path : Str) :
    (parentIsNew : Bool) → (parentId canonical : Str) → List Str → SharedCode (Str × Bool)
  | parentIsNew, parentId, _, [] => pure (parentId, parentIsNew)
  | parentIsNew, parentId, canonical, segment :: rest => do
      let folder ← enterFolder pj rounds o parentIsNew parentId (extendPath canonical segment)
        segment path
      walkParents path folder.2 folder.1 (extendPath canonical segment) rest

def openFileForWriting (path : Str) : SharedCode WriteHandle := do
  let uri ← onCalls (checkedUri o path)
  match uri with
  | .fileId id => pure (openForWriting path { id } [] [] o.settings.uploadChunkBytes)
  | .path segments =>
      let name := uri.fileName
      if name.isEmpty then Code.throw (namesNoFileError path)
      else do
        let parent ← walkParents pj rounds o path false (rootFolderFor o.auth) []
          segments.dropLast
        let existing ← onCalls (probeLeaf pj rounds parent.2 parent.1 name path)
        match existing with
        | [] => pure (openForWriting path { name } parent.1 name o.settings.uploadChunkBytes)
        | [file] =>
            pure (openForWriting path { id := file.id, name } parent.1 name
              o.settings.uploadChunkBytes)
        | _ => Code.throw (ambiguousError existing path)

end Writing

-- ======================================================================== globs

section Glob

variable (signed : Bool) (pj : Picojson) (rounds : Nat) (o : Opener)

/-- `warmCache`, one `Put` after the other. -/
def putEach (literalPrefix : Str) : List Listed → SharedCode Unit
  | [] => pure ()
  | entry :: rest => do
      put (o.key (below literalPrefix entry.1)) entry.2
      putEach literalPrefix rest

def warmCache (literalPrefix : Str) (listing : List Listed) : SharedCode Unit :=
  putEach o literalPrefix
    (listing.filter fun entry =>
      countRel listing entry.1 = 1 && !underAmbiguous listing entry.1)

def globLiteral (uri : GDriveUri) (path : Str) : SharedCode (List Found) := do
  let found ← tryResolvePath pj rounds o.auth uri
  match found with
  | some (file, _) => pure (if file.isFolder then [] else [(path, file)])
  | none => pure []

def globRoot (literalPrefix : Str) : SharedCode (Option Str) :=
  if literalPrefix.isEmpty then pure (some (rootFolderFor o.auth))
  else
    match parseGDriveUri (kGDriveScheme ++ literalPrefix) with
    | .error error => Code.throw (badUriError error)
    | .ok uri => do
        let found ← tryResolvePath pj rounds o.auth uri
        pure (found.map (·.1.id))

def globPattern (depth : Nat) (path pattern : Str) : SharedCode (List Found) := do
  let split := splitGlob pattern
  let root ← globRoot pj rounds o split.literalPrefix
  match root with
  | none => pure []
  | some folderId => do
      let listing ← onCalls (listFolder pj rounds path split.recursive depth folderId [])
      warmCache o split.literalPrefix listing
      pure (matchListing signed pattern split.literalPrefix listing)

def globExpansion (depth : Nat) (path pattern : Str) : SharedCode (List Found) :=
  if hasGlobMetacharacters pattern then globPattern signed pj rounds o depth path pattern
  else
    match parseGDriveUri (kGDriveScheme ++ pattern) with
    | .error _ => pure []
    | .ok uri => globLiteral pj rounds o uri (kGDriveScheme ++ pattern)

def globExpansions (depth : Nat) (path : Str) : List Str → SharedCode (List Found)
  | [] => pure []
  | pattern :: rest => do
      let found ← globExpansion signed pj rounds o depth path pattern
      let others ← globExpansions depth path rest
      pure (found ++ others)

def orLiteral (uri : GDriveUri) (path : Str) : List Found → SharedCode (List Found)
  | [] => globLiteral pj rounds o uri path
  | found => pure found

def globPath (depth : Nat) (path : Str) (uri : GDriveUri) : SharedCode (List Found) :=
  match expandBraces (path.drop kGDriveScheme.length) with
  | [] => Code.throw (tooLargeError path)
  | patterns => do
      let found ← globExpansions signed pj rounds o depth path patterns
      orLiteral pj rounds o uri path (uniquePaths [] found)

def globFound (depth : Nat) (path : Str) : SharedCode (List Found) :=
  if !o.hasSecret then Code.throw (noSecretError path)
  else do
    beginQuery o
    match parseGDriveUri path with
    | .error error =>
        if isFileIdFallbackGlobProbe path then pure [] else Code.throw (badUriError error)
    | .ok (.fileId id) => globLiteral pj rounds o (.fileId id) path
    | .ok (.path segments) =>
        if hasGlobMetacharacters path then globPath signed pj rounds o depth path (.path segments)
        else globLiteral pj rounds o (.path segments) path

end Glob

end Shared

-- ======================================================================== alone

section Alone

variable {signed : Bool} {pj : Picojson} {rounds thread : Nat} {auth : AuthContext} {o : Opener}

theorem alone_tryGet (key : CacheKey) :
    Code.interpret (alone pj thread) (Shared.tryGet key) =
      useCache (PathCache.tryGet thread key) := by
  unfold Shared.tryGet
  rw [Code.interpret_req]
  rfl

theorem alone_put (key : CacheKey) (file : DriveFileMeta) :
    Code.interpret (alone pj thread) (Shared.put key file) =
      Code.modify (PathCache.put thread key file) := by
  unfold Shared.put
  rw [Code.interpret_req]
  rfl

theorem alone_invalidatePrefix (key : CacheKey) :
    Code.interpret (alone pj thread) (Shared.invalidatePrefix key) =
      Code.modify (PathCache.invalidatePrefix key) := by
  unfold Shared.invalidatePrefix
  rw [Code.interpret_req]
  rfl

theorem alone_beginQuery :
    Code.interpret (alone pj o.thread) (Shared.beginQuery o) = beginQuery o := by
  unfold Shared.beginQuery beginQuery
  refine Code.interpret_seq _ (Code.interpret_req _ _) fun _ => ?_
  rw [Code.interpret_req]
  rfl

theorem alone_lookUpMetadata (auth : AuthContext) (fileId contextPath : Str) :
    Code.interpret (alone pj thread) (Shared.lookUpMetadata auth fileId contextPath) =
      getOrFetchMetadata auth fileId (fetchMetadata pj fileId contextPath) := by
  unfold Shared.lookUpMetadata
  rw [Code.interpret_bind, Code.interpret_req]
  funext c
  show ((getOrFetchMetadata auth fileId (fetchMetadata pj fileId contextPath) c).bind _).bind _ = _
  rw [Prog.bind_assoc]
  exact Prog.bind_ret _

theorem alone_refreshLeaf (file : DriveFileMeta) :
    Code.interpret (alone pj thread) (Shared.refreshLeaf o file) = refreshLeaf pj o file := by
  unfold Shared.refreshLeaf
  rw [Code.interpret_bind, Code.interpret_req]
  funext c
  show ((refreshLeaf pj o file c).bind _).bind _ = _
  rw [Prog.bind_assoc]
  exact Prog.bind_ret _

theorem alone_report (query : Nat) (found : Option (DriveFileMeta × Bool)) :
    Code.interpret (alone pj thread) (Shared.report query found) = pure () := by
  unfold Shared.report
  rw [Code.interpret_req]
  rfl

theorem alone_resolveSegment (isLast : Bool) (parentId canonical segment contextPath : Str) :
    Code.interpret (alone pj thread)
        (Shared.resolveSegment pj rounds auth isLast parentId canonical segment contextPath) =
      resolveSegment pj rounds thread auth isLast parentId canonical segment contextPath := by
  unfold Shared.resolveSegment resolveSegment
  refine Code.interpret_seq _ (alone_tryGet _) fun cached => ?_
  cases cached with
  | some hit => rfl
  | none =>
      refine Code.interpret_seq _ (alone_onCalls (idle_listByName ..)) fun found => ?_
      rcases found with _ | ⟨file, _ | ⟨_, _⟩⟩
      · rfl
      · exact Code.interpret_seq _ (alone_put _ _) fun _ => rfl
      · rfl

theorem alone_resolveSegments (contextPath parentId canonical : Str) (segments : List Str) :
    Code.interpret (alone pj thread)
        (Shared.resolveSegments pj rounds auth contextPath parentId canonical segments) =
      resolveSegments pj rounds thread auth contextPath parentId canonical segments := by
  induction segments generalizing parentId canonical with
  | nil => rfl
  | cons segment rest ih =>
      cases rest with
      | nil => exact alone_resolveSegment ..
      | cons next rest =>
          unfold Shared.resolveSegments resolveSegments
          refine Code.interpret_seq _ (alone_resolveSegment ..) fun found => ?_
          cases found with
          | none => rfl
          | some hit => exact ih _ _

theorem alone_tryResolvePath (uri : GDriveUri) :
    Code.interpret (alone pj thread) (Shared.tryResolvePath pj rounds auth uri) =
      tryResolvePath pj rounds thread auth uri := by
  cases uri with
  | fileId id => exact Code.interpret_seq _ (alone_lookUpMetadata ..) fun _ => rfl
  | path segments =>
      cases segments with
      | nil => exact Code.interpret_seq _ (alone_onCalls (idle_fetchMetadata ..)) fun _ => rfl
      | cons segment rest => exact alone_resolveSegments ..

theorem alone_currentLeaf (uri : GDriveUri) (file : DriveFileMeta) :
    Code.interpret (alone pj o.thread) (Shared.currentLeaf pj rounds o uri file) =
      currentLeaf pj rounds o uri file := by
  unfold Shared.currentLeaf currentLeaf
  refine Code.interpret_seq _ (alone_refreshLeaf file) fun refreshed => ?_
  cases refreshed with
  | some current => rfl
  | none =>
      refine Code.interpret_seq _ (alone_invalidatePrefix _) fun _ => ?_
      exact Code.interpret_seq _ (alone_tryResolvePath uri) fun _ => rfl

/-- Told what is reported to it or not, a thread alone opens a file just so. -/
theorem alone_resolveForReading (path : Str) (uri : GDriveUri) :
    Code.interpret (alone pj o.thread) (Shared.resolveForReading pj rounds o path uri) =
      resolveForReading pj rounds o path uri := by
  unfold Shared.resolveForReading resolveForReading
  refine Code.interpret_seq _ alone_beginQuery fun _ => ?_
  refine Code.interpret_seq _ (alone_tryResolvePath uri) fun found => ?_
  rw [Code.interpret_bind, alone_report]
  show Code.interpret _ _ = _
  rcases found with _ | ⟨file, leafIsFresh⟩
  · rfl
  · simp only
    split
    · rfl
    · split
      · rfl
      · exact alone_currentLeaf uri file

theorem alone_makeFolder (parentId canonical segment path : Str) :
    Code.interpret (alone pj o.thread)
        (Shared.makeFolder pj o parentId canonical segment path) =
      makeFolder pj o parentId canonical segment path := by
  unfold Shared.makeFolder makeFolder
  refine Code.interpret_seq _ (alone_onCalls (Code.idle_lift _)) fun resp => ?_
  refine Code.interpret_seq _ (Code.interpret_when ..) fun _ => ?_
  cases parseFileMeta pj resp.body with
  | none => rfl
  | some created => exact Code.interpret_seq _ (alone_put _ _) fun _ => rfl

theorem alone_adoptFolder (canonical : Str) (folder : DriveFileMeta) :
    Code.interpret (alone pj o.thread) (Shared.adoptFolder o canonical folder) =
      adoptFolder o canonical folder :=
  Code.interpret_seq _ (alone_put _ _) fun _ => rfl

theorem alone_enterListed (parentId canonical segment path : Str) :
    Code.interpret (alone pj o.thread)
        (Shared.enterListed pj rounds o parentId canonical segment path) =
      enterListed pj rounds o parentId canonical segment path := by
  unfold Shared.enterListed enterListed
  refine Code.interpret_seq _ (alone_onCalls (idle_listByName ..)) fun found => ?_
  rcases found with _ | ⟨folder, _ | ⟨_, _⟩⟩
  · unfold Shared.makeFreeFolder makeFreeFolder
    refine Code.interpret_seq _ (alone_onCalls (idle_listByName ..)) fun anyKind => ?_
    cases (anyKind.filter (!·.isFolder)).getLast? with
    | some _ => rfl
    | none =>
        cases (anyKind.filter (·.isFolder)).getLast? with
        | some folder => exact alone_adoptFolder _ _
        | none => exact alone_makeFolder _ _ _ _
  · exact alone_adoptFolder _ _
  · rfl

theorem alone_enterFolder (parentIsNew : Bool) (parentId canonical segment path : Str) :
    Code.interpret (alone pj o.thread)
        (Shared.enterFolder pj rounds o parentIsNew parentId canonical segment path) =
      enterFolder pj rounds o parentIsNew parentId canonical segment path := by
  unfold Shared.enterFolder enterFolder
  split
  · exact alone_makeFolder _ _ _ _
  · refine Code.interpret_seq _ (alone_tryGet _) fun cached => ?_
    rcases cached with _ | ⟨file, fresh⟩
    · exact alone_enterListed _ _ _ _
    · simp only
      split
      · rfl
      · exact Code.interpret_seq _ (alone_invalidatePrefix _) fun _ => alone_enterListed _ _ _ _

theorem alone_walkParents (path : Str) (parentIsNew : Bool) (parentId canonical : Str)
    (segments : List Str) :
    Code.interpret (alone pj o.thread)
        (Shared.walkParents pj rounds o path parentIsNew parentId canonical segments) =
      walkParents pj rounds o path parentIsNew parentId canonical segments := by
  induction segments generalizing parentIsNew parentId canonical with
  | nil => rfl
  | cons segment rest ih =>
      unfold Shared.walkParents walkParents
      exact Code.interpret_seq _ (alone_enterFolder ..) fun _ => ih _ _ _

theorem alone_openFileForWriting (path : Str) :
    Code.interpret (alone pj o.thread) (Shared.openFileForWriting pj rounds o path) =
      openFileForWriting pj rounds o path := by
  unfold Shared.openFileForWriting openFileForWriting
  refine Code.interpret_seq _ (alone_onCalls (idle_checkedUri o path)) fun uri => ?_
  cases uri with
  | fileId id => rfl
  | path segments =>
      simp only
      split
      · rfl
      · refine Code.interpret_seq _ (alone_walkParents ..) fun parent => ?_
        refine Code.interpret_seq _ (alone_onCalls (idle_probeLeaf ..)) fun existing => ?_
        rcases existing with _ | ⟨file, _ | ⟨_, _⟩⟩
        · rfl
        · rfl
        · rfl

theorem alone_putEach (literalPrefix : Str) (listing : List Listed) :
    Code.interpret (alone pj o.thread) (Shared.putEach o literalPrefix listing) =
      Code.modify fun c => listing.foldl
        (fun c entry => c.put o.thread (o.key (below literalPrefix entry.1)) entry.2) c := by
  induction listing with
  | nil => rfl
  | cons entry rest ih => exact Code.interpret_seq _ (alone_put _ _) fun _ => ih

theorem alone_globLiteral (uri : GDriveUri) (path : Str) :
    Code.interpret (alone pj o.thread) (Shared.globLiteral pj rounds o uri path) =
      globLiteral pj rounds o uri path := by
  unfold Shared.globLiteral globLiteral
  refine Code.interpret_seq _ (alone_tryResolvePath uri) fun found => ?_
  rcases found with _ | ⟨file, fresh⟩
  · rfl
  · rfl

theorem alone_globRoot (literalPrefix : Str) :
    Code.interpret (alone pj o.thread) (Shared.globRoot pj rounds o literalPrefix) =
      globRoot pj rounds o literalPrefix := by
  unfold Shared.globRoot globRoot
  split
  · rfl
  · cases parseGDriveUri (kGDriveScheme ++ literalPrefix) with
    | error error => rfl
    | ok uri => exact Code.interpret_seq _ (alone_tryResolvePath uri) fun _ => rfl

theorem alone_globPattern (depth : Nat) (path pattern : Str) :
    Code.interpret (alone pj o.thread)
        (Shared.globPattern signed pj rounds o depth path pattern) =
      globPattern signed pj rounds depth o path pattern := by
  unfold Shared.globPattern globPattern
  refine Code.interpret_seq _ (alone_globRoot _) fun root => ?_
  cases root with
  | none => rfl
  | some folderId =>
      refine Code.interpret_seq _ (alone_onCalls (idle_listFolder ..)) fun listing => ?_
      exact Code.interpret_seq _ (alone_putEach _ _) fun _ => rfl

theorem alone_globExpansions (depth : Nat) (path : Str) (patterns : List Str) :
    Code.interpret (alone pj o.thread)
        (Shared.globExpansions signed pj rounds o depth path patterns) =
      globExpansions signed pj rounds depth o path patterns := by
  induction patterns with
  | nil => rfl
  | cons pattern rest ih =>
      have hone : Code.interpret (alone pj o.thread)
          (Shared.globExpansion signed pj rounds o depth path pattern) =
          globExpansion signed pj rounds depth o path pattern := by
        unfold Shared.globExpansion globExpansion
        split
        · exact alone_globPattern _ _ _
        · cases parseGDriveUri (kGDriveScheme ++ pattern) with
          | error error => rfl
          | ok uri => exact alone_globLiteral uri _
      exact Code.interpret_seq _ hone fun _ => Code.interpret_seq _ ih fun _ => rfl

theorem alone_globPath (depth : Nat) (path : Str) (uri : GDriveUri) :
    Code.interpret (alone pj o.thread) (Shared.globPath signed pj rounds o depth path uri) =
      globPath signed pj rounds depth o path uri := by
  unfold Shared.globPath globPath
  cases expandBraces (path.drop kGDriveScheme.length) with
  | nil => rfl
  | cons pattern rest =>
      refine Code.interpret_seq _ (alone_globExpansions ..) fun found => ?_
      cases uniquePaths [] found with
      | nil => exact alone_globLiteral uri path
      | cons _ _ => rfl

theorem alone_globFound (depth : Nat) (path : Str) :
    Code.interpret (alone pj o.thread) (Shared.globFound signed pj rounds o depth path) =
      globFound signed pj rounds depth o path := by
  unfold Shared.globFound globFound
  split
  · rfl
  · refine Code.interpret_seq _ alone_beginQuery fun _ => ?_
    cases parseGDriveUri path with
    | error error =>
        simp only
        split
        · rfl
        · rfl
    | ok uri =>
        cases uri with
        | fileId id => exact alone_globLiteral _ path
        | path segments =>
            simp only
            split
            · exact alone_globPath depth path _
            · exact alone_globLiteral _ path

end Alone

end GDrive
