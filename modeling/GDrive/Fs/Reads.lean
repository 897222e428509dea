/-
Resolutions only read: every request is a listing or a lookup, which leave
the tree as it is (`asks_resolvePath`). So what holds of the tree before a
resolution holds at every moment of it.

`wp_resolvePath` says what a resolution comes to: the object a URI leads to
(`World.LeadsTo`), whether the cache or Drive answered.
-/
import GDrive.Fs.Coherence
import GDrive.Fs.Mutate

namespace GDrive

open Interaction Naming

/-- A listing or a lookup by id. -/
def IsRead : CallReq → Prop
  | .list _ _ | .getMetadata _ => True
  | _ => False

section Asks

variable (pj : Picojson) (rounds thread : Nat) (auth : AuthContext)

theorem asks_call {σ : Type} {P : CallReq → Prop} {q : CallReq} (h : P q) :
    Code.Asks P (call q : Code Client Exn σ DriveResponse) :=
  Code.asks_lift ⟨h, fun _ => trivial⟩

theorem asks_listAll {σ : Type} (query : DriveQuery) (ctx malformed token : Str)
    (found : List DriveFileMeta) :
    Code.Asks IsRead
      (listAll pj query ctx malformed rounds token found : Code Client Exn σ _) := by
  induction rounds generalizing token found with
  | zero => exact fun _ => trivial
  | succ rounds ih =>
      unfold listAll
      refine Code.asks_bind (asks_call trivial) fun resp => ?_
      refine Code.asks_bind (Code.asks_when _ (Code.asks_throw _)) fun _ => ?_
      split
      · exact Code.asks_throw _
      · split
        · exact Code.asks_pure _
        · exact ih _ _

theorem asks_fetchMetadata {σ : Type} (id ctx : Str) :
    Code.Asks IsRead (fetchMetadata pj id ctx : Code Client Exn σ _) := by
  unfold fetchMetadata
  refine Code.asks_bind (asks_call trivial) fun resp => ?_
  split
  · split
    · exact Code.asks_pure _
    · exact Code.asks_throw _
  · split
    · exact Code.asks_throw _
    · exact Code.asks_pure _

theorem asks_getOrFetchMetadata {id : Str} {fetch : CacheCode (Option DriveFileMeta)}
    (hfetch : Code.Asks IsRead fetch) : Code.Asks IsRead (getOrFetchMetadata auth id fetch) := by
  unfold getOrFetchMetadata
  refine Code.asks_bind Code.asks_get fun c => ?_
  split
  · exact hfetch
  · split
    · exact Code.asks_pure _
    · refine Code.asks_bind hfetch fun found => ?_
      split
      · exact Code.asks_pure _
      · exact Code.asks_bind (Code.asks_modify _) fun _ => Code.asks_pure _

theorem asks_useCache {α : Type} (f : PathCache → α × PathCache) :
    Code.Asks IsRead (useCache f) := by
  unfold useCache
  exact Code.asks_bind Code.asks_get fun _ =>
    Code.asks_bind (Code.asks_set _) fun _ => Code.asks_pure _

theorem asks_resolveSegment (isLast : Bool) (parentId canonical segment ctx : Str) :
    Code.Asks IsRead
      (resolveSegment pj rounds thread auth isLast parentId canonical segment ctx) := by
  unfold resolveSegment
  refine Code.asks_bind (asks_useCache _) fun cached => ?_
  split
  · exact Code.asks_pure _
  · refine Code.asks_bind (asks_listAll pj rounds _ _ _ _ _) fun found => ?_
    split
    · exact Code.asks_pure _
    · exact Code.asks_bind (Code.asks_modify _) fun _ => Code.asks_pure _
    · exact Code.asks_throw _

theorem asks_resolveSegments (ctx parentId canonical : Str) (segments : List Str) :
    Code.Asks IsRead (resolveSegments pj rounds thread auth ctx parentId canonical segments) := by
  induction segments generalizing parentId canonical with
  | nil => exact Code.asks_pure _
  | cons s rest ih =>
      cases rest with
      | nil => exact asks_resolveSegment pj rounds thread auth _ _ _ _ _
      | cons next rest =>
          unfold resolveSegments
          refine Code.asks_bind (asks_resolveSegment pj rounds thread auth _ _ _ _ _) fun found => ?_
          split
          · exact Code.asks_pure _
          · exact ih _ _

theorem asks_tryResolvePath (uri : GDriveUri) :
    Code.Asks IsRead (tryResolvePath pj rounds thread auth uri) := by
  unfold tryResolvePath
  split
  · exact Code.asks_bind (asks_getOrFetchMetadata auth (asks_fetchMetadata pj _ _)) fun _ =>
      Code.asks_pure _
  · exact Code.asks_bind (asks_fetchMetadata pj _ _) fun _ => Code.asks_pure _
  · exact asks_resolveSegments pj rounds thread auth _ _ _ _

theorem asks_resolvePath (uri : GDriveUri) :
    Code.Asks IsRead (resolvePath pj rounds thread auth uri) := by
  unfold resolvePath
  refine Code.asks_bind (asks_tryResolvePath pj rounds thread auth uri) fun found => ?_
  split
  · exact Code.asks_pure _
  · exact Code.asks_throw _

theorem asks_parsedUri (path : Str) : Code.Asks IsRead (parsedUri path) := by
  unfold parsedUri
  split
  · exact Code.asks_throw _
  · exact Code.asks_pure _

theorem asks_resolveParentId (o : Opener) (parentPath : Str) :
    Code.Asks IsRead (resolveParentId pj rounds o parentPath) := by
  unfold resolveParentId
  split
  · exact Code.asks_pure _
  · exact Code.asks_bind (asks_parsedUri _) fun _ =>
      Code.asks_bind (asks_resolvePath pj rounds _ _ _) fun _ => Code.asks_pure _

theorem asks_oldParentId (o : Opener) (source : GDriveUri) :
    Code.Asks IsRead (oldParentId pj rounds o source) := by
  unfold oldParentId
  split
  · exact Code.asks_pure _
  · exact asks_resolveParentId pj rounds o _

end Asks

-- ================================================================ what it is

/-- The object a URI leads to. -/
def World.LeadsTo (w : World) : GDriveUri → Str → Prop
  | .fileId id, x => x = w.deref id
  | .path [], x => x = w.rootId
  | .path segments, x => ∃ file, w.Names segments file ∧ file.id = x

/-- What a lookup by id says whenever it is asked: the id. -/
def SameId (w : World) (_ : Nat) (id : Str) (file : DriveFileMeta) : Prop := file.id = w.deref id

/-- A path cache that agrees with the tree. -/
abbrev Agrees (w : World) (auth : AuthContext) (c : PathCache) : Prop :=
  CacheInv w auth (fun _ _ => True) (SameId w) c

section Lookups

variable {pj : Picojson} {rounds thread : Nat} {auth : AuthContext} {mayFail : CallReq → Prop}
  {R : Rel Client World} {w : World} {c : PathCache}

theorem truths_agree (w : World) : Truths w (fun _ _ => True) (SameId w) := by
  refine ⟨fun _ _ => trivial, ?_⟩
  intro g id file hmeta
  rcases hmeta with ⟨n, -, -, hid⟩ | ⟨-, hroot, hid, -⟩
  · exact hid
  · exact hid.trans hroot.symm

theorem world_read {q : CallReq} {r : Except Exn DriveResponse} {w' : World} (hq : IsRead q)
    (h : treeRel pj mayFail w q r w') : w' = w := by
  cases q with
  | list query token => exact (treeRel_list h).1
  | getMetadata id => exact (treeRel_getMetadata h).1
  | _ => exact hq.elim

/-- Code that only reads, where something of the tree is to be kept. -/
theorem wp_read {ε σ α : Type} {code : Code Client ε σ α} {I : World → Prop} {s : σ}
    {Q : Except ε α → σ → World → Prop}
    (hR : ∀ w q r w', R w q r w' → treeRel pj mayFail w q r w') (hcode : Code.Asks IsRead code)
    (hI : I w) (h : Code.wp (fsEnv R) code Q s w) : Code.wp (.total R I) code Q s w :=
  Code.wp_total_of_asks hcode (fun q r w' hq hr => world_read hq (hR w q r w' hr)) hI h

theorem World.Metadata.id_eq {id : Str} {file : DriveFileMeta} (h : w.Metadata id file) :
    file.id = w.deref id := (truths_agree w).looked 0 h

/-- The folder that a parent's text leads to. -/
def World.ParentOf (w : World) (parentPath : Str) (p : Str) : Prop :=
  ∃ uri, parseGDriveUri parentPath = .ok uri ∧ w.LeadsTo uri p

/-- Facts of a tree by which a lookup by id comes to the id. -/
structure Knows (w : World) (X : DriveFileMeta → Nat → Prop)
    (Y : Nat → Str → DriveFileMeta → Prop) : Prop extends Truths w X Y where
  id_eq : ∀ {g id file}, Y g id file → file.id = w.deref id

theorem knows_agree (w : World) : Knows w (fun _ _ => True) (SameId w) := ⟨truths_agree w, id⟩

section Knows

variable {X : DriveFileMeta → Nat → Prop} {Y : Nat → Str → DriveFileMeta → Prop}

theorem wp_resolvePath (hR : ∀ w q r w', R w q r w' → treeRel pj mayFail w q r w')
    (hrounds : 1 ≤ rounds) (hroot : rootFolderFor auth = w.rootAlias) (hknows : Knows w X Y)
    {uri : GDriveUri} (huri : uri.Clean) (h : CacheInv w auth X Y c) :
    Code.wp (fsEnv R) (resolvePath pj rounds thread auth uri)
      (fun out c' w' => w' = w ∧ CacheInv w auth X Y c' ∧
        ∀ file, out = .ok file → w.LeadsTo uri file.id) c w := by
  have hfound : Code.wp (fsEnv R) (tryResolvePath pj rounds thread auth uri)
      (fun out c' w' => w' = w ∧ CacheInv w auth X Y c' ∧
        ∀ file fresh, out = .ok (some (file, fresh)) → w.LeadsTo uri file.id) c w := by
    match uri with
    | .fileId id =>
        refine Code.wp_mono (wp_tryResolvePath_id hR hknows.toTruths h) ?_
        intro out c' w' ⟨hw, h', _, _, hout⟩
        refine ⟨hw, h', ?_⟩
        intro file fresh hfile
        rw [hfile] at hout
        rcases hout.2 with hmeta | ⟨-, hid⟩
        · exact hmeta.id_eq
        · exact hknows.id_eq hid
    | .path [] =>
        refine Code.wp_mono (wp_tryResolvePath_root (c := c) hR hroot) ?_
        intro out c' w' ⟨hw, hc, hout⟩
        rw [hc]
        refine ⟨hw, h, ?_⟩
        intro file fresh hfile
        rcases hout with ⟨file', hout, hmeta⟩ | ⟨-, e, hout⟩
        · rw [hfile] at hout
          cases hout
          exact hmeta.id_eq.trans (World.deref_alias w)
        · rw [hfile] at hout
          cases hout
    | .path (s :: rest) =>
        refine Code.wp_mono (wp_tryResolvePath_path hR hrounds hknows.toTruths hroot
          (List.cons_ne_nil _ _) huri h) ?_
        intro out c' w' ⟨hw, h', _, hout⟩
        refine ⟨hw, h', ?_⟩
        intro file fresh hfile
        rw [hfile] at hout
        exact ⟨file, hout.1, rfl⟩
  unfold resolvePath
  rw [Code.wp_bind]
  refine Code.wp_mono hfound ?_
  intro out c' w' ⟨hw, h', hout⟩
  cases out with
  | error e => exact ⟨hw, h', nofun⟩
  | ok found =>
      rw [Code.outcome_ok]
      cases found with
      | none => exact ⟨hw, h', nofun⟩
      | some hit =>
          refine ⟨hw, h', ?_⟩
          intro file hfile
          cases hfile
          exact hout hit.1 hit.2 rfl

theorem wp_resolveParentId (hR : ∀ w q r w', R w q r w' → treeRel pj mayFail w q r w')
    (hrounds : 1 ≤ rounds) {o : Opener} (hroot : rootFolderFor o.auth = w.rootAlias)
    (hknows : Knows w X Y) {parentPath : Str} (hne : parentPath ≠ [])
    (h : CacheInv w o.auth X Y c) :
    Code.wp (fsEnv R) (resolveParentId pj rounds o parentPath)
      (fun out c' w' => w' = w ∧ CacheInv w o.auth X Y c' ∧
        ∀ p, out = .ok p → w.ParentOf parentPath p) c w := by
  unfold resolveParentId parsedUri
  rw [if_neg (by simpa using hne), Code.wp_bind]
  split
  · exact ⟨rfl, h, nofun⟩
  · rename_i uri hparse
    rw [Code.wp_pure, Code.outcome_ok, Code.wp_bind]
    refine Code.wp_mono (wp_resolvePath hR hrounds hroot hknows (clean_of_parse hparse) h) ?_
    intro out c' w' ⟨hw, h', hout⟩
    cases out with
    | error e => exact ⟨hw, h', nofun⟩
    | ok file =>
        refine ⟨hw, h', ?_⟩
        intro p hp
        cases hp
        exact ⟨uri, hparse, hout file rfl⟩

end Knows

theorem parentPath_ne_nil (uri : GDriveUri) : uri.parentPath ≠ [] := by
  cases uri with
  | fileId id => exact (by decide : kGDriveScheme ≠ [])
  | path segments => exact List.append_ne_nil_of_left_ne_nil (by decide) _

theorem deref_of_leadsTo {uri : GDriveUri} {x : Str} (h : w.LeadsTo uri x) : w.deref x = x := by
  have hroot : w.deref w.rootId = w.rootId := World.deref_folderAt (a := []) rfl
  match uri with
  | .fileId id =>
      obtain rfl : x = w.deref id := h
      by_cases hid : id = w.rootAlias
      · rw [hid, World.deref_alias, hroot]
      · have hsame : w.deref id = id := if_neg hid
        rw [hsame, hsame]
  | .path [] =>
      obtain rfl : x = w.rootId := h
      exact hroot
  | .path (s :: rest) =>
      obtain ⟨file, ⟨init, last, p, -, -, ⟨f, hf, hsame⟩, -⟩, rfl⟩ := h
      obtain ⟨n, hn, rfl, -⟩ := World.mem_children.mp (World.mem_named.mp hf).1
      rw [← hsame.1]
      exact World.deref_node hn

theorem deref_of_parentOf {parentPath p : Str} (h : w.ParentOf parentPath p) : w.deref p = p := by
  obtain ⟨uri, -, huri⟩ := h
  exact deref_of_leadsTo huri

end Lookups

end GDrive
