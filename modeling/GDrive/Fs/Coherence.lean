/-
The path cache against the tree.

# What an entry may say

An entry under a path says which object is there (`World.Names`). Four
producers write entries under one set of keys, each from a listing with its
own filter, so an entry for a folder may stand beside a file of the same
name; but it never names an object that is not at the path, never one of
two folders, and never a file beside a folder.

# The resolution

From such a cache the walk keeps to the folders of the path: a cached folder
is the folder at its path, and a cached file has nothing beneath it, as the
listing for a folder would have found nothing. So what `TryResolvePath`
returns is at the path, and it is what an uncached resolution finds
(`World.plain`) unless the path's own entry was there to answer for it.
-/
import GDrive.Fs.Tree

namespace GDrive

open Interaction Naming

-- ======================================================= what an entry may say

/-- The same object, whatever its content. -/
def SameObject (a b : DriveFileMeta) : Prop := a.id = b.id ∧ a.isFolder = b.isFolder

/-- The object is at the path: one of those with the name, and if there is a
folder with the name, that folder and the only one. -/
def World.Names (w : World) (segments : List Str) (file : DriveFileMeta) : Prop :=
  ∃ init s p, segments = init ++ [s] ∧ w.folderAt init = some p ∧
    (∃ f ∈ w.named p s, SameObject f file) ∧
    if file.isFolder then w.step p s = some file.id else w.foldersNamed p s = []

/-- The key of a path. -/
def pathKey (auth : AuthContext) (segments : List Str) : Str :=
  CacheKey.toString ⟨auth, joinPath segments⟩

/-- A cache that agrees with the tree. `X` is what is known of each entry's
file and stamp, `Y` of the metadata of the current generation. -/
structure CacheInv (w : World) (auth : AuthContext) (X : DriveFileMeta → Nat → Prop)
    (Y : Nat → Str → DriveFileMeta → Prop) (c : PathCache) : Prop where
  names : ∀ {segments e}, (∀ s ∈ segments, Segment s) →
    c.entries.lookup (pathKey auth segments) = some e → w.Names segments e.file
  stamps : ∀ {k e}, c.entries.lookup k = some e → X e.file e.freshGeneration
  looked : ∀ {id file}, c.metadataEntries.lookup (metadataKey auth id) = some file →
    Y c.metadataGeneration id file

/-- What path entries do not concern stays as it was. -/
structure SameQuery (c c' : PathCache) : Prop where
  queryGeneration : c'.queryGeneration = c.queryGeneration
  metadataGeneration : c'.metadataGeneration = c.metadataGeneration

theorem SameQuery.refl (c : PathCache) : SameQuery c c := ⟨rfl, rfl⟩

theorem SameQuery.trans {a b c : PathCache} (h : SameQuery a b) (h' : SameQuery b c) :
    SameQuery a c :=
  ⟨h'.queryGeneration.trans h.queryGeneration, h'.metadataGeneration.trans h.metadataGeneration⟩

theorem toString_injective {auth : AuthContext} {a b : Str}
    (h : CacheKey.toString ⟨auth, a⟩ = CacheKey.toString ⟨auth, b⟩) : a = b :=
  List.append_cancel_left h

theorem pathKey_injective {auth : AuthContext} {a b : List Str} (ha : ∀ s ∈ a, Segment s)
    (hb : ∀ s ∈ b, Segment s) (h : pathKey auth a = pathKey auth b) : a = b :=
  joinPath_injective ha hb (toString_injective h)

section Operations

variable {w : World} {auth : AuthContext} {X : DriveFileMeta → Nat → Prop}
  {Y : Nat → Str → DriveFileMeta → Prop} {c : PathCache}

/-- An empty cache says nothing. -/
theorem cacheInv_empty : CacheInv w auth X Y {} := by
  refine ⟨?_, ?_, ?_⟩
  · intro segments e _ he
    cases he
  · intro k e he
    cases he
  · intro id file hfile
    cases hfile

theorem CacheInv.tryGet (h : CacheInv w auth X Y c) (thread : Nat) (key : CacheKey) :
    CacheInv w auth X Y (c.tryGet thread key).2 ∧ SameQuery c (c.tryGet thread key).2 := by
  have hmeta : (c.tryGet thread key).2.metadataEntries = c.metadataEntries ∧
      SameQuery c (c.tryGet thread key).2 := by
    unfold PathCache.tryGet
    split
    · exact ⟨rfl, .refl c⟩
    · exact ⟨rfl, rfl, rfl⟩
  refine ⟨⟨?_, ?_, ?_⟩, hmeta.2⟩
  · intro segments e hsegs he
    obtain ⟨e', he', hfile, -⟩ := PathCache.lookup_tryGet he
    rw [← hfile]
    exact h.names hsegs he'
  · intro k e he
    obtain ⟨e', he', hfile, hstamp⟩ := PathCache.lookup_tryGet he
    rw [← hfile, ← hstamp]
    exact h.stamps he'
  · intro id file hfile
    rw [hmeta.1] at hfile
    rw [hmeta.2.metadataGeneration]
    exact h.looked hfile

/-- A `Put` of what is at the path. -/
theorem CacheInv.put (h : CacheInv w auth X Y c) {thread : Nat} {canonical : Str}
    {file : DriveFileMeta}
    (hnames : ∀ segments, (∀ s ∈ segments, Segment s) → canonical = joinPath segments →
      w.Names segments file)
    (hstamp : X file (c.queryGeneration thread)) :
    CacheInv w auth X Y (c.put thread ⟨auth, canonical⟩ file) ∧
      SameQuery c (c.put thread ⟨auth, canonical⟩ file) := by
  refine ⟨⟨?_, ?_, ?_⟩, rfl, rfl⟩
  · intro segments e hsegs he
    rcases PathCache.lookup_put he with ⟨hk, hfile, -⟩ | ⟨-, he'⟩
    · rw [hfile]
      exact hnames segments hsegs (toString_injective hk).symm
    · exact h.names hsegs he'
  · intro k e he
    rcases PathCache.lookup_put he with ⟨-, hfile, hgeneration⟩ | ⟨-, he'⟩
    · rw [hfile, hgeneration]
      exact hstamp
    · exact h.stamps he'
  · exact h.looked

theorem CacheInv.setMaxEntries (h : CacheInv w auth X Y c) (max : Nat) :
    CacheInv w auth X Y (c.setMaxEntries max) :=
  ⟨fun hsegs he => h.names hsegs (PathCache.lookup_setMaxEntries he),
    fun he => h.stamps (PathCache.lookup_setMaxEntries he), h.looked⟩

/-- A new generation has no metadata yet. -/
theorem CacheInv.beginQuery (h : CacheInv w auth X Y c) (thread generation : Nat) :
    CacheInv w auth X Y (c.beginQuery thread generation) := by
  unfold PathCache.beginQuery
  simp only
  split
  · exact ⟨h.names, h.stamps, h.looked⟩
  · refine ⟨h.names, h.stamps, ?_⟩
    intro id file hfile
    cases hfile

theorem CacheInv.invalidatePrefix (h : CacheInv w auth X Y c) (key : CacheKey) :
    CacheInv w auth X Y (c.invalidatePrefix key) := by
  refine ⟨?_, ?_, ?_⟩
  · intro segments e hsegs he
    rw [PathCache.lookup_invalidatePrefix] at he
    split at he
    · cases he
    · exact h.names hsegs he
  · intro k e he
    rw [PathCache.lookup_invalidatePrefix] at he
    split at he
    · cases he
    · exact h.stamps he
  · intro id file hfile
    unfold PathCache.invalidatePrefix at hfile
    rw [lookup_keepKeys] at hfile
    split at hfile
    · exact h.looked hfile
    · cases hfile

end Operations

-- ============================================================== the resolution

/-- An uncached resolution. -/
def World.plain (w : World) (contextPath : Str) :
    Str → List Str → Except Exn (Option DriveFileMeta)
  | _, [] => .ok none
  | p, [leaf] =>
      match w.named p leaf with
      | [] => .ok none
      | [file] => .ok (some file)
      | found => .error (ambiguousError found contextPath)
  | p, segment :: next :: rest =>
      match w.foldersNamed p segment with
      | [] => .ok none
      | [folder] => w.plain contextPath folder.id (next :: rest)
      | found => .error (ambiguousError found contextPath)

/-- Where the walk stands: at the folder of the path, or at a file. -/
def World.At (w : World) (done : List Str) (p : Str) : Prop :=
  w.folderAt done = some p ∨ (w.folderAt done = none ∧ w.children p = [])

section Tree

variable {w : World}

theorem World.named_eq_nil {p s : Str} (h : w.children p = []) : w.named p s = [] := by
  unfold World.named
  rw [h]
  rfl

theorem World.foldersNamed_eq_nil {p s : Str} (h : w.named p s = []) :
    w.foldersNamed p s = [] := by
  unfold World.foldersNamed
  rw [h]
  rfl

/-- Nothing lies beneath what is no folder. -/
theorem World.children_of_file {p s : Str} {f file : DriveFileMeta} (hf : f ∈ w.named p s)
    (hsame : SameObject f file) (hkind : file.isFolder = false) : w.children file.id = [] := by
  obtain ⟨n, hn, rfl, -, -⟩ := mem_children.mp (mem_named.mp hf).1
  refine List.eq_nil_iff_forall_not_mem.mpr ?_
  intro g hg
  obtain ⟨m, hm, -, -, hparent⟩ := mem_children.mp hg
  have hfolder := w.folders n hn m hm (hparent.trans hsame.1.symm)
  rw [hsame.2, hkind] at hfolder
  cases hfolder

theorem World.plain_of_children {ctx p : Str} {segments : List Str} (h : w.children p = []) :
    w.plain ctx p segments = .ok none := by
  match segments with
  | [] => rfl
  | [leaf] =>
      unfold World.plain
      rw [World.named_eq_nil h]
  | segment :: next :: rest =>
      unfold World.plain
      rw [World.foldersNamed_eq_nil (World.named_eq_nil h)]

/-- What is named below the path lies in the folder of the path. -/
theorem World.Names.folderAt {done : List Str} {s : Str} {more : List Str} {file : DriveFileMeta}
    (h : w.Names (done ++ s :: more) file) : ∃ p, w.folderAt done = some p := by
  obtain ⟨init, last, p, hsegs, hinit, -⟩ := h
  have hbegins : done <+: init := by
    have hlast : done ++ s :: more = (done ++ (s :: more).dropLast) ++
        [(s :: more).getLast (by simp)] := by
      rw [List.append_assoc, List.dropLast_append_getLast]
    rw [hlast] at hsegs
    rw [← (List.append_inj' hsegs rfl).1]
    exact List.prefix_append _ _
  obtain ⟨rest, rfl⟩ := hbegins
  unfold World.folderAt at hinit ⊢
  rw [walk_append, Option.bind_eq_some_iff] at hinit
  obtain ⟨q, hq, -⟩ := hinit
  exact ⟨q, hq⟩

/-- Names at a place: the last segment's. -/
theorem World.Names.concat {done : List Str} {s p : Str} {file : DriveFileMeta}
    (h : w.Names (done ++ [s]) file) (hp : w.folderAt done = some p) :
    (∃ f ∈ w.named p s, SameObject f file) ∧
      if file.isFolder then w.step p s = some file.id else w.foldersNamed p s = [] := by
  obtain ⟨init, s', p', hsegs, hinit, hrest⟩ := h
  obtain ⟨rfl, hs⟩ := List.append_inj' hsegs rfl
  cases hs
  rw [hp] at hinit
  cases hinit
  exact hrest

/-- The one folder with a name is at its path. -/
theorem World.names_folder {done : List Str} {s p : Str} {folder : DriveFileMeta}
    (hp : w.folderAt done = some p) (h : w.foldersNamed p s = [folder]) :
    w.Names (done ++ [s]) folder := by
  have hmem : folder ∈ w.foldersNamed p s := by
    rw [h]
    exact List.mem_singleton.mpr rfl
  obtain ⟨hnamed, hkind⟩ := mem_foldersNamed.mp hmem
  refine ⟨done, s, p, rfl, hp, ⟨folder, hnamed, rfl, rfl⟩, ?_⟩
  rw [if_pos hkind]
  exact step_eq_some.mpr ⟨folder, h, rfl⟩

/-- The one object with a name is at its path. -/
theorem World.names_leaf {done : List Str} {s p : Str} {file : DriveFileMeta}
    (hp : w.folderAt done = some p) (h : w.named p s = [file]) : w.Names (done ++ [s]) file := by
  by_cases hkind : file.isFolder = true
  · refine World.names_folder hp ?_
    unfold World.foldersNamed
    rw [h, List.filter_cons_of_pos hkind]
    rfl
  · refine ⟨done, s, p, rfl, hp, ⟨file, ?_, rfl, rfl⟩, ?_⟩
    · rw [h]
      exact List.mem_singleton.mpr rfl
    · rw [if_neg hkind]
      unfold World.foldersNamed
      rw [h, List.filter_cons_of_neg hkind]
      rfl

/-- Below the folder of a path an uncached resolution comes to the last name. -/
theorem World.plain_below {p q ctx s : Str} {init : List Str} (h : walk w.step p init = some q) :
    w.plain ctx p (init ++ [s]) = w.plain ctx q [s] := by
  induction init generalizing p with
  | nil =>
      obtain rfl : p = q := Option.some.inj h
      rfl
  | cons t init ih =>
      rw [walk_cons, Option.bind_eq_some_iff] at h
      obtain ⟨r, hr, hrest⟩ := h
      obtain ⟨folder, hfolder, rfl⟩ := World.step_eq_some.mp hr
      have hnext : ∃ next rest, init ++ [s] = next :: rest := by
        cases init with
        | nil => exact ⟨s, [], rfl⟩
        | cons next rest => exact ⟨next, rest ++ [s], rfl⟩
      obtain ⟨next, rest, hcons⟩ := hnext
      rw [← ih hrest, List.cons_append, hcons, World.plain, hfolder]

/-- What is there, where no more than one is. -/
theorem eq_singleton_of_mem {α : Type} {a : α} {as : List α} (ha : a ∈ as) (hle : as.length ≤ 1) :
    as = [a] := by
  match as with
  | [b] => rw [List.mem_singleton.mp ha]
  | _ :: _ :: _ => simp at hle

/-- What has its name for itself is what an uncached resolution finds. -/
theorem World.Names.plain {segments : List Str} {file : DriveFileMeta}
    (h : w.Names segments file) (halone : ∀ init s p, segments = init ++ [s] →
      w.folderAt init = some p → (w.named p s).length ≤ 1) (ctx : Str) :
    ∃ f, w.plain ctx w.rootId segments = .ok (some f) ∧ SameObject f file := by
  obtain ⟨init, s, p, rfl, hp, ⟨f, hf, hsame⟩, -⟩ := h
  have hle := halone init s p rfl hp
  refine ⟨f, ?_, hsame⟩
  rw [World.plain_below hp, World.plain, eq_singleton_of_mem hf hle]

end Tree

-- ================================================================ the lookups

section Lookups

variable {pj : Picojson} {rounds thread : Nat} {auth : AuthContext}
  {X : DriveFileMeta → Nat → Prop} {Y : Nat → Str → DriveFileMeta → Prop}
  {mayFail : CallReq → Prop} {R : Rel Client World} {w : World} {c : PathCache}

theorem treeRel_list {query : DriveQuery} {token : Str} {r : Except Exn DriveResponse} {w' : World}
    (h : treeRel pj mayFail w (.list query token) r w') :
    w' = w ∧
      ((∃ resp, r = .ok resp ∧ resp.ok = true ∧
          parseFileList pj resp.body = some (w.listing query, [])) ∨
        (mayFail (.list query token) ∧ ∀ resp, r = .ok resp → resp.ok = false)) := by
  rcases h with ⟨resp, hr, hok, rfl, hparse⟩ | ⟨id, resp, hq, -⟩ | ⟨hmay, hfailed, hw⟩
  · exact ⟨rfl, .inl ⟨resp, hr, hok, hparse⟩⟩
  · cases hq
  · refine ⟨?_, .inr ⟨hmay, fun resp hr => (hfailed resp hr).1⟩⟩
    rcases hw with rfl | ⟨resp, rfl, -⟩
    · rfl
    · rfl

theorem treeRel_getMetadata {id : Str} {r : Except Exn DriveResponse} {w' : World}
    (h : treeRel pj mayFail w (.getMetadata id) r w') :
    w' = w ∧
      ((∃ resp file, r = .ok resp ∧ resp.ok = true ∧ parseFileMeta pj resp.body = some file ∧
          w.Metadata id file) ∨
        (∃ resp, r = .ok resp ∧ resp.ok = false ∧ resp.error.kind = .notFound ∧ w.Absent id) ∨
        (mayFail (.getMetadata id) ∧ ∀ resp, r = .ok resp → resp.ok = false ∧
          resp.error.kind ≠ .notFound)) := by
  rcases h with ⟨resp, hr, hok, rfl, file, hparse, hmeta⟩ |
    ⟨id', resp, hq, hr, hok, hkind, habsent, rfl⟩ | ⟨hmay, hfailed, hw⟩
  · exact ⟨rfl, .inl ⟨resp, file, hr, hok, hparse, hmeta⟩⟩
  · cases hq
    exact ⟨rfl, .inr (.inl ⟨resp, hr, hok, hkind, habsent⟩)⟩
  · refine ⟨?_, .inr (.inr ⟨hmay, ?_⟩)⟩
    · rcases hw with rfl | ⟨resp, rfl, -⟩
      · rfl
      · rfl
    · intro resp hr
      obtain ⟨hok, hkind⟩ := hfailed resp hr
      exact ⟨hok, hkind id rfl⟩

/-- The party of a file system: no run against it is cut. -/
def fsEnv (R : Rel Client World) : Env Client World := .total R fun _ => True

/-- A listing comes in one page, and says what is there. -/
theorem wp_listAll {σ : Type} (hR : ∀ w q r w', R w q r w' → treeRel pj mayFail w q r w')
    (hrounds : 1 ≤ rounds) (query : DriveQuery) (ctx malformed : Str) (s : σ) :
    Code.wp (fsEnv R) (listAll pj query ctx malformed rounds [] [])
      (fun out s' w' => s' = s ∧ w' = w ∧
        (out = .ok (w.listing query) ∨ (mayFail (.list query []) ∧ ∃ e, out = .error e))) s w := by
  obtain ⟨rounds, rfl⟩ := Nat.exists_eq_add_of_le' hrounds
  unfold listAll
  rw [Code.wp_bind, wp_call]
  refine ⟨trivial, ?_⟩
  intro r w' hr
  obtain ⟨rfl, h⟩ := treeRel_list (hR _ _ _ _ hr)
  cases r with
  | error e =>
      rcases h with ⟨resp, hresp, -⟩ | ⟨hmay, -⟩
      · cases hresp
      · exact ⟨rfl, rfl, .inr ⟨hmay, e, rfl⟩⟩
  | ok resp =>
      rw [Code.outcome_ok, Code.wp_bind, Code.wp_when]
      rcases h with ⟨resp', hresp, hok, hparse⟩ | ⟨hmay, hfail⟩
      · cases hresp
        rw [hok, hparse]
        exact ⟨nofun, fun _ => ⟨rfl, rfl, .inl rfl⟩⟩
      · rw [hfail resp rfl]
        exact ⟨fun _ => ⟨rfl, rfl, .inr ⟨hmay, _, rfl⟩⟩, nofun⟩

/-- What a listing by name finds. -/
def World.found (w : World) (p name : Str) (requireFolder : Bool) : List DriveFileMeta :=
  if requireFolder then w.foldersNamed p name else w.named p name

/-- What holds of a tree's own facts: `X` of what a listing finds alone,
whatever the stamp, and `Y` of what a lookup by id says. -/
structure Truths (w : World) (X : DriveFileMeta → Nat → Prop)
    (Y : Nat → Str → DriveFileMeta → Prop) : Prop where
  listed : ∀ {p name requireFolder file}, w.found p name requireFolder = [file] → ∀ g, X file g
  looked : ∀ g {id file}, w.Metadata id file → Y g id file

theorem wp_listByName {σ : Type} (hR : ∀ w q r w', R w q r w' → treeRel pj mayFail w q r w')
    (hrounds : 1 ≤ rounds) (parentId name ctx : Str) (requireFolder : Bool) (s : σ) :
    Code.wp (fsEnv R) (listByName pj rounds parentId name requireFolder ctx)
      (fun out s' w' => s' = s ∧ w' = w ∧
        (out = .ok (w.found (w.deref parentId) name requireFolder) ∨
          ((∃ query, mayFail (.list query [])) ∧ ∃ e, out = .error e))) s w := by
  refine Code.wp_mono (wp_listAll hR hrounds _ _ _ s) ?_
  intro out s' w' ⟨hs, hw, hout⟩
  refine ⟨hs, hw, ?_⟩
  rcases hout with hout | ⟨hmay, herror⟩
  · exact .inl hout
  · exact .inr ⟨⟨_, hmay⟩, herror⟩

theorem wp_listChildren {σ : Type} (hR : ∀ w q r w', R w q r w' → treeRel pj mayFail w q r w')
    (hrounds : 1 ≤ rounds) (parentId ctx : Str) (s : σ) :
    Code.wp (fsEnv R) (listChildren pj rounds parentId ctx)
      (fun out s' w' => s' = s ∧ w' = w ∧
        (out = .ok (w.children (w.deref parentId)) ∨
          ((∃ query, mayFail (.list query [])) ∧ ∃ e, out = .error e))) s w := by
  refine Code.wp_mono (wp_listAll hR hrounds _ _ _ s) ?_
  intro out s' w' ⟨hs, hw, hout⟩
  refine ⟨hs, hw, ?_⟩
  rcases hout with hout | ⟨hmay, herror⟩
  · exact .inl hout
  · exact .inr ⟨⟨_, hmay⟩, herror⟩

/-- A lookup by id: the metadata, or nothing where nothing has the id. -/
theorem wp_fetchMetadata {σ : Type} (hR : ∀ w q r w', R w q r w' → treeRel pj mayFail w q r w')
    (id ctx : Str) (s : σ) :
    Code.wp (fsEnv R) (fetchMetadata pj id ctx)
      (fun out s' w' => s' = s ∧ w' = w ∧
        ((∃ file, out = .ok (some file) ∧ w.Metadata id file) ∨
          (out = .ok none ∧ w.Absent id) ∨
          (mayFail (.getMetadata id) ∧ ∃ e, out = .error e))) s w := by
  unfold fetchMetadata
  rw [Code.wp_bind, wp_call]
  refine ⟨trivial, ?_⟩
  intro r w' hr
  obtain ⟨rfl, h⟩ := treeRel_getMetadata (hR _ _ _ _ hr)
  cases r with
  | error e =>
      rcases h with ⟨resp, file, hresp, -⟩ | ⟨resp, hresp, -⟩ | ⟨hmay, -⟩
      · cases hresp
      · cases hresp
      · exact ⟨rfl, rfl, .inr (.inr ⟨hmay, e, rfl⟩)⟩
  | ok resp =>
      rw [Code.outcome_ok]
      rcases h with ⟨resp', file, hresp, hok, hparse, hmeta⟩ |
        ⟨resp', hresp, hok, hkind, habsent⟩ | ⟨hmay, hfail⟩
      · cases hresp
        rw [hok, hparse]
        exact ⟨rfl, rfl, .inl ⟨file, rfl, hmeta⟩⟩
      · cases hresp
        rw [hok, Bool.not_false, if_pos rfl, if_pos hkind]
        exact ⟨rfl, rfl, .inr (.inl ⟨rfl, habsent⟩)⟩
      · obtain ⟨hok, hkind⟩ := hfail resp rfl
        rw [hok, Bool.not_false, if_pos rfl, if_neg hkind]
        exact ⟨rfl, rfl, .inr (.inr ⟨hmay, _, rfl⟩)⟩

-- ============================================================= the resolution

/-- What makes a resolved leaf fresh: it has just been listed, or its entry
bears the stamp of the query the thread is serving. -/
def FreshLeaf (w : World) (X : DriveFileMeta → Nat → Prop) (generation : Nat)
    (file : DriveFileMeta) : Prop :=
  (∃ n ∈ w.nodes, n.trashed = false ∧ n.file = file) ∨
    (X file generation ∧ generation ≠ 0 ∧ generation ≠ maximumQueryId)

theorem mem_found {p name : Str} {requireFolder : Bool} {file : DriveFileMeta}
    (h : file ∈ w.found p name requireFolder) :
    ∃ n ∈ w.nodes, n.trashed = false ∧ n.file = file := by
  have hnamed : file ∈ w.named p name := by
    unfold World.found at h
    split at h
    · exact (World.mem_foldersNamed.mp h).1
    · exact h
  obtain ⟨n, hn, hfile, htrashed, -⟩ := World.mem_children.mp (World.mem_named.mp hnamed).1
  exact ⟨n, hn, htrashed, hfile⟩

/-- A listing that finds one object names it. -/
theorem World.names_found {done : List Str} {p s : Str} {requireFolder : Bool}
    {file : DriveFileMeta} (hat : w.At done p) (h : w.found p s requireFolder = [file]) :
    w.Names (done ++ [s]) file := by
  rcases hat with hp | ⟨-, hnone⟩
  · unfold World.found at h
    split at h
    · exact World.names_folder hp h
    · exact World.names_leaf hp h
  · have hnil : w.found p s requireFolder = [] := by
      unfold World.found
      rw [World.foldersNamed_eq_nil (World.named_eq_nil hnone), World.named_eq_nil hnone]
      split <;> rfl
    rw [hnil] at h
    cases h

/-- What an entry's being there and its stamp say of a hit. -/
theorem CacheInv.hit (h : CacheInv w auth X Y c) {segments : List Str} {file : DriveFileMeta}
    {fresh : Bool} (hsegs : ∀ s ∈ segments, Segment s)
    (hit : (c.tryGet thread ⟨auth, joinPath segments⟩).1 = some (file, fresh)) :
    w.Names segments file ∧ (fresh = true → FreshLeaf w X (c.queryGeneration thread) file) ∧
      (∃ g, X file g) ∧ ∃ e, c.entries.lookup (pathKey auth segments) = some e := by
  unfold PathCache.tryGet at hit
  split at hit
  · cases hit
  · rename_i e he
    cases hit
    refine ⟨h.names hsegs he, ?_, ⟨_, h.stamps he⟩, e, he⟩
    intro hfresh
    unfold PathCache.isFresh at hfresh
    simp only [decide_eq_true_eq] at hfresh
    obtain ⟨hzero, hmax, hstamp⟩ := hfresh
    right
    rw [← hstamp]
    exact ⟨h.stamps he, by rwa [hstamp], by rwa [hstamp]⟩

/-- One segment, resolved at `p`. -/
def SegmentAnswer (w : World) (X : DriveFileMeta → Nat → Prop) (mayFail : CallReq → Prop)
    (auth : AuthContext) (thread : Nat) (c : PathCache) (done : List Str) (p s ctx : Str)
    (requireFolder : Bool) : Except Exn (Option (DriveFileMeta × Bool)) → Prop
  | .ok none => w.found p s requireFolder = []
  | .ok (some (file, fresh)) =>
      w.Names (done ++ [s]) file ∧
        (fresh = true → FreshLeaf w X (c.queryGeneration thread) file) ∧ (∃ g, X file g) ∧
        ((∃ e, c.entries.lookup (pathKey auth (done ++ [s])) = some e) ∨
          w.found p s requireFolder = [file])
  | .error e =>
      (2 ≤ (w.found p s requireFolder).length ∧
          e = ambiguousError (w.found p s requireFolder) ctx) ∨
        ∃ query, mayFail (.list query [])

/-- What a cache has under the paths it answers for afterwards, it had. -/
def OnlyNew (auth : AuthContext) (done : List Str) (c c' : PathCache) : Prop :=
  ∀ more e, more ≠ [] → (∀ s ∈ done ++ more, Segment s) →
    c'.entries.lookup (pathKey auth (done ++ more)) = some e →
    ∃ e', c.entries.lookup (pathKey auth (done ++ more)) = some e'

theorem wp_resolveSegment (hR : ∀ w q r w', R w q r w' → treeRel pj mayFail w q r w')
    (hrounds : 1 ≤ rounds) (ht : Truths w X Y)
    {done : List Str} {parentId s ctx : Str} (isLast : Bool)
    (hsegs : ∀ t ∈ done ++ [s], Segment t) (hat : w.At done (w.deref parentId))
    (h : CacheInv w auth X Y c) :
    Code.wp (fsEnv R)
      (resolveSegment pj rounds thread auth isLast parentId (extendPath (joinPath done) s) s ctx)
      (fun out c' w' => w' = w ∧ CacheInv w auth X Y c' ∧ SameQuery c c' ∧
        OnlyNew auth (done ++ [s]) c c' ∧
        SegmentAnswer w X mayFail auth thread c done (w.deref parentId) s ctx (!isLast) out)
      c w := by
  unfold resolveSegment useCache
  rw [← joinPath_concat, Code.wp_bind, Code.wp_bind, Code.wp_get, Code.outcome_ok, Code.wp_bind,
    Code.wp_set, Code.outcome_ok, Code.wp_pure, Code.outcome_ok]
  obtain ⟨h', hsame⟩ := h.tryGet thread ⟨auth, joinPath (done ++ [s])⟩
  have honly : OnlyNew auth (done ++ [s]) c
      (c.tryGet thread ⟨auth, joinPath (done ++ [s])⟩).2 := by
    intro more e _ _ he
    obtain ⟨e', he', -⟩ := PathCache.lookup_tryGet he
    exact ⟨e', he'⟩
  cases hget : (c.tryGet thread ⟨auth, joinPath (done ++ [s])⟩).1 with
  | some hit =>
      obtain ⟨hnames, hfresh, hknown, hown⟩ := h.hit hsegs hget
      exact ⟨rfl, h', hsame, honly, hnames, hfresh, hknown, .inl hown⟩
  | none =>
      simp only
      rw [Code.wp_bind]
      refine Code.wp_mono (wp_listByName hR hrounds _ _ _ _ _) ?_
      intro out c' w' ⟨hc, hw, hout⟩
      subst hc hw
      rcases hout with rfl | ⟨hmay, e, rfl⟩
      · rw [Code.outcome_ok]
        split
        · rename_i hfound
          exact ⟨rfl, h', hsame, honly, hfound⟩
        · rename_i file hfound
          have hmem : file ∈ w'.found (w'.deref parentId) s (!isLast) := by
            rw [hfound]
            exact List.mem_singleton.mpr rfl
          obtain ⟨n, hn, htrashed, rfl⟩ := mem_found hmem
          have hnames := World.names_found hat hfound
          obtain ⟨hput, hsame'⟩ := h'.put 
            (fun segments hsegments heq => by
              rw [← joinPath_injective hsegs hsegments heq]
              exact hnames)
            (ht.listed hfound _)
          refine ⟨rfl, hput, hsame.trans hsame', ?_, hnames,
            fun _ => .inl ⟨n, hn, htrashed, rfl⟩, ⟨0, ht.listed hfound 0⟩, .inr hfound⟩
          intro more e hmore hall he
          rcases PathCache.lookup_put he with ⟨hk, -, -⟩ | ⟨-, he'⟩
          · have heq := pathKey_injective hall hsegs hk
            exact absurd (List.append_right_eq_self.mp heq) hmore
          · exact honly more e hmore hall he'
        · rename_i hnil hone
          refine ⟨rfl, h', hsame, honly, .inl ⟨?_, rfl⟩⟩
          match hfound : w'.found (w'.deref parentId) s (!isLast) with
          | [] => exact absurd hfound hnil
          | [file] => exact absurd hfound (hone file)
          | _ :: _ :: _ => simp
      · exact ⟨rfl, h', hsame, honly, .inr hmay⟩

/-- The walk goes on at what the segment names, and the uncached resolution
comes to the same. -/
theorem World.enter {done : List Str} {p s : Str} {folder : DriveFileMeta} (hat : w.At done p)
    (hnames : w.Names (done ++ [s]) folder) :
    w.deref folder.id = folder.id ∧ w.At (done ++ [s]) folder.id ∧
      ∀ ctx next rest, w.plain ctx p (s :: next :: rest) = w.plain ctx folder.id (next :: rest) := by
  obtain ⟨q, hq⟩ := hnames.folderAt
  have hp : w.folderAt done = some p := by
    rcases hat with hp | ⟨hnone, -⟩
    · exact hp
    · rw [hnone] at hq
      cases hq
  obtain ⟨⟨f, hf, hsame⟩, hkind⟩ := hnames.concat hp
  have hderef : w.deref folder.id = folder.id := by
    obtain ⟨n, hn, rfl, -, -⟩ := World.mem_children.mp (World.mem_named.mp hf).1
    rw [← hsame.1]
    exact World.deref_node hn
  refine ⟨hderef, ?_, ?_⟩
  · by_cases hfolder : folder.isFolder = true
    · rw [if_pos hfolder] at hkind
      exact .inl (walk_concat_eq_some.mpr ⟨p, hp, hkind⟩)
    · rw [if_neg hfolder] at hkind
      right
      refine ⟨?_, World.children_of_file hf hsame (by simpa using hfolder)⟩
      have hstep : w.step p s = none := by
        unfold World.step
        rw [hkind]
      unfold World.folderAt at hp ⊢
      rw [walk_concat, hp, Option.bind_some, hstep]
  · intro ctx next rest
    by_cases hfolder : folder.isFolder = true
    · rw [if_pos hfolder] at hkind
      obtain ⟨g, hg, hid⟩ := World.step_eq_some.mp hkind
      rw [World.plain, hg]
      simp only
      rw [hid]
    · rw [if_neg hfolder] at hkind
      rw [World.plain, hkind, World.plain_of_children
        (World.children_of_file hf hsame (by simpa using hfolder))]

/-- A path resolved below `p`: what is there, as an uncached resolution has
it unless the path's own entry answered. -/
def PathAnswer (w : World) (X : DriveFileMeta → Nat → Prop) (mayFail : CallReq → Prop)
    (auth : AuthContext) (thread : Nat) (c : PathCache) (done : List Str) (p ctx : Str)
    (segments : List Str) : Except Exn (Option (DriveFileMeta × Bool)) → Prop
  | .ok none => w.plain ctx p segments = .ok none
  | .ok (some (file, fresh)) =>
      w.Names (done ++ segments) file ∧
        (fresh = true → FreshLeaf w X (c.queryGeneration thread) file) ∧ (∃ g, X file g) ∧
        ((∃ e, c.entries.lookup (pathKey auth (done ++ segments)) = some e) ∨
          w.plain ctx p segments = .ok (some file))
  | .error e => w.plain ctx p segments = .error e ∨ ∃ query, mayFail (.list query [])

/-- The loop of the resolution, by induction on the segments left. -/
theorem wp_resolveSegments (hR : ∀ w q r w', R w q r w' → treeRel pj mayFail w q r w')
    (hrounds : 1 ≤ rounds) (ht : Truths w X Y)
    {segments : List Str} (hne : segments ≠ []) {done : List Str} {parentId ctx : Str}
    (hsegs : ∀ t ∈ done ++ segments, Segment t) (hat : w.At done (w.deref parentId))
    (h : CacheInv w auth X Y c) :
    Code.wp (fsEnv R) (resolveSegments pj rounds thread auth ctx parentId (joinPath done) segments)
      (fun out c' w' => w' = w ∧ CacheInv w auth X Y c' ∧ SameQuery c c' ∧
        PathAnswer w X mayFail auth thread c done (w.deref parentId) ctx segments out) c w := by
  induction segments generalizing done parentId c with
  | nil => exact absurd rfl hne
  | cons s rest ih =>
      have hs : ∀ t ∈ done ++ [s], Segment t := by
        intro t ht
        refine hsegs t ?_
        rcases List.mem_append.mp ht with ht | ht
        · exact List.mem_append_left _ ht
        · rw [List.mem_singleton.mp ht]
          exact List.mem_append_right _ List.mem_cons_self
      cases rest with
      | nil =>
          unfold resolveSegments
          refine Code.wp_mono (wp_resolveSegment hR hrounds ht true hs hat h) ?_
          intro out c' w' ⟨hw, h', hsame, _, hout⟩
          refine ⟨hw, h', hsame, ?_⟩
          unfold SegmentAnswer World.found at hout
          unfold PathAnswer
          split at hout
          · rw [World.plain, show w.named (w.deref parentId) s = [] from hout]
          · rename_i file fresh
            obtain ⟨hnames, hfresh, hknown, hown | hlisted⟩ := hout
            · exact ⟨hnames, hfresh, hknown, .inl hown⟩
            · refine ⟨hnames, hfresh, hknown, .inr ?_⟩
              rw [World.plain, show w.named (w.deref parentId) s = [file] from hlisted]
          · rename_i e
            rcases hout with ⟨hmany, rfl⟩ | hmay
            · left
              change 2 ≤ (w.named (w.deref parentId) s).length at hmany
              rw [World.plain]
              split
              · rename_i hnil
                rw [hnil] at hmany
                simp at hmany
              · rename_i file hone
                rw [hone] at hmany
                simp at hmany
              · rfl
            · exact .inr hmay
      | cons next rest =>
          have hall : ∀ t ∈ (done ++ [s]) ++ next :: rest, Segment t := by
            rw [← List.append_cons]
            exact hsegs
          unfold resolveSegments
          rw [Code.wp_bind]
          refine Code.wp_mono (wp_resolveSegment hR hrounds ht false hs hat h) ?_
          intro out c' w' ⟨hw, h', hsame, honly, hout⟩
          subst hw
          unfold SegmentAnswer World.found at hout
          split at hout
          · refine ⟨rfl, h', hsame, ?_⟩
            unfold PathAnswer
            simp only
            rw [World.plain, show w'.foldersNamed (w'.deref parentId) s = [] from hout]
          · rename_i folder fresh
            obtain ⟨hderef, hat', hplain⟩ := World.enter hat hout.1
            rw [Code.outcome_ok, ← joinPath_concat]
            rw [← hderef] at hat'
            refine Code.wp_mono (ih (List.cons_ne_nil _ _) hall hat' h') ?_
            intro out c'' w'' ⟨hw', h'', hsame', hout'⟩
            refine ⟨hw', h'', hsame.trans hsame', ?_⟩
            unfold PathAnswer at hout' ⊢
            rw [hderef, ← hplain, ← List.append_cons, hsame.queryGeneration] at hout'
            split at hout'
            · exact hout'
            · rename_i file fresh'
              obtain ⟨hnames, hfresh, hknown, (⟨e, he⟩ | hlisted)⟩ := hout'
              · refine ⟨hnames, hfresh, hknown, .inl ?_⟩
                rw [List.append_cons] at he ⊢
                exact honly _ e (List.cons_ne_nil _ _) hall he
              · exact ⟨hnames, hfresh, hknown, .inr hlisted⟩
            · exact hout'
          · rename_i e
            rw [Code.outcome_error]
            refine ⟨rfl, h', hsame, ?_⟩
            rcases hout with ⟨hmany, rfl⟩ | hmay
            · left
              change 2 ≤ (w'.foldersNamed (w'.deref parentId) s).length at hmany
              rw [World.plain]
              split
              · rename_i hnil
                rw [hnil] at hmany
                simp at hmany
              · rename_i file hone
                rw [hone] at hmany
                simp at hmany
              · rfl
            · exact .inr hmay

/-- The rule of `GetOrFetchMetadata`, for a fetch that leaves the cache
alone. -/
theorem wp_getOrFetchMetadata {id : Str} {fetch : CacheCode (Option DriveFileMeta)}
    {P : Except Exn (Option DriveFileMeta) → Prop}
    (hfetch : Code.wp (fsEnv R) fetch (fun out c' w' => c' = c ∧ w' = w ∧ P out) c w)
    (hY : ∀ file, P (.ok (some file)) → Y c.metadataGeneration id file)
    (h : CacheInv w auth X Y c) :
    Code.wp (fsEnv R) (getOrFetchMetadata auth id fetch)
      (fun out c' w' => w' = w ∧ CacheInv w auth X Y c' ∧ SameQuery c c' ∧
        c'.entries = c.entries ∧
        ((∃ file, out = .ok (some file) ∧ c.metadataGeneration ≠ 0 ∧
            Y c.metadataGeneration id file) ∨ P out)) c w := by
  unfold getOrFetchMetadata
  rw [Code.wp_bind, Code.wp_get, Code.outcome_ok]
  split
  · refine Code.wp_mono hfetch ?_
    intro out c' w' ⟨hc, hw, hout⟩
    subst hc hw
    exact ⟨rfl, h, .refl _, rfl, .inr hout⟩
  · rename_i hgeneration
    split
    · rename_i file hfile
      exact ⟨rfl, h, .refl _, rfl, .inl ⟨file, rfl, hgeneration, h.looked hfile⟩⟩
    · rw [Code.wp_bind]
      refine Code.wp_mono hfetch ?_
      intro out c' w' ⟨hc, hw, hout⟩
      subst hc hw
      cases out with
      | error e => exact ⟨rfl, h, .refl _, rfl, .inr hout⟩
      | ok found =>
          cases found with
          | none => exact ⟨rfl, h, .refl _, rfl, .inr hout⟩
          | some fresh =>
              refine ⟨rfl, ⟨h.names, h.stamps, ?_⟩, ⟨rfl, rfl⟩, rfl, .inr hout⟩
              intro id' file hfile
              by_cases hid : id' = id
              · subst hid
                simp only [AList.lookup_insert, Option.some.injEq] at hfile
                rw [← hfile]
                exact hY fresh hout
              · have hkey : metadataKey auth id' ≠ metadataKey auth id :=
                  fun heq => hid (List.append_cancel_left heq)
                simp only [AList.lookup_insert_ne hkey] at hfile
                exact h.looked hfile

/-- An id resolved: its metadata as Drive has it, or as this query has it. -/
def IdAnswer (w : World) (Y : Nat → Str → DriveFileMeta → Prop) (mayFail : CallReq → Prop)
    (c : PathCache) (id : Str) : Except Exn (Option (DriveFileMeta × Bool)) → Prop
  | .ok none => w.Absent id
  | .ok (some (file, fresh)) =>
      fresh = false ∧
        (w.Metadata id file ∨ (c.metadataGeneration ≠ 0 ∧ Y c.metadataGeneration id file))
  | .error _ => mayFail (.getMetadata id)

theorem wp_tryResolvePath_id (hR : ∀ w q r w', R w q r w' → treeRel pj mayFail w q r w')
    {id : Str} (ht : Truths w X Y) (h : CacheInv w auth X Y c) :
    Code.wp (fsEnv R) (tryResolvePath pj rounds thread auth (.fileId id))
      (fun out c' w' => w' = w ∧ CacheInv w auth X Y c' ∧ SameQuery c c' ∧
        c'.entries = c.entries ∧ IdAnswer w Y mayFail c id out) c w := by
  unfold tryResolvePath
  rw [Code.wp_bind]
  refine Code.wp_mono (wp_getOrFetchMetadata (wp_fetchMetadata hR id _ c) ?_ h) ?_
  · intro file hfile
    rcases hfile with ⟨file', hout, hmeta⟩ | ⟨hout, -⟩ | ⟨-, e, hout⟩
    · cases hout
      exact ht.looked _ hmeta
    · cases hout
    · cases hout
  · intro out c' w' ⟨hw, h', hsame, hentries, hout⟩
    rcases hout with ⟨file, rfl, hgeneration, hfile⟩ | ⟨file, rfl, hmeta⟩ | ⟨rfl, habsent⟩ |
      ⟨hmay, e, rfl⟩
    · exact ⟨hw, h', hsame, hentries, rfl, .inr ⟨hgeneration, hfile⟩⟩
    · exact ⟨hw, h', hsame, hentries, rfl, .inl hmeta⟩
    · exact ⟨hw, h', hsame, hentries, habsent⟩
    · exact ⟨hw, h', hsame, hentries, hmay⟩

/-- The root is looked up by its name, always. -/
theorem wp_tryResolvePath_root (hR : ∀ w q r w', R w q r w' → treeRel pj mayFail w q r w')
    (hroot : rootFolderFor auth = w.rootAlias) :
    Code.wp (fsEnv R) (tryResolvePath pj rounds thread auth (.path []))
      (fun out c' w' => w' = w ∧ c' = c ∧
        ((∃ file, out = .ok (some (file, false)) ∧ w.Metadata w.rootAlias file) ∨
          (mayFail (.getMetadata w.rootAlias) ∧ ∃ e, out = .error e))) c w := by
  unfold tryResolvePath
  rw [Code.wp_bind, hroot]
  refine Code.wp_mono (wp_fetchMetadata hR _ _ c) ?_
  intro out c' w' ⟨hc, hw, hout⟩
  rcases hout with ⟨file, rfl, hmeta⟩ | ⟨rfl, habsent⟩ | ⟨hmay, e, rfl⟩
  · exact ⟨hw, hc, .inl ⟨file, rfl, hmeta⟩⟩
  · exact absurd (World.deref_alias w) habsent.1
  · exact ⟨hw, hc, .inr ⟨hmay, e, rfl⟩⟩

theorem wp_tryResolvePath_path (hR : ∀ w q r w', R w q r w' → treeRel pj mayFail w q r w')
    (hrounds : 1 ≤ rounds) (ht : Truths w X Y)
    (hroot : rootFolderFor auth = w.rootAlias) {segments : List Str} (hne : segments ≠ [])
    (hsegs : ∀ s ∈ segments, Segment s) (h : CacheInv w auth X Y c) :
    Code.wp (fsEnv R) (tryResolvePath pj rounds thread auth (.path segments))
      (fun out c' w' => w' = w ∧ CacheInv w auth X Y c' ∧ SameQuery c c' ∧
        PathAnswer w X mayFail auth thread c [] w.rootId (GDriveUri.path segments).toString
          segments out) c w := by
  obtain ⟨s, rest, rfl⟩ := List.exists_cons_of_ne_nil hne
  have hat : w.At [] (w.deref (rootFolderFor auth)) := by
    left
    rw [hroot, World.deref_alias]
    rfl
  have hwp : Code.wp (fsEnv R)
      (resolveSegments pj rounds thread auth (GDriveUri.path (s :: rest)).toString
        (rootFolderFor auth) (joinPath []) (s :: rest))
      (fun out c' w' => w' = w ∧ CacheInv w auth X Y c' ∧ SameQuery c c' ∧
        PathAnswer w X mayFail auth thread c [] (w.deref (rootFolderFor auth))
          (GDriveUri.path (s :: rest)).toString (s :: rest) out) c w :=
    wp_resolveSegments hR hrounds ht hne hsegs hat h
  rw [hroot, World.deref_alias] at hwp
  unfold tryResolvePath
  rw [hroot]
  exact hwp

/-- From an empty cache a path resolves as an uncached resolution has it. -/
theorem wp_tryResolvePath_plain
    (hR : ∀ w q r w', R w q r w' → treeRel pj (fun _ => False) w q r w') (hrounds : 1 ≤ rounds)
    (hroot : rootFolderFor auth = w.rootAlias) {segments : List Str} (hne : segments ≠ [])
    (hsegs : ∀ s ∈ segments, Segment s) :
    Code.wp (fsEnv R) (tryResolvePath pj rounds thread auth (.path segments))
      (fun out _ _ => out.map (·.map (·.1)) =
        w.plain (GDriveUri.path segments).toString w.rootId segments) {} w := by
  have ht : Truths w (fun _ _ => True) fun _ _ _ => True := ⟨fun _ _ => trivial, fun _ _ _ _ => trivial⟩
  refine Code.wp_mono (wp_tryResolvePath_path hR hrounds ht hroot hne hsegs cacheInv_empty) ?_
  intro out c' w' ⟨_, _, _, hout⟩
  unfold PathAnswer at hout
  split at hout
  · exact hout.symm
  · obtain ⟨-, -, -, ⟨e, he⟩ | hplain⟩ := hout
    · cases he
    · exact hplain.symm
  · rcases hout with hplain | ⟨_, hmay⟩
    · exact hplain.symm
    · exact hmay.elim

/-- A URI whose segments can stand between slashes, as parsing makes them. -/
def GDriveUri.Clean : GDriveUri → Prop
  | .fileId _ => True
  | .path segments => ∀ s ∈ segments, Segment s

theorem clean_of_parse {path : Str} {uri : GDriveUri} (h : parseGDriveUri path = .ok uri) :
    uri.Clean := by
  cases uri with
  | fileId id => trivial
  | path segments => exact segment_of_parse h

/-- A resolution keeps the cache in agreement with the tree. -/
theorem wp_tryResolvePath (hR : ∀ w q r w', R w q r w' → treeRel pj mayFail w q r w')
    (hrounds : 1 ≤ rounds) (ht : Truths w X Y)
    (hroot : rootFolderFor auth = w.rootAlias) {uri : GDriveUri} (huri : uri.Clean)
    (h : CacheInv w auth X Y c) :
    Code.wp (fsEnv R) (tryResolvePath pj rounds thread auth uri)
      (fun _ c' w' => w' = w ∧ CacheInv w auth X Y c' ∧ SameQuery c c') c w := by
  match uri with
  | .fileId id =>
      refine Code.wp_mono (wp_tryResolvePath_id hR ht h) ?_
      intro out c' w' ⟨hw, h', hsame, _, _⟩
      exact ⟨hw, h', hsame⟩
  | .path [] =>
      refine Code.wp_mono (wp_tryResolvePath_root (c := c) hR hroot) ?_
      intro out c' w' ⟨hw, hc, _⟩
      subst hc
      exact ⟨hw, h, .refl _⟩
  | .path (s :: rest) =>
      refine Code.wp_mono (wp_tryResolvePath_path hR hrounds ht hroot (List.cons_ne_nil _ _)
        huri h) ?_
      intro out c' w' ⟨hw, h', hsame, _⟩
      exact ⟨hw, h', hsame⟩

end Lookups

end GDrive
