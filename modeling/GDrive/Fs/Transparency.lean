/-
The path cache on a tree that does not change.

Whatever one identity resolves, globs, walks for a write, evicts or
invalidates, the cache agrees with the tree (`mirrors_of_history`): every
producer puts what it listed under the path it listed it at. So a path that
has no entry of its own resolves as it does from an empty cache.

# Where the cache shows

The walk lists folders for a folder and everything for a leaf. A folder that
another object shares its name with gets an entry on the way to what lies in
it, and this entry then answers for the path itself, which an empty cache
calls ambiguous (`path_cache_transparent`).
-/
import GDrive.Fs.CacheGauge
import GDrive.Fs.GlobRun
import GDrive.Fs.ParentWalk
import GDrive.Fs.Served

namespace GDrive

open Interaction Naming

-- ==================================================================== histories

/-- What one identity does with its path cache. -/
inductive PathOp
  | resolve (thread : Nat) (path : Str)
  | glob (o : Opener) (depth : Nat) (path : Str)
  /-- The part of `OpenFile` for writing that walks to the parent folder. -/
  | walkParents (o : Opener) (path : Str)
  | setMaxEntries (max : Nat)
  | invalidatePrefix (canonical : Str)
  | beginQuery (thread generation : Nat)

/-- The id: forms among the expansions of a glob are all literal. -/
def PathOp.PathPrefixed : PathOp → Prop
  | .glob _ _ path => ∀ pattern ∈ globPatterns path, GDrive.PathPrefixed pattern
  | _ => True

section Histories

variable (signed : Bool) (pj : Picojson) (rounds : Nat) (auth : AuthContext)

/-- The code that an operation runs. -/
def PathOp.body : PathOp → CacheCode Unit
  | .resolve thread path => do
      let uri ← parsedUri path
      let _ ← tryResolvePath pj rounds thread auth uri
      pure ()
  | .glob o depth path => do
      let _ ← GDrive.glob signed pj rounds depth { o with auth } path
      pure ()
  | .walkParents o path => do
      let uri ← parsedUri path
      match uri with
      | .fileId _ => pure ()
      | .path segments => do
          let _ ← GDrive.walkParents pj rounds { o with auth } path false (rootFolderFor auth) []
            segments.dropLast
          pure ()
  | .setMaxEntries max => Code.modify (PathCache.setMaxEntries max)
  | .invalidatePrefix canonical => Code.modify (PathCache.invalidatePrefix ⟨auth, canonical⟩)
  | .beginQuery thread generation => Code.modify (PathCache.beginQuery thread generation)

end Histories

-- ================================================================ one operation

section Operations

variable {signed : Bool} {pj : Picojson} {rounds : Nat} {auth : AuthContext}
  {mayFail : CallReq → Prop} {R : Rel Client World} {w : World} {c : PathCache}

/-- The tree is as it was and the cache agrees with it, or something was made. -/
def KeepsStill (w : World) (auth : AuthContext) (c : PathCache) (w' : World) : Prop :=
  (w' = w ∧ Mirrors w auth c) ∨ w.nodes.length < w'.nodes.length

/-- So is a walk, which stands where its path says. -/
def WalksStill (w : World) (auth : AuthContext) (done : List Str) (p : Str) (_ : Bool)
    (c : PathCache) (w' : World) : Prop :=
  (w' = w ∧ Mirrors w auth c ∧ w.At done (w.deref p)) ∨ w.nodes.length < w'.nodes.length

theorem KeepsStill.mirrors (h : KeepsStill w auth c w) : Mirrors w auth c := by
  rcases h with ⟨-, h⟩ | hlt
  · exact h
  · exact absurd hlt (Nat.lt_irrefl _)

theorem WalksStill.keeps {done : List Str} {p : Str} {new : Bool} {w' : World}
    (h : WalksStill w auth done p new c w') : KeepsStill w auth c w' :=
  h.imp_left fun h => ⟨h.1, h.2.1⟩

theorem walkInv_still (w : World) (o : Opener) :
    WalkInv o (WalksStill w o.auth) (KeepsStill w o.auth) where
  thrown := by
    intro done p new c w' h
    exact h.keeps
  hit := by
    intro done p s c w' file fresh hsegs h hget hfolder
    refine h.imp_left ?_
    intro ⟨hw, hc, hat⟩
    obtain ⟨hnames, -⟩ := hc.hit hsegs hget
    obtain ⟨hderef, hat', -⟩ := World.enter hat hnames
    rw [hderef]
    exact ⟨hw, (hc.tryGet _ _).1, hat'⟩
  looked := by
    intro done p c w' key h
    exact h.imp_left fun ⟨hw, hc, hat⟩ => ⟨hw, (hc.tryGet _ _).1, hat⟩
  dropped := by
    intro done p c w' key h
    exact h.imp_left fun ⟨hw, hc, hat⟩ => ⟨hw, hc.invalidatePrefix _, hat⟩
  adopted := by
    intro done p s c w' folder hsegs h hfolder
    rcases h with ⟨rfl, hc, hat⟩ | hlt
    · left
      have hfound : w'.found (w'.deref p) s true = [folder] := hfolder
      have hnames := World.names_found hat hfound
      obtain ⟨hderef, hat', -⟩ := World.enter hat hnames
      rw [hderef]
      refine ⟨rfl, (hc.put ?_ ((truths_known w').listed hfound _)).1, hat'⟩
      intro segments hsegments heq
      rw [← joinPath_injective hsegs hsegments heq]
      exact hnames
    · exact .inr hlt
  made := by
    intro done p new s c w' w'' folder _ h _ _ _ hcreates _
    have hlonger : w'.nodes.length < w''.nodes.length := by
      rw [hcreates.2.nodes, List.length_append]
      exact Nat.lt_succ_self _
    have hlt : w.nodes.length < w''.nodes.length := by
      rcases h with ⟨rfl, -⟩ | hlt
      · exact hlonger
      · exact hlt.trans hlonger
    exact ⟨.inr hlt, .inr hlt⟩

/-- One operation on a tree that does not change. -/
theorem wp_pathOp (hR : ∀ w q r w', R w q r w' → treeRel pj mayFail w q r w')
    (hrounds : 1 ≤ rounds) (hroot : rootFolderFor auth = w.rootAlias) (hnames : w.Segmented)
    {op : PathOp} (hop : op.PathPrefixed) (h : Mirrors w auth c) :
    Code.wp (globEnv R) (op.body signed pj rounds auth) (fun _ => KeepsStill w auth) c w := by
  have hkept : KeepsStill w auth c w := .inl ⟨rfl, h⟩
  cases op with
  | resolve thread path =>
      unfold PathOp.body parsedUri
      rw [Code.wp_bind]
      split
      · exact hkept
      · rename_i uri hparse
        rw [Code.wp_pure, Code.outcome_ok, Code.wp_bind]
        refine Code.wp_mono (wp_glob (wp_tryResolvePath hR hrounds (truths_known w) hroot
          (clean_of_parse hparse) h)) ?_
        intro out c' w' ⟨hw, h', _⟩
        cases out with
        | error e => exact .inl ⟨hw, h'⟩
        | ok found => exact .inl ⟨hw, h'⟩
  | glob o depth path =>
      unfold PathOp.body glob
      rw [Code.wp_bind, Code.wp_bind]
      refine Code.wp_mono (wp_globFound hR hrounds hroot hnames hop depth h) ?_
      intro out c' w' ⟨hw, h', _⟩
      cases out with
      | error e => exact .inl ⟨hw, h'⟩
      | ok found => exact .inl ⟨hw, h'⟩
  | walkParents o path =>
      unfold PathOp.body parsedUri
      rw [Code.wp_bind]
      split
      · exact hkept
      · rename_i uri hparse
        rw [Code.wp_pure, Code.outcome_ok]
        cases uri with
        | fileId id => exact hkept
        | path segments =>
            simp only
            rw [Code.wp_bind]
            have hsegs : ∀ t ∈ [] ++ segments.dropLast, Segment t := by
              intro t ht
              exact segment_of_parse hparse t (List.mem_of_mem_dropLast ht)
            have hstart : WalksStill w auth [] (rootFolderFor auth) false c w := by
              refine .inl ⟨rfl, h, .inl ?_⟩
              rw [hroot, World.deref_alias]
              rfl
            refine Code.wp_mono (wp_glob (wp_walkParents hR hrounds
              (walkInv_still w { o with auth }) hsegs hstart)) ?_
            intro out c' w' hout
            cases out with
            | error e => exact hout
            | ok folder =>
                have hwalk : WalksStill w auth ([] ++ segments.dropLast) folder.1 folder.2 c' w' :=
                  hout
                exact hwalk.keeps
  | setMaxEntries max => exact .inl ⟨rfl, h.setMaxEntries max⟩
  | invalidatePrefix canonical => exact .inl ⟨rfl, h.invalidatePrefix _⟩
  | beginQuery thread generation => exact .inl ⟨rfl, h.beginQuery thread generation⟩

/-- After every history the cache agrees with the tree. -/
theorem mirrors_of_history (hR : ∀ w q r w', R w q r w' → treeRel pj mayFail w q r w')
    (hstill : ∀ w q r w', R w q r w' → w' = w) (hrounds : 1 ≤ rounds)
    (hroot : rootFolderFor auth = w.rootAlias) (hnames : w.Segmented)
    {past : List (PathOp × Except Exn Unit)} {w' : World}
    (hpast : ∀ x ∈ past, x.1.PathPrefixed)
    (h : History R (PathOp.body signed pj rounds auth) {} w past c w') :
    w' = w ∧ Mirrors w auth c := by
  induction h with
  | nil => exact ⟨rfl, cacheInv_empty⟩
  | @snoc past c₁ c₂ w₁ w₂ op r _ hrun ih =>
      rw [List.forall_mem_append] at hpast
      obtain ⟨rfl, hcache⟩ := ih hpast.1
      obtain rfl := hrun.still hstill
      have hop := hpast.2 _ (List.mem_singleton.mpr rfl)
      have hkept := Code.wp_returns (wp_pathOp hR hrounds hroot hnames hop hcache) hrun
      exact ⟨rfl, hkept.mirrors⟩

end Operations

-- =============================================================== what is found

/-- The id a resolution comes to, or that there is nothing, or its error. -/
def resolvedId (out : Except Exn (Option (DriveFileMeta × Bool))) : Except Exn (Option Str) :=
  out.map (·.map (·.1.id))

/-- The cache has an entry under the path itself. -/
def PathCache.Holds (auth : AuthContext) (segments : List Str) (c : PathCache) : Prop :=
  ∃ e, c.entries.lookup (pathKey auth segments) = some e

/-- There is room for so many more entries. -/
def PathCache.Room (n : Nat) (c : PathCache) : Prop := c.maxEntries = 0 ∨ c.size + n ≤ c.maxEntries

/-- Several objects of one folder have the path's last name. -/
def World.Shared (w : World) (segments : List Str) : Prop :=
  ∃ init s p, segments = init ++ [s] ∧ w.folderAt init = some p ∧ 2 ≤ (w.named p s).length

section Plain

variable {w : World} {auth : AuthContext} {c : PathCache}

/-- A shared name is ambiguous. -/
theorem World.Shared.plain {segments : List Str} (h : w.Shared segments) (ctx : Str) :
    ∃ e, w.plain ctx w.rootId segments = .error e := by
  obtain ⟨init, s, p, rfl, hp, hmany⟩ := h
  rw [World.plain_below hp, World.plain]
  rcases hnamed : w.named p s with _ | ⟨first, _ | ⟨second, rest⟩⟩
  · rw [hnamed] at hmany
    simp at hmany
  · rw [hnamed] at hmany
    simp at hmany
  · exact ⟨_, rfl⟩

end Plain

-- ==================================================== an entry that is still there

section Own

variable {pj : Picojson} {rounds thread : Nat} {auth : AuthContext} {R : Rel Client World}
  {w : World} {c : PathCache}

theorem PathCache.Room.mono {m n : Nat} (h : c.Room n) (hle : m ≤ n) : c.Room m :=
  h.imp_right fun hroom => by omega

/-- Where there is room, nothing is evicted. -/
theorem PathCache.Room.evictPaths (h : c.Room 0) : c.evictPaths.entries = c.entries := by
  unfold PathCache.evictPaths
  simp only
  split
  · rfl
  · rename_i hcap
    have hle : c.size ≤ c.maxEntries := h.resolve_left hcap
    cases hrounds : c.entries.entries.length with
    | zero => rfl
    | succ rounds =>
        unfold evictDownTo
        exact if_neg (Nat.not_lt.mpr hle)

theorem PathCache.Room.put {n : Nat} (h : c.Room (n + 1)) (key : CacheKey) (file : DriveFileMeta) :
    (c.put thread key file).Room n ∧ ∀ k e, c.entries.lookup k = some e →
      ∃ e', (c.put thread key file).entries.lookup k = some e' := by
  -- The entry goes in, and nothing goes out.
  obtain ⟨added, hput, hentries, hcap⟩ : ∃ added : PathCache,
      c.put thread key file = added.evictPaths ∧
      added.entries = c.entries.insert key.toString
        { file, usedAt := c.pathClock + 1, freshGeneration := c.queryGeneration thread } ∧
      added.maxEntries = c.maxEntries := ⟨_, rfl, rfl, rfl⟩
  have hsize : added.size ≤ c.size + 1 := by
    unfold PathCache.size
    rw [hentries]
    exact length_insert_le _ _ _
  have hroom : added.Room n := by
    unfold PathCache.Room at h ⊢
    rw [hcap]
    omega
  have hkept : added.evictPaths.entries = added.entries :=
    PathCache.Room.evictPaths (hroom.mono (Nat.zero_le n))
  rw [hput]
  refine ⟨?_, ?_⟩
  · unfold PathCache.Room PathCache.size at hroom ⊢
    rw [hkept]
    exact hroom
  · intro k e he
    rw [hkept, hentries]
    exact lookup_insert_some he

theorem PathCache.Room.tryGet {n : Nat} (h : c.Room n) (key : CacheKey) :
    (c.tryGet thread key).2.Room n ∧ ∀ k e, c.entries.lookup k = some e →
      ∃ e', (c.tryGet thread key).2.entries.lookup k = some e' := by
  have hcap : (c.tryGet thread key).2.maxEntries = c.maxEntries := by
    unfold PathCache.tryGet
    split
    · rfl
    · rfl
  refine ⟨?_, ?_⟩
  · unfold PathCache.Room at h ⊢
    rw [hcap, PathCache.size_tryGet]
    exact h
  · intro k e he
    unfold PathCache.tryGet
    split
    · exact ⟨e, he⟩
    · exact lookup_insert_some he

/-- A folder on the way, with room for its entry: it is entered, and what was
there is there still. -/
theorem wp_resolveSegment_room
    (hR : ∀ w q r w', R w q r w' → treeRel pj (fun _ => False) w q r w') (hrounds : 1 ≤ rounds)
    {done : List Str} {parentId s q ctx k : Str} {n : Nat}
    (hsegs : ∀ t ∈ done ++ [s], Segment t) (hp : w.folderAt done = some (w.deref parentId))
    (hq : w.step (w.deref parentId) s = some q) (h : Agrees w auth c) (hroom : c.Room (n + 1))
    (hown : ∃ e, c.entries.lookup k = some e) :
    Code.wp (fsEnv R)
      (resolveSegment pj rounds thread auth false parentId (extendPath (joinPath done) s) s ctx)
      (fun out c' w' => w' = w ∧ Agrees w auth c' ∧ c'.Room n ∧
        (∃ e, c'.entries.lookup k = some e) ∧
        ∃ folder fresh, out = .ok (some (folder, fresh)) ∧ folder.id = q) c w := by
  obtain ⟨e, he⟩ := hown
  obtain ⟨folder, hfolder, rfl⟩ := World.step_eq_some.mp hq
  have hat : w.At done (w.deref parentId) := .inl hp
  unfold resolveSegment useCache
  rw [← joinPath_concat, Code.wp_bind, Code.wp_bind, Code.wp_get, Code.outcome_ok, Code.wp_bind,
    Code.wp_set, Code.outcome_ok, Code.wp_pure, Code.outcome_ok]
  obtain ⟨h', -⟩ := h.tryGet thread ⟨auth, joinPath (done ++ [s])⟩
  obtain ⟨hroom', hkeep⟩ := hroom.tryGet ⟨auth, joinPath (done ++ [s])⟩
  obtain ⟨e', he'⟩ := hkeep k e he
  cases hget : (c.tryGet thread ⟨auth, joinPath (done ++ [s])⟩).1 with
  | some hit =>
      obtain ⟨hnames, -⟩ := h.hit hsegs hget
      refine ⟨rfl, h', hroom'.mono (Nat.le_succ n), ⟨e', he'⟩, hit.1, hit.2, rfl, ?_⟩
      obtain ⟨-, hkind⟩ := hnames.concat hp
      split at hkind
      · rw [hq] at hkind
        exact (Option.some.inj hkind).symm
      · rw [hfolder] at hkind
        cases hkind
  | none =>
      simp only
      rw [Code.wp_bind]
      refine Code.wp_mono (wp_listByName hR hrounds _ _ _ _ _) ?_
      intro out c' w' ⟨hc, hw, hout⟩
      subst hc hw
      rcases hout with rfl | ⟨⟨_, hmay⟩, -⟩
      · have hfound : w'.found (w'.deref parentId) s (!false) = [folder] := hfolder
        rw [Code.outcome_ok, hfound]
        have hnames := World.names_found hat hfound
        obtain ⟨hput, -⟩ := h'.put
          (fun segments hsegments heq => by
            rw [← joinPath_injective hsegs hsegments heq]
            exact hnames)
          trivial
        obtain ⟨hroom'', hkeep'⟩ := hroom'.put ⟨auth, joinPath (done ++ [s])⟩ folder
        obtain ⟨e'', he''⟩ := hkeep' k e' he'
        exact ⟨rfl, hput, hroom'', ⟨e'', he''⟩, folder, true, rfl, rfl⟩
      · exact hmay.elim

/-- With room for the folders on the way, a path's own entry answers for it. -/
theorem wp_resolveSegments_room
    (hR : ∀ w q r w', R w q r w' → treeRel pj (fun _ => False) w q r w') (hrounds : 1 ≤ rounds)
    {done init : List Str} {parentId s q ctx : Str}
    (hsegs : ∀ t ∈ done ++ (init ++ [s]), Segment t) (hp : w.folderAt done = some (w.deref parentId))
    (hq : walk w.step (w.deref parentId) init = some q) (h : Agrees w auth c)
    (hroom : c.Room init.length) (hown : c.Holds auth (done ++ (init ++ [s]))) :
    Code.wp (fsEnv R)
      (resolveSegments pj rounds thread auth ctx parentId (joinPath done) (init ++ [s]))
      (fun out _ _ => ∃ hit, out = .ok (some hit)) c w := by
  induction init generalizing done parentId c with
  | nil =>
      obtain ⟨e, he⟩ := hown
      show Code.wp (fsEnv R) (resolveSegment pj rounds thread auth true parentId
        (extendPath (joinPath done) s) s ctx) _ c w
      unfold resolveSegment useCache
      rw [← joinPath_concat, Code.wp_bind, Code.wp_bind, Code.wp_get, Code.outcome_ok, Code.wp_bind,
        Code.wp_set, Code.outcome_ok, Code.wp_pure, Code.outcome_ok]
      have hget : ∃ hit, (c.tryGet thread ⟨auth, joinPath (done ++ [s])⟩).1 = some hit := by
        unfold PathCache.tryGet
        rw [show c.entries.lookup (CacheKey.toString ⟨auth, joinPath (done ++ [s])⟩) = some e from he]
        exact ⟨_, rfl⟩
      obtain ⟨hit, hget⟩ := hget
      rw [hget]
      exact ⟨hit, rfl⟩
  | cons t init ih =>
      rw [walk_cons, Option.bind_eq_some_iff] at hq
      obtain ⟨r, hr, hrest⟩ := hq
      have hnext : ∃ next rest, init ++ [s] = next :: rest :=
        List.exists_cons_of_ne_nil (by simp)
      obtain ⟨next, rest, hcons⟩ := hnext
      have hall : ∀ u ∈ (done ++ [t]) ++ (init ++ [s]), Segment u := by
        rw [← List.append_cons]
        exact hsegs
      rw [List.cons_append, hcons]
      unfold resolveSegments
      rw [← hcons, Code.wp_bind]
      refine Code.wp_mono (wp_resolveSegment_room hR hrounds
        (fun u hu => hall u (List.mem_append_left _ hu)) hp hr h hroom hown) ?_
      intro out c' w' hentered
      obtain ⟨hw, h', hroom', hown', folder, fresh, hout, hid⟩ := hentered
      subst hw hout
      obtain rfl := hid
      have hderef : w'.deref folder.id = folder.id := by
        obtain ⟨n, hn, hid, -⟩ := World.node_of_step hr
        rw [← hid]
        exact World.deref_node hn
      rw [Code.outcome_ok, ← joinPath_concat]
      refine ih hall ?_ ?_ h' hroom' ?_
      · rw [hderef]
        exact walk_concat_eq_some.mpr ⟨_, hp, hr⟩
      · rw [hderef]
        exact hrest
      · rw [← List.append_cons]
        exact hown'

end Own

-- =================================================================== the outcome

section Transparency

variable {signed : Bool} {pj : Picojson} {rounds thread : Nat} {auth : AuthContext}
  {mayFail : CallReq → Prop} {R : Rel Client World} {w w' : World} {c c₀ c₁ : PathCache}

theorem agrees_of_mirrors (h : Mirrors w auth c) : Agrees w auth c := by
  refine ⟨h.names, fun _ => trivial, ?_⟩
  intro id file hfile
  obtain ⟨f, hmeta, hid, -⟩ := h.looked hfile
  exact hid.symm.trans hmeta.id_eq

/-- The root is the root, whatever the cache. -/
theorem wp_resolvedId_root
    (hR : ∀ w q r w', R w q r w' → treeRel pj (fun _ => False) w q r w')
    (hroot : rootFolderFor auth = w.rootAlias) :
    Code.wp (fsEnv R) (tryResolvePath pj rounds thread auth (.path []))
      (fun out _ _ => resolvedId out = .ok (some w.rootId)) c w := by
  refine Code.wp_mono (wp_tryResolvePath_root hR hroot) ?_
  intro out c' w' ⟨_, _, hout⟩
  rcases hout with ⟨file, rfl, hmeta⟩ | ⟨hfail, -⟩
  · show Except.ok (some file.id) = _
    rw [hmeta.id_eq, World.deref_alias]
  · exact hfail.elim

/-- A resolution from a cache that agrees with the tree, next to an uncached
one. -/
theorem wp_resolvedId
    (hR : ∀ w q r w', R w q r w' → treeRel pj (fun _ => False) w q r w') (hrounds : 1 ≤ rounds)
    (hroot : rootFolderFor auth = w.rootAlias) {segments : List Str} (hne : segments ≠ [])
    (hsegs : ∀ s ∈ segments, Segment s) (h : Agrees w auth c)
    (halone : ¬(c.Holds auth segments ∧ w.Shared segments)) :
    Code.wp (fsEnv R) (tryResolvePath pj rounds thread auth (.path segments))
      (fun out _ _ => resolvedId out =
        (w.plain (GDriveUri.path segments).toString w.rootId segments).map (·.map (·.id))) c w := by
  refine Code.wp_mono
    (wp_tryResolvePath_path hR hrounds (truths_agree w) hroot hne hsegs h) ?_
  intro out c' w' ⟨_, _, _, hout⟩
  unfold PathAnswer at hout
  split at hout
  · rw [hout]
    rfl
  · obtain ⟨hnamed, -, -, hown | hplain⟩ := hout
    · have hsole : ¬w.Shared segments := fun hshared => halone ⟨hown, hshared⟩
      have halone : ∀ init s p, segments = init ++ [s] → w.folderAt init = some p →
          (w.named p s).length ≤ 1 := by
        intro init s p hsplit hp
        by_contra hmany
        exact hsole ⟨init, s, p, hsplit, hp, by omega⟩
      obtain ⟨f, hplain, hid, -⟩ := World.Names.plain hnamed halone (GDriveUri.path segments).toString
      rw [List.nil_append] at hplain
      rw [hplain]
      exact congrArg (fun id => Except.ok (some id)) hid.symm
    · rw [hplain]
      rfl
  · rcases hout with hplain | ⟨_, hfail⟩
    · rw [hplain]
      rfl
    · exact hfail.elim

/-- A path that shares its name, answered by its own entry. -/
theorem wp_tryResolvePath_held
    (hR : ∀ w q r w', R w q r w' → treeRel pj (fun _ => False) w q r w') (hrounds : 1 ≤ rounds)
    (hroot : rootFolderFor auth = w.rootAlias) {segments : List Str}
    (hsegs : ∀ s ∈ segments, Segment s) (h : Agrees w auth c) (hown : c.Holds auth segments)
    (hshared : w.Shared segments) (hroom : c.Room (segments.length - 1)) :
    Code.wp (fsEnv R) (tryResolvePath pj rounds thread auth (.path segments))
      (fun out _ _ => ∃ hit, out = .ok (some hit)) c w := by
  obtain ⟨init, s, p, rfl, hp, -⟩ := hshared
  have hrootId : w.deref (rootFolderFor auth) = w.rootId := by
    rw [hroot, World.deref_alias]
  have hstart : w.folderAt [] = some (w.deref (rootFolderFor auth)) := by
    rw [hrootId]
    rfl
  have hway : walk w.step (w.deref (rootFolderFor auth)) init = some p := by
    rw [hrootId]
    exact hp
  rw [List.length_append, List.length_singleton, Nat.add_sub_cancel] at hroom
  have hwp : Code.wp (fsEnv R)
      (resolveSegments pj rounds thread auth (GDriveUri.path (init ++ [s])).toString
        (rootFolderFor auth) (joinPath []) (init ++ [s]))
      (fun out _ _ => ∃ hit, out = .ok (some hit)) c w :=
    wp_resolveSegments_room hR hrounds hsegs hstart hway h hroom hown
  cases init with
  | nil => exact hwp
  | cons t init => exact hwp

theorem Holds.not_empty {segments : List Str} : ¬({} : PathCache).Holds auth segments := by
  intro ⟨e, he⟩
  cases he

/-- On a tree that does not change a path resolves as from an empty cache,
unless it has an entry of its own and shares its name; and then it does not,
where the entry is not evicted on the way. -/
theorem path_cache_transparent (hR : ∀ w q r w', R w q r w' → treeRel pj mayFail w q r w')
    (hstill : ∀ w q r w', R w q r w' → w' = w) (hrounds : 1 ≤ rounds)
    (hroot : rootFolderFor auth = w.rootAlias) (hnames : w.Segmented)
    {past : List (PathOp × Except Exn Unit)} (hpast : ∀ x ∈ past, x.1.PathPrefixed)
    (hhistory : History R (PathOp.body signed pj rounds auth) {} w past c w')
    {segments : List Str} (hsegs : ∀ s ∈ segments, Segment s)
    {out out₀ : Except Exn (Option (DriveFileMeta × Bool))} {w₀ w₁ : World}
    (hrun : Reaches (treeRel pj fun _ => False)
      (tryResolvePath pj rounds thread auth (.path segments) c) w' (.ret (out, c₁)) w₁)
    (hempty : Reaches (treeRel pj fun _ => False)
      (tryResolvePath pj rounds thread auth (.path segments) {}) w (.ret (out₀, c₀)) w₀) :
    (¬(c.Holds auth segments ∧ w.Shared segments) → resolvedId out = resolvedId out₀) ∧
      (c.Holds auth segments → w.Shared segments → c.Room (segments.length - 1) →
        resolvedId out ≠ resolvedId out₀) := by
  obtain ⟨rfl, hcache⟩ := mirrors_of_history hR hstill hrounds hroot hnames hpast hhistory
  have hagrees := agrees_of_mirrors hcache
  have htrue : ∀ w q r w', treeRel pj (fun _ => False) w q r w' →
      treeRel pj (fun _ => False) w q r w' := fun _ _ _ _ h => h
  by_cases hnil : segments = []
  · subst hnil
    have hroots := Code.wp_returns (Code.wp_of_total (wp_resolvedId_root htrue hroot)) hrun
    have hroots₀ := Code.wp_returns (Code.wp_of_total (wp_resolvedId_root htrue hroot)) hempty
    refine ⟨fun _ => hroots.trans hroots₀.symm, ?_⟩
    intro _ ⟨init, s, _, hsplit, _⟩
    simp at hsplit
  · have hplain := Code.wp_returns (Code.wp_of_total (wp_resolvedId htrue hrounds hroot hnil hsegs
      cacheInv_empty fun h => Holds.not_empty h.1)) hempty
    refine ⟨?_, ?_⟩
    · intro halone
      rw [hplain]
      exact Code.wp_returns (Code.wp_of_total
        (wp_resolvedId htrue hrounds hroot hnil hsegs hagrees halone)) hrun
    · intro hown hshared hroom
      obtain ⟨e, herror⟩ := hshared.plain (GDriveUri.path segments).toString
      rw [herror] at hplain
      obtain ⟨hit, rfl⟩ := Code.wp_returns (Code.wp_of_total
        (wp_tryResolvePath_held htrue hrounds hroot hsegs hagrees hown hshared hroom)) hrun
      rw [hplain]
      exact nofun

end Transparency

-- =========================================================== a folder and a file

section Beside

/-- The file `d` and the folder `d` with the file `x`. -/
def besideTree : World :=
  treeOf
    [{ file := { id := str "F", name := str "d" }, parent := str "R" },
      { file := { id := str "D", name := str "d", mimeType := kFolderMimeType },
        parent := str "R" },
      { file := { id := str "X", name := str "x" }, parent := str "D" }]
    (fun id => if id = str "R" then 0 else if id = str "X" then 2 else 1) (by decide +kernel)

def besideJson : Picojson :=
  tableJson
    [listingJson [{ id := str "D", name := str "d", mimeType := kFolderMimeType }],
      listingJson [{ id := str "X", name := str "x" }],
      listingJson [{ id := str "F", name := str "d" },
        { id := str "D", name := str "d", mimeType := kFolderMimeType }]]

theorem besideTree_segmented : besideTree.Segmented := by
  have hall : ∀ n ∈ besideTree.nodes, n.file.name ≠ [] ∧ 47 ∉ n.file.name := by decide +kernel
  intro n hn _
  exact ⟨(hall n hn).1, (hall n hn).2⟩

/-- The Drive that serves a tree and changes nothing. -/
def steadyRel (pj : Picojson) : Rel Client World := fun w q r w' => r = served pj w q ∧ w' = w

theorem steadyRel_truthful (pj : Picojson) (w : World) (q : CallReq) (r : Except Exn DriveResponse)
    (w' : World) (h : steadyRel pj w q r w') : treeRel pj (fun _ => True) w q r w' := by
  obtain ⟨rfl, rfl⟩ := h
  exact served_truthful pj w' q

theorem reaches_steady {α : Type} (pj : Picojson) (w : World) (p : Prog Client α) :
    Reaches (steadyRel pj) p w (servedRun pj w p) w := by
  have hrun := Prog.play_reaches (R := steadyRel pj) (f := fun w q => (served pj w q, w))
    (fun _ _ => ⟨rfl, rfl⟩) p w
  rwa [hrun.still fun _ _ _ _ h => h.2] at hrun

def besideAuth : AuthContext := { identity := str "me" }

/-- `d/x` resolved, from an empty cache. -/
def besideHistory : Prog Client (Except Exn Unit × PathCache) :=
  servedRun besideJson besideTree
    (PathOp.body true besideJson 1 besideAuth (.resolve 0 (str "gdrive://d/x")) {})

/-- The path cache then. -/
def besideCache : PathCache := ((ended besideHistory).map (·.2)).getD {}

/-- The paths resolved from a cache. -/
def besideResolve (segments : List Str) (c : PathCache) :
    Prog Client (Except Exn (Option (DriveFileMeta × Bool)) × PathCache) :=
  tryResolvePath besideJson 1 0 besideAuth (.path segments) c

theorem besideCache_history : ∃ out, History (steadyRel besideJson)
    (PathOp.body true besideJson 1 besideAuth) {} besideTree
    [(.resolve 0 (str "gdrive://d/x"), out)] besideCache besideTree := by
  obtain ⟨⟨out, c⟩, hend⟩ : ∃ r, ended besideHistory = some r :=
    Option.isSome_iff_exists.mp (by decide +kernel)
  have hcache : besideCache = c := by
    unfold besideCache
    rw [hend]
    rfl
  have hrun := reaches_steady besideJson besideTree
    (PathOp.body true besideJson 1 besideAuth (.resolve 0 (str "gdrive://d/x")) {})
  rw [show servedRun _ _ _ = _ from eq_ret_of_ended hend, ← hcache] at hrun
  exact ⟨out, .snoc .nil hrun⟩

/-- What a resolution comes to, where every answer arrives. -/
theorem reaches_besideResolve (segments : List Str) (c : PathCache) (found : Except Exn (Option Str))
    (hheard : heard besideJson besideTree (besideResolve segments c) = true)
    (hend : (ended (servedRun besideJson besideTree (besideResolve segments c))).map
      (fun r => resolvedId r.1) = some found) :
    ∃ out c', resolvedId out = found ∧ Reaches (treeRel besideJson fun _ => False)
      (besideResolve segments c) besideTree (.ret (out, c')) besideTree := by
  obtain ⟨⟨out, c'⟩, hret, hfound⟩ := Option.map_eq_some_iff.mp hend
  have hrun : Reaches (treeRel besideJson fun _ => False) (besideResolve segments c) besideTree
      (servedRun besideJson besideTree (besideResolve segments c)) besideTree := reaches_heard hheard
  rw [eq_ret_of_ended hret] at hrun
  exact ⟨out, c', hfound, hrun⟩

/-- The folder's entry, which the way to `d/x` left, answers for `d`; from an
empty cache `d` is ambiguous. -/
theorem folder_entry_hides_file : ∃ out c out' out₀ c' c₀,
    History (steadyRel besideJson) (PathOp.body true besideJson 1 besideAuth) {} besideTree
      [(.resolve 0 (str "gdrive://d/x"), out)] c besideTree ∧
    Reaches (treeRel besideJson fun _ => False) (besideResolve [str "d"] c) besideTree
      (.ret (out', c')) besideTree ∧
    Reaches (treeRel besideJson fun _ => False) (besideResolve [str "d"] {}) besideTree
      (.ret (out₀, c₀)) besideTree ∧ resolvedId out' ≠ resolvedId out₀ := by
  obtain ⟨out, hhistory⟩ := besideCache_history
  obtain ⟨out', c', hfound, hrun⟩ := reaches_besideResolve [str "d"] besideCache
    (.ok (some (str "D"))) (by decide +kernel) (by decide +kernel)
  obtain ⟨out₀, c₀, hfound₀, hempty⟩ := reaches_besideResolve [str "d"] {}
    (.error (ambiguousError (besideTree.named (str "R") (str "d")) (str "gdrive://d")))
    (by decide +kernel) (by decide +kernel)
  refine ⟨out, besideCache, out', out₀, c', c₀, hhistory, hrun, hempty, ?_⟩
  rw [hfound, hfound₀]
  exact nofun

/-- What lies in the folder resolves as from an empty cache. -/
theorem path_cache_transparent_beneath : ∃ out c out' out₀ c' c₀,
    History (steadyRel besideJson) (PathOp.body true besideJson 1 besideAuth) {} besideTree
      [(.resolve 0 (str "gdrive://d/x"), out)] c besideTree ∧
    Reaches (treeRel besideJson fun _ => False) (besideResolve [str "d", str "x"] c) besideTree
      (.ret (out', c')) besideTree ∧
    Reaches (treeRel besideJson fun _ => False) (besideResolve [str "d", str "x"] {}) besideTree
      (.ret (out₀, c₀)) besideTree ∧ resolvedId out' = resolvedId out₀ := by
  obtain ⟨out, hhistory⟩ := besideCache_history
  obtain ⟨out', c', -, hrun⟩ := reaches_besideResolve [str "d", str "x"] besideCache
    (.ok (some (str "X"))) (by decide +kernel) (by decide +kernel)
  obtain ⟨out₀, c₀, -, hempty⟩ := reaches_besideResolve [str "d", str "x"] {}
    (.ok (some (str "X"))) (by decide +kernel) (by decide +kernel)
  refine ⟨out, besideCache, out', out₀, c', c₀, hhistory, hrun, hempty, ?_⟩
  have hsegs : ∀ s ∈ [str "d", str "x"], Segment s := by
    have hall : ∀ s ∈ [str "d", str "x"], s ≠ [] ∧ 47 ∉ s := by decide
    intro s hs
    exact ⟨(hall s hs).1, (hall s hs).2⟩
  have hpast : ∀ x ∈ [(PathOp.resolve 0 (str "gdrive://d/x"), out)], x.1.PathPrefixed := by
    intro x hx
    rw [List.mem_singleton.mp hx]
    trivial
  refine (path_cache_transparent (steadyRel_truthful besideJson) (fun _ _ _ _ h => h.2) le_rfl rfl
    besideTree_segmented hpast hhistory hsegs hrun hempty).1 ?_
  intro ⟨_, init, s, p, hsplit, hp, hmany⟩
  -- Nothing else is called `x`.
  have hconcat : [str "d"] ++ [str "x"] = init ++ [s] := hsplit
  obtain ⟨rfl, hs⟩ := List.append_inj' hconcat rfl
  cases hs
  have hfolder : besideTree.folderAt [str "d"] = some (str "D") := by decide +kernel
  rw [hfolder] at hp
  cases hp
  exact absurd hmany (by decide +kernel)

end Beside

end GDrive
