/-
What the paths lead to after the tree has changed.

# The general fact

A path still leads to the same object where every object on the way to it is
still in its place (`World.Stays`) and no name has become ambiguous
(`World.Names.kept`). So what the path cache says stays true of the paths
that a change leaves alone.

# The changes

Each change is described by the objects that stay: all of them where a file
is created under a free name or overwritten under its own; all but the
source, the object it replaces and what lies beneath them where something
moves. What lies beneath an object has the object's path at the head of its
own (`World.prefix_of_beneath`), which is what `InvalidatePrefix` goes by.
-/
import GDrive.Fs.Invalidation
import GDrive.Fs.Move
import GDrive.Fs.NewFolder

namespace GDrive

open Interaction Naming

section Survival

variable {w w' w₁ : World} {auth : AuthContext} {c : PathCache}

-- ============================================================ one in each place

/-- Unique names, by the nodes: two of one place and name are one. -/
theorem World.uniqueNames_iff : w.UniqueNames ↔
    ∀ n ∈ w.nodes, ∀ m ∈ w.nodes, n.trashed = false → m.trashed = false → n.parent = m.parent →
      n.file.name = m.file.name → n = m := by
  constructor
  · intro hw n hn m hm hntrash hmtrash hparent hname
    have hmem : n.file ∈ w.named n.parent n.file.name :=
      mem_named.mpr ⟨mem_children.mpr ⟨n, hn, rfl, hntrash, rfl⟩, rfl⟩
    have hmem' : m.file ∈ w.named n.parent n.file.name :=
      mem_named.mpr ⟨mem_children.mpr ⟨m, hm, rfl, hmtrash, hparent.symm⟩, hname.symm⟩
    rw [hw.named hmem, List.mem_singleton] at hmem'
    exact node_unique hn hm (congrArg DriveFileMeta.id hmem').symm
  · intro h p s
    have hnodup : (w.nodes.filter fun n => !n.trashed && n.parent = p).Nodup :=
      (w.unique_ids.of_map _).filter _
    have hfiles : (w.children p).Nodup := by
      refine (List.nodup_map_iff_inj_on hnodup).mpr ?_
      intro n hn m hm hfile
      exact node_unique (List.mem_of_mem_filter hn) (List.mem_of_mem_filter hm)
        (congrArg DriveFileMeta.id hfile)
    have hnamed : (w.named p s).Nodup := hfiles.filter _
    match hlist : w.named p s with
    | [] => simp
    | [_] => simp
    | f :: g :: rest =>
        rw [hlist] at hnamed
        have hone : ∀ x ∈ w.named p s, ∀ y ∈ w.named p s, x = y := by
          intro x hx y hy
          obtain ⟨hxchild, hxname⟩ := mem_named.mp hx
          obtain ⟨hychild, hyname⟩ := mem_named.mp hy
          obtain ⟨n, hn, rfl, hntrash, hnparent⟩ := mem_children.mp hxchild
          obtain ⟨m, hm, rfl, hmtrash, hmparent⟩ := mem_children.mp hychild
          rw [h n hn m hm hntrash hmtrash (hnparent.trans hmparent.symm)
            (hxname.trans hyname.symm)]
        rw [hlist] at hone
        have hsame := hone f (by simp) g (by simp)
        rw [hsame] at hnamed
        simp at hnamed

/-- No name becomes ambiguous where every object was there before, in its
place and under its name. -/
theorem World.UniqueNames.of_sources (hw : w.UniqueNames)
    (hsource : ∀ n' ∈ w'.nodes, n'.trashed = false → ∃ n ∈ w.nodes, n.trashed = false ∧
      n.file.id = n'.file.id ∧ n.parent = n'.parent ∧ n.file.name = n'.file.name) :
    w'.UniqueNames := by
  refine World.uniqueNames_iff.mpr ?_
  intro n' hn' m' hm' hntrash hmtrash hparent hname
  obtain ⟨n, hn, htrash, hid, hnparent, hnname⟩ := hsource n' hn' hntrash
  obtain ⟨m, hm, htrash', hid', hmparent, hmname⟩ := hsource m' hm' hmtrash
  have hsame := World.uniqueNames_iff.mp hw n hn m hm htrash htrash'
    (hnparent.trans (hparent.trans hmparent.symm)) (hnname.trans (hname.trans hmname.symm))
  refine node_unique hn' hm' ?_
  rw [← hid, ← hid', hsame]

-- ================================================================ what survives

/-- The object of a node is in its place in `w'`, under its name. -/
def World.Stays (w' : World) (n : Node) : Prop :=
  ∃ n' ∈ w'.nodes, n'.parent = n.parent ∧ n'.trashed = false ∧ n'.file.name = n.file.name ∧
    SameObject n.file n'.file

theorem World.Stays.of_mem {n : Node} (h : n ∈ w'.nodes) (htrash : n.trashed = false) :
    w'.Stays n :=
  ⟨n, h, rfl, htrash, rfl, rfl, rfl⟩

/-- What stays is all that its name finds. -/
theorem World.Stays.named {n : Node} (h : w'.Stays n) (hw' : w'.UniqueNames) :
    ∃ file, w'.named n.parent n.file.name = [file] ∧ SameObject n.file file := by
  obtain ⟨n', hn', hparent, htrash, hname, hsame⟩ := h
  refine ⟨n'.file, hw'.named ?_, hsame⟩
  exact mem_named.mpr ⟨mem_children.mpr ⟨n', hn', rfl, htrash, hparent⟩, hname⟩

theorem World.Stays.step {n : Node} (h : w'.Stays n) (hw' : w'.UniqueNames)
    (hfolder : n.file.isFolder = true) : w'.step n.parent n.file.name = some n.file.id := by
  obtain ⟨file, hfile, hid, hkind⟩ := h.named hw'
  refine World.step_eq_some.mpr ⟨file, ?_, hid.symm⟩
  unfold World.foldersNamed
  rw [hfile, List.filter_cons_of_pos (hkind.symm.trans hfolder)]
  rfl

/-- The way to a folder is kept where everything on it stays. -/
theorem World.folderAt_kept (hroot : w'.rootId = w.rootId) (hw' : w'.UniqueNames)
    {segments : List Str} {p : Str} (h : w.folderAt segments = some p)
    (hstays : ∀ n ∈ w.nodes, n.trashed = false → ∀ init, init ++ [n.file.name] <+: segments →
      w.folderAt init = some n.parent → w'.Stays n) : w'.folderAt segments = some p := by
  unfold World.folderAt
  rw [hroot]
  refine walk_of_agree h ?_
  intro init s q r hpre hinit hstep
  obtain ⟨n, hn, rfl, rfl, rfl, htrash, hfolder⟩ := World.node_of_step hstep
  exact (hstays n hn htrash init hpre hinit).step hw' hfolder

/-- A path leads where it led, where everything on it stays. -/
theorem World.Names.kept (hroot : w'.rootId = w.rootId) (hw' : w'.UniqueNames)
    {segments : List Str} {file : DriveFileMeta} (h : w.Names segments file)
    (hstays : ∀ n ∈ w.nodes, n.trashed = false → ∀ init, init ++ [n.file.name] <+: segments →
      w.folderAt init = some n.parent → w'.Stays n) : w'.Names segments file := by
  obtain ⟨init, s, p, rfl, hinit, ⟨f, hf, hsame⟩, -⟩ := h
  obtain ⟨hchild, rfl⟩ := mem_named.mp hf
  obtain ⟨n, hn, rfl, htrash, rfl⟩ := mem_children.mp hchild
  have hinit' : w'.folderAt init = some n.parent := by
    refine World.folderAt_kept hroot hw' hinit ?_
    intro m hm hmtrash done hpre hdone
    exact hstays m hm hmtrash done (hpre.trans (List.prefix_append _ _)) hdone
  obtain ⟨file', hfile', hid, hkind⟩ :=
    (hstays n hn htrash init (List.prefix_refl _) hinit).named hw'
  refine ⟨init, n.file.name, n.parent, rfl, hinit', ⟨file', ?_, ?_, ?_⟩, ?_⟩
  · rw [hfile']
    exact List.mem_singleton.mpr rfl
  · exact hid.symm.trans hsame.1
  · exact hkind.symm.trans hsame.2
  · by_cases hfolder : file.isFolder = true
    · rw [if_pos hfolder, ← hsame.1]
      exact (hstays n hn htrash init (List.prefix_refl _) hinit).step hw' (hsame.2.trans hfolder)
    · rw [if_neg hfolder]
      unfold World.foldersNamed
      rw [hfile', List.filter_cons_of_neg]
      · rfl
      · rw [← hkind, hsame.2]
        exact hfolder

/-- A cache whose entries still lead where they led. -/
theorem CacheInv.survives (h : Agrees w auth c) (hroot : w'.rootId = w.rootId)
    (halias : w'.rootAlias = w.rootAlias)
    (hnames : ∀ {segments e}, (∀ s ∈ segments, Segment s) →
      c.entries.lookup (pathKey auth segments) = some e → w.Names segments e.file →
      w'.Names segments e.file) : Agrees w' auth c := by
  refine ⟨fun hsegs he => hnames hsegs he (h.names hsegs he), h.stamps, ?_⟩
  intro id file hfile
  show file.id = w'.deref id
  unfold World.deref
  rw [hroot, halias]
  exact h.looked hfile

/-- A cache that agrees with the tree, in which no name is ambiguous; the
root is known by its alias. -/
structure Coherent (auth : AuthContext) (c : PathCache) (w : World) : Prop where
  unique : w.UniqueNames
  agrees : Agrees w auth c
  root : rootFolderFor auth = w.rootAlias

theorem Coherent.same_cache {c' : PathCache} (h : Coherent auth c w) (h' : Agrees w auth c') :
    Coherent auth c' w :=
  ⟨h.unique, h', h.root⟩

/-- Where everything stays, so does the coherence. -/
theorem Coherent.stays (h : Coherent auth c w) (hroot : w'.rootId = w.rootId)
    (halias : w'.rootAlias = w.rootAlias) (hw' : w'.UniqueNames)
    (hstays : ∀ n ∈ w.nodes, n.trashed = false → w'.Stays n) : Coherent auth c w' := by
  refine ⟨hw', h.agrees.survives hroot halias ?_, h.root.trans halias.symm⟩
  intro segments e _ _ hnames
  exact hnames.kept hroot hw' fun n hn htrash _ _ _ => hstays n hn htrash

-- ==================================================================== uploads

theorem Coherent.same_nodes (h : Coherent auth c w) (hw' : w.Becomes w.nodes w') :
    Coherent auth c w' := by
  refine h.stays hw'.rootId hw'.rootAlias ?_ ?_
  · refine h.unique.of_sources ?_
    intro n hn htrash
    rw [hw'.nodes] at hn
    exact ⟨n, hn, htrash, rfl, rfl, rfl⟩
  · intro n hn htrash
    refine .of_mem ?_ htrash
    rw [hw'.nodes]
    exact hn

/-- A new file or folder whose name is free. -/
theorem Coherent.creates (h : Coherent auth c w) {p : Str} {file : DriveFileMeta}
    (hcreates : w.Creates p file w') (hfree : w.named (w.deref p) file.name = []) :
    Coherent auth c w' := by
  have hold : ∀ n ∈ w.nodes, n.trashed = false → n.parent = w.deref p → n.file.name ≠ file.name := by
    intro n hn htrash hparent hname
    have hmem : n.file ∈ w.named (w.deref p) file.name :=
      World.mem_named.mpr ⟨World.mem_children.mpr ⟨n, hn, rfl, htrash, hparent⟩, hname⟩
    rw [hfree] at hmem
    cases hmem
  refine h.stays hcreates.2.rootId hcreates.2.rootAlias ?_ ?_
  · refine World.uniqueNames_iff.mpr ?_
    intro n hn m hm htrash htrash' hparent hname
    rw [hcreates.2.nodes, List.mem_append, List.mem_singleton] at hn hm
    rcases hn with hn | rfl
    · rcases hm with hm | rfl
      · exact World.uniqueNames_iff.mp h.unique n hn m hm htrash htrash' hparent hname
      · exact absurd hname (hold n hn htrash hparent)
    · rcases hm with hm | rfl
      · exact absurd hname.symm (hold m hm htrash' hparent.symm)
      · rfl
  · intro n hn htrash
    refine .of_mem ?_ htrash
    rw [hcreates.2.nodes]
    exact List.mem_append_left _ hn

/-- Where an upload may publish: under a free name, or as the content of a
file that keeps its name. -/
def World.Admits (w : World) (u : OpenUpload) : Prop :=
  if u.fileId.isEmpty then w.named (w.deref u.parentId) u.name = []
  else ∀ n ∈ w.nodes, n.file.id = u.fileId → n.trashed = false →
    renamed n.file.name u.name = n.file.name

theorem Coherent.publishes (h : Coherent auth c w) {u : OpenUpload} {size : Nat}
    {file : DriveFileMeta} (hp : w.Publishes u false size file w') (hadmits : w.Admits u) :
    Coherent auth c w' := by
  obtain ⟨hkind, -, -, hplace⟩ := hp
  unfold World.Admits at hadmits
  split at hplace
  · rename_i hnew
    rw [if_pos hnew] at hadmits
    obtain ⟨hname, hcreates⟩ := hplace
    rw [← hname] at hadmits
    exact h.creates hcreates hadmits
  · rename_i hold
    rw [if_neg hold] at hadmits
    obtain ⟨hid, hover, -, hbecomes⟩ := hplace
    -- What is overwritten is in its place.
    have hsame : ∀ n ∈ w.nodes, n.trashed = false → n.file.id = u.fileId →
        file.name = n.file.name ∧ n.file.isFolder = false := by
      intro n hn htrash hn'
      obtain ⟨hfile, hname⟩ := hover n hn hn'
      exact ⟨hname.trans (hadmits n hn hn' htrash), hfile⟩
    refine h.stays hbecomes.rootId hbecomes.rootAlias ?_ ?_
    · refine h.unique.of_sources ?_
      intro n' hn' htrash
      rw [hbecomes.nodes, List.mem_map] at hn'
      obtain ⟨n, hn, rfl⟩ := hn'
      by_cases heq : n.file.id = u.fileId
      · rw [if_pos heq] at htrash ⊢
        exact ⟨n, hn, htrash, heq.trans hid.symm, rfl, (hsame n hn htrash heq).1.symm⟩
      · rw [if_neg heq] at htrash ⊢
        exact ⟨n, hn, htrash, rfl, rfl, rfl⟩
    · intro n hn htrash
      refine ⟨if n.file.id = u.fileId then { n with file } else n, ?_, ?_⟩
      · rw [hbecomes.nodes]
        exact List.mem_map_of_mem hn
      · split
        · rename_i heq
          obtain ⟨hname, hfile⟩ := hsame n hn htrash heq
          exact ⟨rfl, htrash, hname, heq.trans hid.symm, hfile.trans hkind.symm⟩
        · exact ⟨rfl, htrash, rfl, rfl, rfl⟩

-- ============================================================= paths beneath it

/-- What lies at or beneath an object has the object's path at the head of
its own. -/
theorem World.prefix_of_beneath {n : Node} (hn : n ∈ w.nodes) {init : List Str}
    (hinit : w.folderAt init = some n.parent) {q : Str} (hq : Beneath w.LiesIn n.file.id q)
    {path : List Str} (hpath : w.folderAt path = some q) : init ++ [n.file.name] <+: path := by
  obtain ⟨rank, hrank⟩ := w.acyclic
  have hdown : rank w.rootId < rank n.file.id := by
    have hle := rank_walk hrank hinit
    have hlt := hrank n hn
    omega
  -- The root is not beneath it.
  have hnotRoot : ∀ {q}, Beneath w.LiesIn n.file.id q → q ≠ w.rootId := by
    intro q hq hroot
    have hle := rank_beneath hrank hq
    rw [hroot] at hle
    omega
  induction hq generalizing path with
  | self =>
      obtain rfl | ⟨above, s, rfl⟩ := List.eq_nil_or_concat' path
      · exact absurd (Option.some.inj hpath).symm (hnotRoot .self)
      · obtain ⟨p, hp, hstep⟩ := walk_concat_eq_some.mp hpath
        obtain ⟨m, hm, hid, rfl, rfl, -, -⟩ := World.node_of_step hstep
        obtain rfl := node_unique hm hn hid
        rw [walk_injective w.traceable hinit hp]
  | @inside r q hr hq ih =>
      obtain rfl | ⟨above, s, rfl⟩ := List.eq_nil_or_concat' path
      · exact absurd (Option.some.inj hpath).symm (hnotRoot (hr.inside hq))
      · obtain ⟨p, hp, hstep⟩ := walk_concat_eq_some.mp hpath
        obtain ⟨m, hm, hid, -, rfl, -, -⟩ := World.node_of_step hstep
        obtain ⟨m', hm', hid', rfl⟩ := hq
        obtain rfl := node_unique hm hm' (hid.trans hid'.symm)
        exact (ih hp).trans (List.prefix_append _ _)

/-- The same of a node, file or folder. -/
theorem World.prefix_of_node_beneath {n m : Node} (hn : n ∈ w.nodes) {init done : List Str}
    (hinit : w.folderAt init = some n.parent) (hm : m ∈ w.nodes)
    (hdone : w.folderAt done = some m.parent) (hbeneath : Beneath w.LiesIn n.file.id m.file.id) :
    init ++ [n.file.name] <+: done ++ [m.file.name] := by
  generalize hid : m.file.id = q at hbeneath
  cases hbeneath with
  | self =>
      obtain rfl := node_unique hm hn hid
      rw [walk_injective w.traceable hinit hdone]
  | inside hr hq =>
      obtain ⟨m', hm', hid', rfl⟩ := hq
      obtain rfl := node_unique hm hm' (hid.trans hid'.symm)
      exact (World.prefix_of_beneath hn hinit hr hdone).trans (List.prefix_append _ _)

-- ============================================================ what is dropped

/-- An entry that an invalidation leaves was there, and is not beneath the
path. -/
theorem lookup_dropped {path segments : List Str} (hpath : ∀ s ∈ path, Segment s)
    (hsegs : ∀ s ∈ segments, Segment s) {e : PathEntry}
    (h : (c.invalidatePrefix ⟨auth, joinPath path⟩).entries.lookup (pathKey auth segments) = some e) :
    c.entries.lookup (pathKey auth segments) = some e ∧ (path ≠ [] → ¬path <+: segments) := by
  rw [PathCache.lookup_invalidatePrefix] at h
  split at h
  · cases h
  · rename_i hout
    refine ⟨h, ?_⟩
    intro hne hpre
    refine hout ?_
    rw [(isBeneath_pathKey auth hpath hsegs).mpr (.inr ⟨hne, hpre⟩), Bool.and_true,
      List.isPrefixOf_iff_prefix]
    exact List.prefix_append _ _

/-- An object that a path leads to has the path's place. -/
theorem World.LeadsTo.node {path : List Str} {x : Str} (h : w.LeadsTo (.path path) x)
    (hne : path ≠ []) : ∃ n ∈ w.nodes, n.file.id = x ∧
      ∃ init, path = init ++ [n.file.name] ∧ w.folderAt init = some n.parent := by
  obtain ⟨s, rest, rfl⟩ := List.exists_cons_of_ne_nil hne
  obtain ⟨file, ⟨init, last, p, hsplit, hinit, ⟨f, hf, hsame⟩, -⟩, rfl⟩ := h
  obtain ⟨hchild, rfl⟩ := mem_named.mp hf
  obtain ⟨n, hn, rfl, -, rfl⟩ := mem_children.mp hchild
  exact ⟨n, hn, hsame.1, init, hsplit, hinit⟩

/-- And no other one, if it has a place at all. -/
theorem World.LeadsTo.place {path : List Str} {x : Str} (h : w.LeadsTo (.path path) x) {n : Node}
    (hn : n ∈ w.nodes) (hid : n.file.id = x) {init : List Str}
    (hinit : w.folderAt init = some n.parent) : path ≠ [] ∧ path = init ++ [n.file.name] := by
  by_cases hne : path = []
  · -- The root lies in no folder of its own.
    subst hne
    obtain rfl : x = w.rootId := h
    obtain ⟨rank, hrank⟩ := w.acyclic
    have hle := rank_walk hrank hinit
    have hlt := hrank n hn
    rw [hid] at hlt
    omega
  · obtain ⟨m, hm, hmid, done, hsplit, hdone⟩ := h.node hne
    obtain rfl := node_unique hn hm (hid.trans hmid.symm)
    rw [walk_injective w.traceable hinit hdone]
    exact ⟨hne, hsplit⟩

-- ===================================================================== removals

/-- What is there after a removal was there before, and not beneath it. -/
theorem World.Removes.live_mem {x : Str} {permanent : Bool} (h : w₁.Removes x permanent w')
    {n : Node} (hn : n ∈ w'.nodes) (htrash : n.trashed = false) :
    n ∈ w₁.nodes ∧ ¬Beneath w₁.LiesIn x n.file.id := by
  obtain ⟨-, gone, hgone, hbecomes⟩ := h
  rw [← hgone]
  rw [hbecomes.nodes] at hn
  cases permanent with
  | true =>
      rw [if_pos rfl, List.mem_filter] at hn
      exact ⟨hn.1, by simpa using hn.2⟩
  | false =>
      rw [if_neg Bool.false_ne_true, List.mem_map] at hn
      obtain ⟨m, hm, rfl⟩ := hn
      by_cases hg : gone m.file.id = true
      · rw [if_pos hg] at htrash
        cases htrash
      · rw [if_neg hg]
        exact ⟨hm, hg⟩

theorem World.Removes.same_root {x : Str} {permanent : Bool} (h : w₁.Removes x permanent w') :
    w'.rootId = w₁.rootId ∧ w'.rootAlias = w₁.rootAlias := by
  obtain ⟨_, _, _, hbecomes⟩ := h
  exact ⟨hbecomes.rootId, hbecomes.rootAlias⟩

/-- A removal by its path, with what the path cache drops. -/
theorem Coherent.removes (h : Coherent auth c w) {x : Str} {permanent : Bool}
    (hremove : w.Removes x permanent w') {path : List Str} (hpath : ∀ s ∈ path, Segment s)
    (hne : path ≠ []) (hleads : w.LeadsTo (.path path) x) :
    Coherent auth (c.invalidatePrefix ⟨auth, joinPath path⟩) w' := by
  obtain ⟨hroot, halias⟩ := hremove.same_root
  obtain ⟨m, hm, rfl, init, hsplit, hinit⟩ := hleads.node hne
  have hw' : w'.UniqueNames := by
    refine h.unique.of_sources ?_
    intro n hn htrash
    exact ⟨n, (hremove.live_mem hn htrash).1, htrash, rfl, rfl, rfl⟩
  refine ⟨hw', (h.agrees.invalidatePrefix _).survives hroot halias ?_, h.root.trans halias.symm⟩
  intro segments e hsegs he hnames
  obtain ⟨-, hout⟩ := lookup_dropped hpath hsegs he
  refine hnames.kept hroot hw' ?_
  intro n hn htrash done hpre hdone
  refine .of_mem (hremove.mem hn ?_) htrash
  intro hbeneath
  have hunder := World.prefix_of_node_beneath hm hinit hn hdone hbeneath
  rw [← hsplit] at hunder
  exact hout hne (hunder.trans hpre)

-- ======================================================================== moves

/-- `src` comes to `p` under a name, and what had the name there goes. -/
def World.MovesOver (w : World) (src p name : Str) (permanent : Bool) (w' : World) : Prop :=
  ∃ w₁, w.Moves src p name w₁ ∧
    (w.occupants src p name = [] ∧ w' = w₁ ∨
      ∃ y, w.occupants src p name = [y] ∧ w₁.Removes y.id permanent w')

section Moves

variable {src p name : Str} {permanent : Bool}

theorem World.Under.beneath {x q : Str} (h : w.Under src x q) : Beneath w.LiesIn x q := by
  induction h with
  | self => exact .self
  | inside _ hq ih => exact ih.inside hq.2

theorem World.MovesOver.same_root (h : w.MovesOver src p name permanent w') :
    w'.rootId = w.rootId ∧ w'.rootAlias = w.rootAlias := by
  obtain ⟨w₁, hmove, ⟨-, rfl⟩ | ⟨y, -, hremove⟩⟩ := h
  · exact ⟨hmove.2.rootId, hmove.2.rootAlias⟩
  · obtain ⟨hid, halias⟩ := hremove.same_root
    exact ⟨hid.trans hmove.2.rootId, halias.trans hmove.2.rootAlias⟩

/-- What is not moved and not beneath what is replaced stays. -/
theorem World.MovesOver.stays (h : w.MovesOver src p name permanent w') (hp : w.deref p = p)
    {n : Node} (hn : n ∈ w.nodes) (htrash : n.trashed = false) (hne : n.file.id ≠ src)
    (hout : ∀ y ∈ w.occupants src p name, ¬Beneath w.LiesIn y.id n.file.id) : w'.Stays n := by
  obtain ⟨w₁, hmove, hends⟩ := h
  have hn₁ : n ∈ w₁.nodes := hmove.mem.mpr ⟨n, hn, if_neg hne⟩
  rcases hends with ⟨-, rfl⟩ | ⟨y, hy, hremove⟩
  · exact .of_mem hn₁ htrash
  · refine .of_mem (hremove.mem hn₁ ?_) htrash
    obtain ⟨hlies, hys⟩ := World.Moves.liesIn_occupant hp hy
    rw [hmove.beneath hlies hys]
    intro hunder
    exact hout y (by rw [hy]; exact List.mem_singleton.mpr rfl) hunder.beneath

/-- What is there after a move was there before; of what had the name, only
the source is left. -/
theorem World.MovesOver.source (h : w.MovesOver src p name permanent w') {n' : Node}
    (hn' : n' ∈ w'.nodes) (htrash : n'.trashed = false) :
    ∃ n ∈ w.nodes, n.trashed = false ∧ movedNode w src p name n = n' ∧
      n.file ∉ w.occupants src p name := by
  obtain ⟨w₁, hmove, hends⟩ := h
  have hmem : n' ∈ w₁.nodes := by
    rcases hends with ⟨-, rfl⟩ | ⟨y, -, hremove⟩
    · exact hn'
    · exact (hremove.live_mem hn' htrash).1
  obtain ⟨n, hn, rfl⟩ := hmove.mem.mp hmem
  refine ⟨n, hn, (movedNode_same n).2.1.symm.trans htrash, rfl, ?_⟩
  intro hocc
  rcases hends with ⟨hnone, rfl⟩ | ⟨y, hy, hremove⟩
  · rw [hnone] at hocc
    cases hocc
  · rw [hy, List.mem_singleton] at hocc
    refine (hremove.live_mem hn' htrash).2 ?_
    rw [(movedNode_same n).1, hocc]
    exact .self

theorem World.MovesOver.uniqueNames (h : w.MovesOver src p name permanent w')
    (hw : w.UniqueNames) (hp : w.deref p = p) (hname : name ≠ []) : w'.UniqueNames := by
  -- Nothing else is left with the name.
  have hsole : ∀ n ∈ w.nodes, n.trashed = false → n.file ∉ w.occupants src p name →
      n.file.id ≠ src → n.parent = p → n.file.name ≠ name := by
    intro n hn htrash hocc hne hparent hnamed
    exact hocc (mem_occupants.mpr
      ⟨mem_named.mpr ⟨mem_children.mpr ⟨n, hn, rfl, htrash, hparent⟩, hnamed⟩, hne⟩)
  have hmoved : ∀ n : Node, n.file.id = src → (movedNode w src p name n).parent = p ∧
      (movedNode w src p name n).file.name = name := by
    intro n hid
    unfold movedNode renamed
    rw [if_pos hid, if_neg (by simpa using hname)]
    exact ⟨hp, rfl⟩
  have hunmoved : ∀ n : Node, n.file.id ≠ src → movedNode w src p name n = n :=
    fun n hne => if_neg hne
  refine World.uniqueNames_iff.mpr ?_
  intro n' hn' m' hm' hntrash hmtrash hparent hnames
  obtain ⟨n, hn, htrash, rfl, hnocc⟩ := h.source hn' hntrash
  obtain ⟨m, hm, htrash', rfl, hmocc⟩ := h.source hm' hmtrash
  by_cases hnsrc : n.file.id = src
  · obtain ⟨hnparent, hnname⟩ := hmoved n hnsrc
    by_cases hmsrc : m.file.id = src
    · rw [node_unique hn hm (hnsrc.trans hmsrc.symm)]
    · rw [hunmoved m hmsrc] at hparent hnames
      exact absurd (hnames.symm.trans hnname)
        (hsole m hm htrash' hmocc hmsrc (hparent.symm.trans hnparent))
  · rw [hunmoved n hnsrc] at hparent hnames ⊢
    by_cases hmsrc : m.file.id = src
    · obtain ⟨hmparent, hmname⟩ := hmoved m hmsrc
      exact absurd (hnames.trans hmname)
        (hsole n hn htrash hnocc hnsrc (hparent.trans hmparent))
    · rw [hunmoved m hmsrc] at hparent hnames ⊢
      exact World.uniqueNames_iff.mp hw n hn m hm htrash htrash' hparent hnames

/-- A move between paths, with what the path cache drops. -/
theorem Coherent.movesOver (h : Coherent auth c w) (hmove : w.MovesOver src p name permanent w')
    (hname : name ≠ []) {source init : List Str} (hsource : ∀ s ∈ source, Segment s)
    (hleads : w.LeadsTo (.path source) src) (htarget : ∀ s ∈ init ++ [name], Segment s)
    (hp : w.folderAt init = some p) :
    Coherent auth ((c.invalidatePrefix ⟨auth, joinPath source⟩).invalidatePrefix
      ⟨auth, joinPath (init ++ [name])⟩) w' := by
  have hderef := World.deref_folderAt hp
  obtain ⟨hroot, halias⟩ := hmove.same_root
  have hw' := hmove.uniqueNames h.unique hderef hname
  refine ⟨hw', ((h.agrees.invalidatePrefix _).invalidatePrefix _).survives hroot halias ?_,
    h.root.trans halias.symm⟩
  intro segments e hsegs he hnames
  obtain ⟨he, hnotTarget⟩ := lookup_dropped htarget hsegs he
  obtain ⟨-, hnotSource⟩ := lookup_dropped hsource hsegs he
  refine hnames.kept hroot hw' ?_
  intro n hn htrash done hpre hdone
  refine hmove.stays hderef hn htrash ?_ ?_
  · intro hsrc
    obtain ⟨hne, hplace⟩ := hleads.place hn hsrc hdone
    refine hnotSource hne ?_
    rw [hplace]
    exact hpre
  · intro y hy hbeneath
    obtain ⟨m, hm, rfl, -, rfl, -⟩ := node_of_occupant hy
    have hmname : m.file.name = name := (World.mem_named.mp (mem_occupants.mp hy).1).2
    have hunder := World.prefix_of_node_beneath hm hp hn hdone hbeneath
    rw [hmname] at hunder
    exact hnotTarget (List.concat_ne_nil _ _) (hunder.trans hpre)

end Moves

end Survival

-- ============================================================= the code of a move

/-- Is this the text of a path, as far as it is one at all? -/
def IsPathForm (text : Str) : Prop := ∀ id, parseGDriveUri text ≠ .ok (.fileId id)

section Code

variable {pj : Picojson} {o : Opener} {R : Rel Client World} {w w' : World} {c : PathCache}
  {mayFail : CallReq → Prop}

/-- A call that may not fail, other than by not finding an id, succeeds. -/
theorem treeRel_succeeds {q : CallReq} {r : Except Exn DriveResponse}
    (h : treeRel pj mayFail w q r w') (hfail : ¬mayFail q) (hq : ∀ id, q ≠ .getMetadata id) :
    ∃ resp, r = .ok resp ∧ resp.ok = true ∧ w.Succeeds pj q resp w' := by
  rcases h with hok | ⟨id, _, heq, -⟩ | ⟨hmay, -⟩
  · exact hok
  · exact absurd heq (hq id)
  · exact absurd hmay hfail

/-- The move and the deletion, where neither fails. -/
theorem wp_moveAndDelete_over (hR : ∀ w q r w', R w q r w' → treeRel pj mayFail w q r w')
    (hmayFail : ∀ q, mayFail q → IsRead q) {source target : GDriveUri} {src p : Str}
    (oldParent : Str) (hsingle : (w.occupants src p target.fileName).length ≤ 1) :
    Code.wp (fsEnv R)
      (moveAndDelete o source target src p oldParent (w.occupants src p target.fileName))
      (fun _ c' w' => c' = dropPath o target (dropPath o source c) ∧
        w.MovesOver src p target.fileName o.settings.permanentDelete w') c w := by
  unfold moveAndDelete
  rw [Code.wp_bind, wp_call]
  refine ⟨trivial, ?_⟩
  intro r w₁ hr
  obtain ⟨resp, rfl, hok, -, hmove⟩ := treeRel_succeeds (hR _ _ _ _ hr) (hmayFail _) nofun
  rw [Code.outcome_ok, Code.wp_bind, Code.wp_when, hok]
  refine ⟨nofun, fun _ => ?_⟩
  rw [Code.outcome_ok, Code.wp_bind]
  rcases nil_or_one hsingle with hnone | ⟨y, hy⟩
  · rw [hnone]
    unfold deleteReplaced
    rw [Code.wp_pure, Code.outcome_ok, Code.wp_bind, wp_invalidatePath, Code.outcome_ok,
      wp_invalidatePath]
    exact ⟨rfl, w₁, hmove, .inl ⟨hnone, rfl⟩⟩
  · rw [hy]
    unfold deleteReplaced
    rw [Code.wp_bind, wp_call]
    refine ⟨trivial, ?_⟩
    intro r w₂ hr
    obtain ⟨resp, rfl, hok, -, hremove⟩ := treeRel_succeeds (hR _ _ _ _ hr) (hmayFail _) nofun
    rw [Code.outcome_ok, Code.wp_when, hok]
    refine ⟨nofun, fun _ => ?_⟩
    rw [Code.outcome_ok, Code.wp_bind, wp_invalidatePath, Code.outcome_ok, wp_invalidatePath]
    exact ⟨rfl, w₁, hmove, .inr ⟨y, hy, hremove⟩⟩

/-- A folder in which something has come to lie has its path. -/
theorem World.MovesOver.folderAt {src p name : Str} {permanent : Bool} {path : List Str}
    (h : w.MovesOver src p name permanent w') (hp : w.LeadsTo (.path path) p) :
    w.folderAt path = some p := by
  match path with
  | [] =>
      obtain rfl : p = w.rootId := hp
      rfl
  | s :: rest =>
      have hderef := deref_of_leadsTo hp
      obtain ⟨file, hnames, rfl⟩ := hp
      rw [hnames.folder]
      refine if_pos ?_
      obtain ⟨init, last, q, -, -, ⟨f, hf, hid, hkind⟩, -⟩ := hnames
      obtain ⟨n, hn, rfl, -⟩ := mem_children.mp (mem_named.mp hf).1
      obtain ⟨w₁, hmove, -⟩ := h
      obtain ⟨m, hm, hmid⟩ := hmove.1
      have hfolder := w₁.folders _ (hmove.mem.mpr ⟨n, hn, rfl⟩) _ (hmove.mem.mpr ⟨m, hm, rfl⟩)
      rw [(movedNode_same n).1, (movedNode_same n).2.2, movedNode, if_pos hmid] at hfolder
      rw [← hkind]
      refine hfolder ?_
      rw [hid]
      exact hderef

/-- A move between paths as the code makes it, with what it drops. -/
theorem MovePlan.coherent {source target : Str} {src dst : GDriveUri} {x p : Str}
    {permanent : Bool} (hplan : MovePlan w src dst x p) (hsrc : parseGDriveUri source = .ok src)
    (hdst : parseGDriveUri target = .ok dst) (hsource : IsPathForm source)
    (htarget : ¬SlashedId target) (hmove : w.MovesOver x p dst.fileName permanent w')
    (h : Coherent o.auth c w) : Coherent o.auth (dropPath o dst (dropPath o src c)) w' := by
  cases src with
  | fileId id => exact absurd hsrc (hsource id)
  | path source =>
      cases dst with
      | fileId id => exact absurd rfl hplan.named
      | path segments =>
          have hne : segments ≠ [] := by
            intro hnil
            rw [hnil] at hplan
            exact hplan.named rfl
          rw [slashedId_iff hdst, Bool.not_eq_true] at htarget
          obtain ⟨uri, hparent, hleads⟩ := hplan.parent
          rw [parse_parentPath hdst htarget] at hparent
          cases hparent
          have hsplit := dropLast_append_fileName hne
          have hsegs : ∀ s ∈ segments.dropLast ++ [(GDriveUri.path segments).fileName],
              Segment s := by
            rw [hsplit]
            exact segment_of_parse hdst
          have hmoved := h.movesOver hmove hplan.named (segment_of_parse hsrc) hplan.source hsegs
            (hmove.folderAt hleads)
          rw [hsplit] at hmoved
          exact hmoved

end Code

end GDrive
