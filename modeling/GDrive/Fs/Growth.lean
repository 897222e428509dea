/-
Trees that only grow.

Opening, writing and closing files makes folders where nothing has the name,
makes files, and puts new content under files that keep their name. None of
this moves what is there (`World.Extends`): a path leads where it led, and
what the path cache says of it stays true. It needs no unique names, as a new
file beside another of its name makes the path ambiguous and takes neither
away.
-/
import GDrive.Fs.NewFolder

namespace GDrive

open Interaction Naming

/-- What is there in `w` is there in `w'`, under its name and its path. -/
structure World.Extends (w w' : World) : Prop where
  rootId : w'.rootId = w.rootId
  rootAlias : w'.rootAlias = w.rootAlias
  steps : ∀ {p s q}, w.step p s = some q → w'.step p s = some q
  named : ∀ {p s f}, f ∈ w.named p s → ∃ f' ∈ w'.named p s, SameObject f f'
  /-- No folder comes to lie beside a file of its name. -/
  files : ∀ {p s}, w.named p s ≠ [] → w.foldersNamed p s = [] → w'.foldersNamed p s = []
  nodes : ∀ n ∈ w.nodes, ∃ n' ∈ w'.nodes, n'.file.id = n.file.id ∧ n'.file.name = n.file.name

/-- An upload that renames nothing: of a new file, of one known by its id
only, or of one under the name that it has. -/
def World.KeepsName (w : World) (u : OpenUpload) : Prop :=
  u.fileId = [] ∨ u.name = [] ∨ ∃ n ∈ w.nodes, n.file.id = u.fileId ∧ n.file.name = u.name

section Growth

variable {w w' w'' : World} {p : Str} {file : DriveFileMeta}

theorem World.Extends.refl (w : World) : w.Extends w :=
  ⟨rfl, rfl, id, fun hf => ⟨_, hf, rfl, rfl⟩, fun _ => id, fun n hn => ⟨n, hn, rfl, rfl⟩⟩

theorem World.Extends.trans (h : w.Extends w') (h' : w'.Extends w'') : w.Extends w'' := by
  refine ⟨h'.rootId.trans h.rootId, h'.rootAlias.trans h.rootAlias, fun hs => h'.steps (h.steps hs),
    ?_, ?_, ?_⟩
  · intro p s f hf
    obtain ⟨f', hf', hid, hkind⟩ := h.named hf
    obtain ⟨f'', hf'', hid', hkind'⟩ := h'.named hf'
    exact ⟨f'', hf'', hid.trans hid', hkind.trans hkind'⟩
  · intro p s hne hnone
    refine h'.files ?_ (h.files hne hnone)
    obtain ⟨f, hf⟩ := List.exists_mem_of_ne_nil _ hne
    obtain ⟨f', hf', -⟩ := h.named hf
    exact List.ne_nil_of_mem hf'
  · intro n hn
    obtain ⟨n', hn', hid, hname⟩ := h.nodes n hn
    obtain ⟨n'', hn'', hid', hname'⟩ := h'.nodes n' hn'
    exact ⟨n'', hn'', hid'.trans hid, hname'.trans hname⟩

theorem World.Extends.deref (h : w.Extends w') (id : Str) : w'.deref id = w.deref id := by
  unfold World.deref
  rw [h.rootId, h.rootAlias]

/-- A path leads where it led. -/
theorem World.Extends.folderAt (h : w.Extends w') {segments : List Str} {q : Str}
    (hq : w.folderAt segments = some q) : w'.folderAt segments = some q := by
  unfold World.folderAt at hq ⊢
  rw [h.rootId]
  exact walk_mono (fun _ _ _ => h.steps) hq

theorem World.Names.extends {segments : List Str} (hn : w.Names segments file)
    (h : w.Extends w') : w'.Names segments file := by
  obtain ⟨init, s, q, rfl, hinit, ⟨f, hf, hsame⟩, hkind⟩ := hn
  obtain ⟨f', hf', hid, hfolder⟩ := h.named hf
  refine ⟨init, s, q, rfl, h.folderAt hinit, ⟨f', hf', ?_, ?_⟩, ?_⟩
  · exact hid.symm.trans hsame.1
  · exact hfolder.symm.trans hsame.2
  · split
    · rename_i hfile
      rw [if_pos hfile] at hkind
      exact h.steps hkind
    · rename_i hfile
      rw [if_neg hfile] at hkind
      exact h.files (List.ne_nil_of_mem hf) hkind

theorem World.KeepsName.extends {u : OpenUpload} (hu : w.KeepsName u) (h : w.Extends w') :
    w'.KeepsName u := by
  refine hu.imp_right fun hu => hu.imp_right ?_
  intro ⟨n, hn, hid, hname⟩
  obtain ⟨n', hn', hid', hname'⟩ := h.nodes n hn
  exact ⟨n', hn', hid'.trans hid, hname'.trans hname⟩

-- ================================================================== the changes

/-- Where the folders stay as they are, so do the steps. -/
theorem World.Extends.of_folders (hroot : w'.rootId = w.rootId)
    (halias : w'.rootAlias = w.rootAlias)
    (hfolders : ∀ q s, w'.foldersNamed q s = w.foldersNamed q s)
    (hnamed : ∀ {q s f}, f ∈ w.named q s → ∃ f' ∈ w'.named q s, SameObject f f')
    (hnodes : ∀ n ∈ w.nodes, ∃ n' ∈ w'.nodes,
      n'.file.id = n.file.id ∧ n'.file.name = n.file.name) : w.Extends w' := by
  refine ⟨hroot, halias, ?_, hnamed, ?_, hnodes⟩
  · intro q s r hstep
    unfold World.step at hstep ⊢
    rw [hfolders]
    exact hstep
  · intro q s _ hnone
    rw [hfolders]
    exact hnone

theorem World.Becomes.extends (h : w.Becomes w.nodes w') : w.Extends w' := by
  have hnamed : ∀ q s, w'.named q s = w.named q s := by
    intro q s
    unfold World.named World.children
    rw [h.nodes]
  refine .of_folders h.rootId h.rootAlias ?_ ?_ ?_
  · intro q s
    unfold World.foldersNamed
    rw [hnamed]
  · intro q s f hf
    refine ⟨f, ?_, rfl, rfl⟩
    rw [hnamed]
    exact hf
  · intro n hn
    refine ⟨n, ?_, rfl, rfl⟩
    rw [h.nodes]
    exact hn

/-- A folder is made where nothing has its name. -/
theorem World.Creates.extends_folder (h : w.Creates p file w') (hkind : file.isFolder = true)
    (hfree : w.named (w.deref p) file.name = []) : w.Extends w' := by
  have hmade := h.makesFolder hkind
  refine ⟨h.2.rootId, h.2.rootAlias, hmade.step_mono hfree, ?_, ?_, ?_⟩
  · intro q s f hf
    refine ⟨f, ?_, rfl, rfl⟩
    rw [hmade.named_of_mem hfree hf]
    exact hf
  · intro q s hne hnone
    obtain ⟨f, hf⟩ := List.exists_mem_of_ne_nil _ hne
    unfold World.foldersNamed at hnone ⊢
    rw [hmade.named_of_mem hfree hf]
    exact hnone
  · intro n hn
    refine ⟨n, ?_, rfl, rfl⟩
    rw [h.2.nodes]
    exact List.mem_append_left _ hn

theorem World.Creates.extends_file (h : w.Creates p file w') (hkind : file.isFolder = false) :
    w.Extends w' := by
  refine .of_folders h.2.rootId h.2.rootAlias ?_ ?_ ?_
  · intro q s
    unfold World.foldersNamed
    rw [h.named, List.filter_append]
    split
    · rw [List.filter_cons_of_neg (by rw [hkind]; exact Bool.false_ne_true), List.filter_nil,
        List.append_nil]
    · rw [List.filter_nil, List.append_nil]
  · intro q s f hf
    refine ⟨f, ?_, rfl, rfl⟩
    rw [h.named]
    exact List.mem_append_left _ hf
  · intro n hn
    refine ⟨n, ?_, rfl, rfl⟩
    rw [h.2.nodes]
    exact List.mem_append_left _ hn

/-- The folders of a name, taken from the nodes. -/
theorem World.foldersNamed_eq (w : World) (q s : Str) :
    w.foldersNamed q s = (w.nodes.filter fun n =>
      !n.trashed && n.parent = q && n.file.name = s && n.file.isFolder).map (·.file) := by
  unfold World.foldersNamed World.named World.children
  rw [List.filter_map, List.filter_map, List.filter_filter, List.filter_filter]
  congr 1
  refine List.filter_congr ?_
  intro n _
  simp only [Function.comp, Bool.and_assoc, Bool.and_comm]

/-- New content for a file that keeps its name. -/
theorem World.Replaces.extends {id : Str} (h : w.Replaces id (fun n => { n with file }) w')
    (hid : file.id = id) (hkind : file.isFolder = false)
    (hold : ∀ n ∈ w.nodes, n.file.id = id → n.file.isFolder = false ∧ file.name = n.file.name) :
    w.Extends w' := by
  obtain ⟨-, hnodes, hroot, halias⟩ := h
  refine .of_folders hroot halias ?_ ?_ ?_
  · intro q s
    rw [World.foldersNamed_eq, World.foldersNamed_eq, hnodes, List.filter_map, List.map_map]
    -- Neither what goes nor what comes is a folder.
    refine (List.map_congr_left ?_).trans (congrArg (List.map _) (List.filter_congr ?_))
    · intro n hn
      obtain ⟨hn, hfound⟩ := List.mem_filter.mp hn
      simp only [Function.comp] at hfound ⊢
      split at hfound
      · simp [hkind] at hfound
      · rename_i hne
        rw [if_neg hne]
    · intro n hn
      simp only [Function.comp]
      split
      · rename_i heq
        simp [hkind, (hold n hn heq).1]
      · rfl
  · intro q s f hf
    obtain ⟨hchild, rfl⟩ := mem_named.mp hf
    obtain ⟨n, hn, rfl, htrash, rfl⟩ := mem_children.mp hchild
    have hmem := List.mem_map_of_mem (f := fun n => if n.file.id = id then { n with file } else n) hn
    rw [← hnodes] at hmem
    by_cases heq : n.file.id = id
    · rw [if_pos heq] at hmem
      obtain ⟨hfile, hname⟩ := hold n hn heq
      exact ⟨file, mem_named.mpr ⟨mem_children.mpr ⟨_, hmem, rfl, htrash, rfl⟩, hname⟩,
        heq.trans hid.symm, hfile.trans hkind.symm⟩
    · rw [if_neg heq] at hmem
      exact ⟨n.file, mem_named.mpr ⟨mem_children.mpr ⟨_, hmem, rfl, htrash, rfl⟩, rfl⟩, rfl, rfl⟩
  · intro n hn
    have hmem := List.mem_map_of_mem (f := fun n => if n.file.id = id then { n with file } else n) hn
    rw [← hnodes] at hmem
    by_cases heq : n.file.id = id
    · rw [if_pos heq] at hmem
      exact ⟨_, hmem, hid.trans heq.symm, (hold n hn heq).2⟩
    · rw [if_neg heq] at hmem
      exact ⟨n, hmem, rfl, rfl⟩

/-- A publish that renames nothing. -/
theorem World.Publishes.extends {u : OpenUpload} {size : Nat}
    (h : w.Publishes u false size file w') (hu : w.KeepsName u) : w.Extends w' := by
  obtain ⟨hkind, -, -, hplace⟩ := h
  split at hplace
  · exact hplace.2.extends_file hkind
  · rename_i hold
    obtain ⟨hid, hover, hreplaces⟩ := hplace
    refine hreplaces.extends hid hkind ?_
    intro n hn hn'
    obtain ⟨hfile, hname⟩ := hover n hn hn'
    refine ⟨hfile, hname.trans ?_⟩
    rcases hu with hnew | hunnamed | ⟨m, hm, hmid, hmname⟩
    · rw [hnew] at hold
      exact absurd rfl hold
    · rw [hunnamed]
      rfl
    · obtain rfl := node_unique hm hn (hmid.trans hn'.symm)
      unfold renamed
      split
      · rfl
      · exact hmname.symm

end Growth

end GDrive
