/-
`MutateMoveFile` (gdrive_mutate.cpp): what it can end in, what it may
destroy on the way, and what it leaves in the path cache.

# The steps

The source and the two parents are resolved, the target's name is listed in
its folder, the source is moved, and the one other object of the name is
deleted. Each call may fail, and a failed move or deletion may have been made
all the same (`MoveEnds`).

# What is destroyed

The object that is deleted may be a folder, and goes with all that lies in
it; and where the text of the target's parent reads as an id, it is not the
target's folder that is listed. Otherwise the target's old file is all that is
lost, and only after the source has come to its place (`move_spares_files`).
-/
import GDrive.Fs.Reads
import GDrive.Fs.Served

namespace GDrive

open Interaction Naming

-- ========================================================== changes to the tree

section Changes

variable {w w₁ w' : World} {src p name x : Str}

/-- There is such an object, not in the trash. -/
def World.Live (w : World) (x : Str) : Prop := ∃ n ∈ w.nodes, n.file.id = x ∧ n.trashed = false

def World.LiveFile (w : World) (x : Str) : Prop :=
  ∃ n ∈ w.nodes, n.file.id = x ∧ n.trashed = false ∧ n.file.isFolder = false

/-- A node after `src` has moved. -/
def movedNode (w : World) (src p name : Str) (n : Node) : Node :=
  if n.file.id = src then
    { n with parent := w.deref p, file := { n.file with name := renamed n.file.name name } }
  else n

theorem movedNode_same (n : Node) : (movedNode w src p name n).file.id = n.file.id ∧
    (movedNode w src p name n).trashed = n.trashed ∧
    (movedNode w src p name n).file.isFolder = n.file.isFolder := by
  unfold movedNode
  split <;> exact ⟨rfl, rfl, rfl⟩

theorem World.Moves.mem (h : w.Moves src p name w₁) {n₁ : Node} :
    n₁ ∈ w₁.nodes ↔ ∃ n ∈ w.nodes, movedNode w src p name n = n₁ := by
  rw [h.2.nodes, List.mem_map]
  rfl

/-- Every object is still there after a move. -/
theorem World.Moves.live (h : w.Moves src p name w₁) : w₁.Live x ↔ w.Live x := by
  constructor
  · intro ⟨n₁, hn₁, hid, htrashed⟩
    obtain ⟨n, hn, rfl⟩ := h.mem.mp hn₁
    obtain ⟨hsame, htrash, -⟩ : (movedNode w src p name n).file.id = n.file.id ∧
      (movedNode w src p name n).trashed = n.trashed ∧ _ := movedNode_same n
    exact ⟨n, hn, hsame.symm.trans hid, htrash.symm.trans htrashed⟩
  · intro ⟨n, hn, hid, htrashed⟩
    obtain ⟨hsame, htrash, -⟩ : (movedNode w src p name n).file.id = n.file.id ∧
      (movedNode w src p name n).trashed = n.trashed ∧ _ := movedNode_same n
    exact ⟨_, h.mem.mpr ⟨n, hn, rfl⟩, hsame.trans hid, htrash.trans htrashed⟩

/-- The source lies at its new place. -/
theorem World.Moves.placed (h : w.Moves src p name w₁) (hname : name ≠ []) :
    ∃ n ∈ w₁.nodes, n.file.id = src ∧ n.parent = w.deref p ∧ n.file.name = name := by
  obtain ⟨n, hn, hid⟩ := h.1
  refine ⟨_, h.mem.mpr ⟨n, hn, rfl⟩, ?_⟩
  unfold movedNode renamed
  rw [if_pos hid, if_neg (by simpa using hname)]
  exact ⟨hid, rfl, rfl⟩

theorem World.Moves.liesIn (h : w.Moves src p name w₁) {q r : Str} (hq : q ≠ src) :
    w₁.LiesIn q r ↔ w.LiesIn q r := by
  constructor
  · intro ⟨n₁, hn₁, hid, hparent⟩
    obtain ⟨n, hn, rfl⟩ := h.mem.mp hn₁
    have hne : n.file.id ≠ src := by
      intro heq
      exact hq (hid.symm.trans ((movedNode_same n).1.trans heq))
    rw [movedNode, if_neg hne] at hid hparent
    exact ⟨n, hn, hid, hparent⟩
  · intro ⟨n, hn, hid, hparent⟩
    have hne : n.file.id ≠ src := by rwa [hid]
    refine ⟨n, h.mem.mpr ⟨n, hn, ?_⟩, hid, hparent⟩
    rw [movedNode, if_neg hne]

/-- What lies at or beneath `x`, leaving out `src` and what is beneath it. -/
def World.Under (w : World) (src x : Str) : Str → Prop :=
  Beneath (fun q r => q ≠ src ∧ w.LiesIn q r) x

/-- Beneath something goes down. -/
theorem rank_beneath {rank : Str → Nat} (hrank : ∀ n ∈ w.nodes, rank n.parent < rank n.file.id)
    {q : Str} (h : Beneath w.LiesIn x q) : rank x ≤ rank q := by
  induction h with
  | self => exact le_rfl
  | inside _ hp ih =>
      obtain ⟨n, hn, rfl, rfl⟩ := hp
      exact le_trans ih (le_of_lt (hrank n hn))

/-- What is beneath an object beside which `src` has been moved was so before. -/
theorem World.Moves.beneath (h : w.Moves src p name w₁) (hx : w.LiesIn x (w.deref p))
    (hne : x ≠ src) {q : Str} : Beneath w₁.LiesIn x q ↔ w.Under src x q := by
  have hx₁ : w₁.LiesIn x (w.deref p) := (h.liesIn hne).mpr hx
  constructor
  · intro hq
    induction hq with
    | self => exact .self
    | @inside r q hr hq ih =>
        have hqs : q ≠ src := by
          -- Beneath itself is nothing.
          rintro rfl
          obtain ⟨rank, hrank⟩ := w₁.acyclic
          obtain ⟨m, hm, hmid, hmparent⟩ := hq
          obtain ⟨n, hn, rfl⟩ := h.mem.mp hm
          rw [movedNode, if_pos ((movedNode_same n).1.symm.trans hmid)] at hmparent
          simp only at hmparent
          obtain ⟨n', hn', hxid, hxparent⟩ := hx₁
          have hlt := hrank n' hn'
          have hle := rank_beneath hrank hr
          rw [hxid, hxparent, hmparent] at hlt
          omega
        exact ih.inside ⟨hqs, (h.liesIn hqs).mp hq⟩
  · intro hq
    induction hq with
    | self => exact .self
    | inside _ hq ih => exact ih.inside ((h.liesIn hq.1).mpr hq.2)

/-- A removal takes what is beneath, and nothing else. -/
theorem World.Removes.live {permanent : Bool} (h : w₁.Removes x permanent w') {q : Str} :
    w'.Live q ↔ w₁.Live q ∧ ¬Beneath w₁.LiesIn x q := by
  obtain ⟨-, gone, hgone, hbecomes⟩ := h
  rw [← hgone q]
  unfold World.Live
  rw [hbecomes.nodes]
  cases permanent with
  | true =>
      simp only [if_true, List.mem_filter, Bool.not_eq_true', Bool.not_eq_true]
      constructor
      · intro ⟨n, ⟨hn, hstays⟩, hid, htrashed⟩
        rw [hid] at hstays
        exact ⟨⟨n, hn, hid, htrashed⟩, hstays⟩
      · intro ⟨⟨n, hn, hid, htrashed⟩, hstays⟩
        exact ⟨n, ⟨hn, by rw [hid]; exact hstays⟩, hid, htrashed⟩
  | false =>
      simp only [Bool.false_eq_true, if_false, List.mem_map, Bool.not_eq_true]
      constructor
      · intro ⟨n', ⟨n, hn, hn'⟩, hid, htrashed⟩
        by_cases hg : gone n.file.id = true
        · rw [if_pos hg] at hn'
          rw [← hn'] at htrashed
          cases htrashed
        · rw [if_neg hg] at hn'
          subst hn'
          rw [hid] at hg
          exact ⟨⟨n, hn, hid, htrashed⟩, by simpa using hg⟩
      · intro ⟨⟨n, hn, hid, htrashed⟩, hstays⟩
        refine ⟨n, ⟨n, hn, ?_⟩, hid, htrashed⟩
        rw [hid, hstays, if_neg Bool.false_ne_true]

/-- What is not removed stays as it is. -/
theorem World.Removes.mem {permanent : Bool} (h : w₁.Removes x permanent w') {n : Node}
    (hn : n ∈ w₁.nodes) (hout : ¬Beneath w₁.LiesIn x n.file.id) : n ∈ w'.nodes := by
  obtain ⟨-, gone, hgone, hbecomes⟩ := h
  rw [← hgone] at hout
  rw [hbecomes.nodes]
  cases permanent with
  | true =>
      rw [if_pos rfl, List.mem_filter]
      exact ⟨hn, by simpa using hout⟩
  | false =>
      rw [if_neg Bool.false_ne_true, List.mem_map]
      exact ⟨n, hn, if_neg hout⟩

theorem World.Removes.source {permanent : Bool} (h : w₁.Removes x permanent w') {n' : Node}
    (hn' : n' ∈ w'.nodes) : ∃ n ∈ w₁.nodes, n.file = n'.file ∧ n.parent = n'.parent := by
  obtain ⟨-, gone, -, hbecomes⟩ := h
  rw [hbecomes.nodes] at hn'
  cases permanent with
  | true =>
      rw [if_pos rfl, List.mem_filter] at hn'
      exact ⟨n', hn'.1, rfl, rfl⟩
  | false =>
      rw [if_neg Bool.false_ne_true, List.mem_map] at hn'
      obtain ⟨n, hn, rfl⟩ := hn'
      refine ⟨n, hn, ?_⟩
      split <;> exact ⟨rfl, rfl⟩

end Changes

-- ============================================================ what may be lost

/-- The objects of a name in a folder, but for the one that moves. -/
def World.occupants (w : World) (src p name : Str) : List DriveFileMeta :=
  (w.named p name).filter (·.id ≠ src)

/-- `x` is the one file at a path, but for the object that moves. -/
def World.OldFile (w : World) (src : Str) (target : List Str) (p name x : Str) : Prop :=
  (∃ init, target = init ++ [name] ∧ w.folderAt init = some p) ∧
    ∃ file, w.occupants src p name = [file] ∧ file.isFolder = false ∧ file.id = x

/-- No file is lost but the target's old one, and that only once the source
lies in its place. -/
structure MoveSafe (w : World) (src : Str) (target : List Str) (w' : World) : Prop where
  kept : ∀ {x}, w.LiveFile x → (∀ p name, ¬w.OldFile src target p name x) → w'.Live x
  replaced : ∀ {p name x}, w.OldFile src target p name x → ¬w'.Live x →
    ∃ n ∈ w'.nodes, n.file.id = src ∧ n.parent = p ∧ n.file.name = name

/-- The one other object of the name, in the folder that the target's parent
leads to, is the target's old file, or no file is it or lies beneath it. -/
def MoveSpares (w : World) (src p name : Str) (target : List Str) : Prop :=
  ∀ y, w.occupants src p name = [y] →
    (∃ p' name', w.OldFile src target p' name' y.id) ∨
      ∀ x, w.Under src y.id x → ¬w.LiveFile x

section Safety

variable {w w₁ w' : World} {src p name : Str} {target : List Str} {permanent : Bool}
  {y : DriveFileMeta}

theorem World.LiveFile.live {x : Str} (h : w.LiveFile x) : w.Live x := by
  obtain ⟨n, hn, hid, htrashed, -⟩ := h
  exact ⟨n, hn, hid, htrashed⟩

theorem mem_occupants {file : DriveFileMeta} :
    file ∈ w.occupants src p name ↔ file ∈ w.named p name ∧ file.id ≠ src := by
  unfold World.occupants
  rw [List.mem_filter, decide_eq_true_eq]

/-- An occupant is there, in the folder. -/
theorem node_of_occupant (hy : y ∈ w.occupants src p name) :
    ∃ n ∈ w.nodes, n.file = y ∧ n.trashed = false ∧ n.parent = p ∧ y.id ≠ src := by
  obtain ⟨hnamed, hne⟩ := mem_occupants.mp hy
  obtain ⟨n, hn, hfile, htrashed, hparent⟩ := World.mem_children.mp (World.mem_named.mp hnamed).1
  exact ⟨n, hn, hfile, htrashed, hparent, hne⟩

theorem World.OldFile.liveFile {x : Str} (h : w.OldFile src target p name x) : w.LiveFile x := by
  obtain ⟨-, file, hfile, hkind, rfl⟩ := h
  obtain ⟨n, hn, rfl, htrashed, -, -⟩ :=
    node_of_occupant (y := file) (by rw [hfile]; exact List.mem_singleton.mpr rfl)
  exact ⟨n, hn, rfl, htrashed, hkind⟩

/-- Only the old file's own folder has it. -/
theorem World.OldFile.parent {p' name' : Str} (h : w.OldFile src target p' name' y.id)
    (hy : w.occupants src p name = [y]) : p' = p := by
  obtain ⟨-, file, hfile, -, hid⟩ := h
  obtain ⟨n, hn, rfl, -, rfl, -⟩ :=
    node_of_occupant (y := y) (by rw [hy]; exact List.mem_singleton.mpr rfl)
  obtain ⟨m, hm, rfl, -, rfl, -⟩ :=
    node_of_occupant (y := file) (by rw [hfile]; exact List.mem_singleton.mpr rfl)
  rw [World.node_unique hm hn hid]

/-- A move alone loses nothing. -/
theorem World.Moves.safe (h : w.Moves src p name w₁) : MoveSafe w src target w₁ := by
  refine ⟨fun hx _ => h.live.mpr hx.live, ?_⟩
  intro p' name' x hold hgone
  exact absurd (h.live.mpr hold.liveFile.live) hgone

theorem World.Moves.liesIn_occupant (hp : w.deref p = p) (hy : w.occupants src p name = [y]) :
    w.LiesIn y.id (w.deref p) ∧ y.id ≠ src := by
  obtain ⟨n, hn, rfl, -, hparent, hne⟩ :=
    node_of_occupant (y := y) (by rw [hy]; exact List.mem_singleton.mpr rfl)
  exact ⟨⟨n, hn, rfl, by rw [hp]; exact hparent⟩, hne⟩

/-- Nothing lies beneath a file. -/
theorem under_file {x : Str} {f : DriveFileMeta} (hf : ∃ n ∈ w.nodes, n.file = f)
    (hkind : f.isFolder = false) (h : w.Under src f.id x) : x = f.id := by
  induction h with
  | self => rfl
  | inside _ hq ih =>
      obtain ⟨m, hm, -, hparent⟩ := hq.2
      obtain ⟨n, hn, rfl⟩ := hf
      rw [ih] at hparent
      have hfolder := w.folders n hn m hm hparent
      rw [hkind] at hfolder
      cases hfolder

/-- The deletion after the move, where it spares the files. -/
theorem MoveSpares.safe (hspares : MoveSpares w src p name target) (hp : w.deref p = p)
    (hname : name ≠ []) (htarget : target.getLastD [] = name) (hy : w.occupants src p name = [y])
    (hmove : w.Moves src p name w₁) (hremove : w₁.Removes y.id permanent w') :
    MoveSafe w src target w' := by
  obtain ⟨hlies, hne⟩ := World.Moves.liesIn_occupant hp hy
  -- A file that is lost was at the target, and nowhere else.
  have hlost : ∀ {x}, w.LiveFile x → ¬w'.Live x →
      w.Under src y.id x ∧ ∃ p' name', w.OldFile src target p' name' y.id := by
    intro x hx hgone
    have hunder : w.Under src y.id x := by
      rw [hremove.live, not_and_not_right] at hgone
      exact (hmove.beneath hlies hne).mp (hgone (hmove.live.mpr hx.live))
    rcases hspares y hy with hold | hnone
    · exact ⟨hunder, hold⟩
    · exact absurd hx (hnone x hunder)
  have hsame : ∀ {x p' name'}, w.Under src y.id x → w.OldFile src target p' name' y.id →
      x = y.id := by
    intro x p' name' hunder hold
    obtain ⟨-, file, hfile, hkind, hid⟩ := hold
    obtain ⟨n, hn, hnfile, -⟩ :=
      node_of_occupant (y := file) (by rw [hfile]; exact List.mem_singleton.mpr rfl)
    rw [← hid] at hunder ⊢
    exact under_file ⟨n, hn, hnfile⟩ hkind hunder
  refine ⟨?_, ?_⟩
  · intro x hx hnot
    by_contra hgone
    obtain ⟨hunder, p', name', hold⟩ := hlost hx hgone
    rw [hsame hunder hold] at hnot
    exact hnot p' name' hold
  · intro p' name' x hold hgone
    obtain ⟨hunder, p'', name'', hold'⟩ := hlost hold.liveFile hgone
    rw [hsame hunder hold'] at hold
    obtain ⟨n, hn, hid, hparent, hnname⟩ := hmove.placed hname
    refine ⟨n, hremove.mem hn ?_, hid, ?_, ?_⟩
    · rw [hid, hmove.beneath hlies hne]
      intro hsrc
      rw [hsame hsrc hold'] at hne
      exact hne rfl
    · rw [hparent, hp]
      exact (hold.parent hy).symm
    · obtain ⟨⟨init, hinit, -⟩, -⟩ := hold
      rw [hnname, ← htarget, hinit, List.getLastD_concat]

/-- A file that the deletion takes and that is not the target's old one is
lost. -/
theorem MoveSafe.spares (hsafe : MoveSafe w src target w') (hp : w.deref p = p)
    (htarget : target.getLastD [] = name) (hy : w.occupants src p name = [y])
    (hmove : w.Moves src p name w₁) (hremove : w₁.Removes y.id permanent w') : MoveSpares w src p name target := by
  obtain ⟨hlies, hne⟩ := World.Moves.liesIn_occupant hp hy
  intro y' hy'
  rw [hy] at hy'
  cases hy'
  by_contra hneither
  push Not at hneither
  obtain ⟨hnotOld, x, hunder, hlive⟩ := hneither
  have hgone : ¬w'.Live x := by
    rw [hremove.live]
    exact fun h => h.2 ((hmove.beneath hlies hne).mpr hunder)
  -- So it is the target's old file, and the source lies elsewhere.
  by_cases hold : ∃ p' name', w.OldFile src target p' name' x
  · obtain ⟨p', name', hold⟩ := hold
    obtain ⟨n', hn', hid', hparent', hname'⟩ := hsafe.replaced hold hgone
    obtain ⟨n₁, hn₁, hfile, hparent⟩ := hremove.source hn'
    obtain ⟨n, hn, rfl⟩ := hmove.mem.mp hn₁
    have hsrc : n.file.id = src := by
      rw [← (movedNode_same n).1, hfile, hid']
    rw [← hparent, movedNode, if_pos hsrc] at hparent'
    simp only at hparent'
    rw [hp] at hparent'
    obtain ⟨⟨init, hinit, -⟩, file, hfile', -, hid⟩ := id hold
    rw [hinit, List.getLastD_concat] at htarget
    rw [← hparent', htarget, hy] at hfile'
    cases hfile'
    rw [← hid] at hold
    exact hnotOld p' name' hold
  · rw [not_exists] at hold
    exact hgone (hsafe.kept hlive fun p' name' h => hold p' ⟨name', h⟩)

end Safety

-- ==================================================================== the code

/-- What is known when the source is about to move. -/
structure MovePlan (w : World) (source target : GDriveUri) (src p : Str) : Prop where
  source : w.LeadsTo source src
  parent : w.ParentOf target.parentPath p
  named : target.fileName ≠ []
  single : (w.occupants src p target.fileName).length ≤ 1

/-- What the path cache drops of a path that was moved or overwritten. -/
def dropPath (o : Opener) (uri : GDriveUri) (c : PathCache) : PathCache :=
  match uri with
  | .fileId _ => c
  | .path _ => c.invalidatePrefix (o.key (canonicalPathOf uri))

/-- The ways a move can end: before it changed anything; without an answer
to the move, which has been made; with the replaced object's deletion failed,
which may have been made; or with both made. -/
inductive MoveEnds (w : World) (o : Opener) (source target : GDriveUri) :
    Except Exn Unit → PathCache → World → Prop
  | refused {c' : PathCache} (e : Exn) : Agrees w o.auth c' →
      MoveEnds w o source target (.error e) c' w
  | unanswered {src p : Str} {c' : PathCache} {w' : World} (e : Exn) :
      MovePlan w source target src p → Agrees w o.auth c' →
      w.Moves src p target.fileName w' → MoveEnds w o source target (.error e) c' w'
  | undeleted {src p : Str} {y : DriveFileMeta} {c' : PathCache} {w₁ w' : World} (e : Exn) :
      MovePlan w source target src p → Agrees w o.auth c' →
      w.occupants src p target.fileName = [y] → w.Moves src p target.fileName w₁ →
      (w' = w₁ ∨ w₁.Removes y.id o.settings.permanentDelete w') →
      MoveEnds w o source target (.error e) c' w'
  | done {src p : Str} {c' : PathCache} {w₁ w' : World} :
      MovePlan w source target src p → Agrees w o.auth c' →
      w.Moves src p target.fileName w₁ →
      (w.occupants src p target.fileName = [] ∧ w' = w₁ ∨
        ∃ y, w.occupants src p target.fileName = [y] ∧
          w₁.Removes y.id o.settings.permanentDelete w') →
      MoveEnds w o source target (.ok ()) (dropPath o target (dropPath o source c')) w'

/-- The trees on the way. -/
def MoveReaches (w : World) (o : Opener) (source target : GDriveUri) (w' : World) : Prop :=
  w' = w ∨ ∃ src p w₁, MovePlan w source target src p ∧ w.Moves src p target.fileName w₁ ∧
    (w' = w₁ ∨ ∃ y, w.occupants src p target.fileName = [y] ∧
      w₁.Removes y.id o.settings.permanentDelete w')

theorem MoveEnds.reaches {w w' : World} {o : Opener} {source target : GDriveUri}
    {out : Except Exn Unit} {c' : PathCache} (h : MoveEnds w o source target out c' w') :
    MoveReaches w o source target w' := by
  cases h with
  | refused e _ => exact .inl rfl
  | unanswered e hplan _ hmove => exact .inr ⟨_, _, _, hplan, hmove, .inl rfl⟩
  | undeleted e hplan _ hy hmove hremove =>
      exact .inr ⟨_, _, _, hplan, hmove, hremove.imp_right fun hremove => ⟨_, hy, hremove⟩⟩
  | done hplan _ hmove hremove =>
      exact .inr ⟨_, _, _, hplan, hmove, hremove.imp (·.2) id⟩

section Code

variable {pj : Picojson} {rounds : Nat} {mayFail : CallReq → Prop} {R : Rel Client World}
  {o : Opener} {w : World} {c : PathCache} {source target : GDriveUri}

theorem treeRel_move {id newParent newName oldParent : Str} {r : Except Exn DriveResponse}
    {w' : World} (h : treeRel pj mayFail w (.move id newParent newName oldParent) r w') :
    (∃ resp, r = .ok resp ∧ resp.ok = true ∧ w.Moves id newParent newName w') ∨
      ((∀ resp, r = .ok resp → resp.ok = false) ∧ (w' = w ∨ w.Moves id newParent newName w')) := by
  rcases h with ⟨resp, hr, hok, -, hmove⟩ | ⟨_, _, hq, -⟩ | ⟨-, hfailed, hw⟩
  · exact .inl ⟨resp, hr, hok, hmove⟩
  · cases hq
  · refine .inr ⟨fun resp hr => (hfailed resp hr).1, ?_⟩
    rcases hw with rfl | ⟨resp, -, hmove⟩
    · exact .inl rfl
    · exact .inr hmove

theorem treeRel_delete {id : Str} {permanent : Bool} {r : Except Exn DriveResponse} {w' : World}
    (h : treeRel pj mayFail w (.delete id permanent) r w') :
    (∃ resp, r = .ok resp ∧ resp.ok = true ∧ w.Removes id permanent w') ∨
      ((∀ resp, r = .ok resp → resp.ok = false) ∧ (w' = w ∨ w.Removes id permanent w')) := by
  rcases h with ⟨resp, hr, hok, -, hremove⟩ | ⟨_, _, hq, -⟩ | ⟨-, hfailed, hw⟩
  · exact .inl ⟨resp, hr, hok, hremove⟩
  · cases hq
  · refine .inr ⟨fun resp hr => (hfailed resp hr).1, ?_⟩
    rcases hw with rfl | ⟨resp, -, hremove⟩
    · exact .inl rfl
    · exact .inr hremove

theorem wp_invalidatePath {E : Env Client World} (uri : GDriveUri)
    (Q : Except Exn Unit → PathCache → World → Prop) {w : World} :
    Code.wp E (invalidatePath o uri) Q c w ↔ Q (.ok ()) (dropPath o uri c) w := by
  cases uri <;> exact Iff.rfl

/-- The deletion of what was replaced, if there is something. -/
theorem wp_deleteReplaced {I : World → Prop}
    (hR : ∀ w q r w', R w q r w' → treeRel pj mayFail w q r w')
    {existing : List DriveFileMeta} (hone : existing.length ≤ 1) {w₁ : World} (hI : I w₁) :
    Code.wp (.total R I) (deleteReplaced o target existing)
      (fun out c' w' => c' = c ∧
        ((out = .ok () ∧ (existing = [] ∧ w' = w₁ ∨
            ∃ y, existing = [y] ∧ w₁.Removes y.id o.settings.permanentDelete w')) ∨
          ∃ e y, out = .error e ∧ existing = [y] ∧
            (w' = w₁ ∨ w₁.Removes y.id o.settings.permanentDelete w'))) c w₁ := by
  match existing with
  | [] => exact ⟨rfl, .inl ⟨rfl, .inl ⟨rfl, rfl⟩⟩⟩
  | [y] =>
      unfold deleteReplaced
      rw [Code.wp_bind, wp_call]
      refine ⟨hI, ?_⟩
      intro r w' hr
      rcases treeRel_delete (hR _ _ _ _ hr) with ⟨resp, rfl, hok, hremove⟩ | ⟨hfail, hw⟩
      · rw [Code.outcome_ok, Code.wp_when, hok]
        exact ⟨nofun, fun _ => ⟨rfl, .inl ⟨rfl, .inr ⟨y, rfl, hremove⟩⟩⟩⟩
      · cases r with
        | error e => exact ⟨rfl, .inr ⟨e, y, rfl, rfl, hw⟩⟩
        | ok resp =>
            rw [Code.outcome_ok, Code.wp_when, hfail resp rfl]
            exact ⟨fun _ => ⟨rfl, .inr ⟨_, y, rfl, rfl, hw⟩⟩, nofun⟩
  | _ :: _ :: _ => simp at hone

/-- What is left to do when the plan is made. -/
def moveAndDelete (o : Opener) (source target : GDriveUri) (src p oldParent : Str)
    (existing : List DriveFileMeta) : CacheCode Unit := do
  let resp ← call (.move src p target.fileName oldParent)
  Code.when (!resp.ok) (Code.throw (.drive resp.error source.toString))
  deleteReplaced o target existing
  invalidatePath o source
  invalidatePath o target

/-- The move and what follows it. -/
theorem wp_moveAndDelete {I : World → Prop}
    (hR : ∀ w q r w', R w q r w' → treeRel pj mayFail w q r w')
    (hI : ∀ w', MoveReaches w o source target w' → I w') {src p oldParent : Str}
    (hplan : MovePlan w source target src p) (h : Agrees w o.auth c) :
    Code.wp (.total R I)
      (moveAndDelete o source target src p oldParent (w.occupants src p target.fileName))
      (MoveEnds w o source target) c w := by
  unfold moveAndDelete
  rw [Code.wp_bind, wp_call]
  refine ⟨hI w (.inl rfl), ?_⟩
  intro r w₁ hr
  rcases treeRel_move (hR _ _ _ _ hr) with ⟨resp, rfl, hok, hmove⟩ | ⟨hfail, hw⟩
  · rw [Code.outcome_ok, Code.wp_bind, Code.wp_when, hok]
    refine ⟨nofun, fun _ => ?_⟩
    rw [Code.outcome_ok, Code.wp_bind]
    refine Code.wp_mono (wp_deleteReplaced hR hplan.single
      (hI w₁ (.inr ⟨src, p, w₁, hplan, hmove, .inl rfl⟩))) ?_
    intro out c' w' ⟨hc, hout⟩
    rw [hc]
    rcases hout with ⟨rfl, hout⟩ | ⟨e, y, rfl, hy, hout⟩
    · rw [Code.outcome_ok, Code.wp_bind, wp_invalidatePath, Code.outcome_ok, wp_invalidatePath]
      exact .done hplan h hmove hout
    · exact .undeleted e hplan h hy hmove hout
  · have hended : ∀ e, MoveEnds w o source target (.error e) c w₁ := by
      intro e
      rcases hw with rfl | hmove
      · exact .refused e h
      · exact .unanswered e hplan h hmove
    cases r with
    | error e => exact hended e
    | ok resp =>
        rw [Code.outcome_ok, Code.wp_bind, Code.wp_when, hfail resp rfl]
        exact ⟨fun _ => hended _, nofun⟩

theorem wp_oldParentId {X : DriveFileMeta → Nat → Prop} {Y : Nat → Str → DriveFileMeta → Prop}
    (hR : ∀ w q r w', R w q r w' → treeRel pj mayFail w q r w') (hrounds : 1 ≤ rounds)
    (hroot : rootFolderFor o.auth = w.rootAlias) (hknows : Knows w X Y)
    (h : CacheInv w o.auth X Y c) :
    Code.wp (fsEnv R) (oldParentId pj rounds o source)
      (fun _ c' w' => w' = w ∧ CacheInv w o.auth X Y c') c w := by
  unfold oldParentId
  split
  · exact ⟨rfl, h⟩
  · refine Code.wp_mono (wp_resolveParentId hR hrounds hroot hknows (parentPath_ne_nil _) h) ?_
    intro out c' w' ⟨hw, h', _⟩
    exact ⟨hw, h'⟩

/-- `MutateMoveFile` makes its plan, and nothing else is done before; or it
throws. -/
theorem wp_mutateMoveFile_plan {X : DriveFileMeta → Nat → Prop}
    {Y : Nat → Str → DriveFileMeta → Prop} {I : World → Prop}
    {Q : Except Exn Unit → PathCache → World → Prop}
    (hR : ∀ w q r w', R w q r w' → treeRel pj mayFail w q r w') (hrounds : 1 ≤ rounds)
    (hroot : rootFolderFor o.auth = w.rootAlias) (hknows : Knows w X Y) (hsource : source.Clean)
    (h : CacheInv w o.auth X Y c) (hw₀ : I w)
    (hrefused : ∀ e c', CacheInv w o.auth X Y c' → Q (.error e) c' w)
    (hplanned : ∀ src p oldParent c', MovePlan w source target src p →
      CacheInv w o.auth X Y c' → Code.wp (.total R I)
        (moveAndDelete o source target src p oldParent (w.occupants src p target.fileName)) Q c' w) :
    Code.wp (.total R I) (mutateMoveFile pj rounds o source target) Q c w := by
  unfold mutateMoveFile
  split
  · exact hrefused _ _ h
  · rename_i segments
    rw [Code.wp_bind]
    refine Code.wp_mono (wp_read hR (asks_resolvePath pj rounds _ _ _) hw₀
      (wp_resolvePath hR hrounds hroot hknows hsource h)) ?_
    intro out c₁ w' ⟨hw, h₁, hsrc⟩
    subst hw
    cases out with
    | error e => exact hrefused e _ h₁
    | ok sourceFile =>
        rw [Code.outcome_ok, Code.wp_bind]
        refine Code.wp_mono (wp_read hR (asks_oldParentId pj rounds o _) hw₀
          (wp_oldParentId hR hrounds hroot hknows h₁)) ?_
        intro out c₂ w'' ⟨hw, h₂⟩
        subst hw
        cases out with
        | error e => exact hrefused e _ h₂
        | ok oldParent =>
            rw [Code.outcome_ok, Code.wp_bind, Code.wp_when]
            refine ⟨fun _ => hrefused _ _ h₂, ?_⟩
            intro hnamed
            rw [Code.outcome_ok, Code.wp_bind]
            refine Code.wp_mono (wp_read hR (asks_resolveParentId pj rounds o _) hw₀
              (wp_resolveParentId hR hrounds hroot hknows (parentPath_ne_nil _) h₂)) ?_
            intro out c₃ w' ⟨hw, h₃, hparent⟩
            subst hw
            cases out with
            | error e => exact hrefused e _ h₃
            | ok p =>
                rw [Code.outcome_ok, Code.wp_bind]
                refine Code.wp_mono (wp_read hR (asks_listAll pj rounds _ _ _ _ _) hw₀
                  (wp_listByName hR hrounds _ _ _ _ _)) ?_
                intro out c₄ w'' ⟨hc, hw, hlisted⟩
                subst hc hw
                rcases hlisted with rfl | ⟨-, e, rfl⟩
                · rw [Code.outcome_ok, Code.wp_bind, Code.wp_when]
                  refine ⟨fun _ => hrefused _ _ h₃, ?_⟩
                  intro hsingle
                  rw [Code.outcome_ok]
                  have hp := hparent p rfl
                  have hfound : (w''.found (w''.deref p) (GDriveUri.path segments).fileName
                      false).filter (fun file => file.id ≠ sourceFile.id) =
                      w''.occupants sourceFile.id p (GDriveUri.path segments).fileName := by
                    rw [deref_of_parentOf hp]
                    rfl
                  rw [hfound] at hsingle ⊢
                  refine hplanned _ p oldParent _ ⟨hsrc sourceFile rfl, hp, ?_, ?_⟩ h₃
                  · simpa using hnamed
                  · simpa using hsingle
                · exact hrefused e _ h₃

theorem wp_mutateMoveFile {I : World → Prop}
    (hR : ∀ w q r w', R w q r w' → treeRel pj mayFail w q r w') (hrounds : 1 ≤ rounds)
    (hroot : rootFolderFor o.auth = w.rootAlias) (hsource : source.Clean) (h : Agrees w o.auth c)
    (hI : ∀ w', MoveReaches w o source target w' → I w') :
    Code.wp (.total R I) (mutateMoveFile pj rounds o source target)
      (MoveEnds w o source target) c w := by
  refine wp_mutateMoveFile_plan hR hrounds hroot (knows_agree w) hsource h (hI w (.inl rfl)) ?_ ?_
  · exact fun e c' h' => .refused e h'
  · exact fun src p oldParent c' hplan h' => wp_moveAndDelete hR hI hplan h'

-- ================================================================= what is kept

/-- The segments of a path; the id: form has none. -/
def GDriveUri.segments : GDriveUri → List Str
  | .path segments => segments
  | .fileId _ => []

theorem fileName_eq_getLastD (uri : GDriveUri) : uri.segments.getLastD [] = uri.fileName := by
  cases uri <;> rfl

/-- The tree is as it was, or a move that spared the files has changed it. -/
def MoveKeeps (w : World) (source target : GDriveUri) (w' : World) : Prop :=
  w' = w ∨ ∃ src, w.LeadsTo source src ∧ MoveSafe w src target.segments w'

/-- Where the deletion spares the files, all the trees on the way are safe. -/
theorem MoveReaches.keeps {w' : World} (h : MoveReaches w o source target w')
    (hspares : ∀ src p, w.LeadsTo source src → w.ParentOf target.parentPath p →
      MoveSpares w src p target.fileName target.segments) :
    MoveKeeps w source target w' := by
  rcases h with rfl | ⟨src, p, w₁, hplan, hmove, rfl | ⟨y, hy, hremove⟩⟩
  · exact .inl rfl
  · exact .inr ⟨src, hplan.source, hmove.safe⟩
  · refine .inr ⟨src, hplan.source, ?_⟩
    exact (hspares src p hplan.source hplan.parent).safe (deref_of_parentOf hplan.parent)
      hplan.named (fileName_eq_getLastD target) hy hmove hremove

/-- A move that succeeds spares the files exactly where its deletion does. -/
theorem MoveEnds.safe_iff {w' : World} {c' : PathCache}
    (h : MoveEnds w o source target (.ok ()) c' w') :
    ∃ src p, w.LeadsTo source src ∧ w.ParentOf target.parentPath p ∧
      (MoveSpares w src p target.fileName target.segments ↔
        MoveSafe w src target.segments w') := by
  cases h with
  | @done src p c' w₁ _ hplan _ hmove hremove =>
      refine ⟨src, p, hplan.source, hplan.parent, ?_⟩
      have hp := deref_of_parentOf hplan.parent
      have hlast := fileName_eq_getLastD target
      rcases hremove with ⟨hnone, rfl⟩ | ⟨y, hy, hremove⟩
      · refine ⟨fun _ => hmove.safe, fun _ => ?_⟩
        intro y hy
        rw [hnone] at hy
        cases hy
      · exact ⟨fun hspares => hspares.safe hp hplan.named hlast hy hmove hremove,
          fun hsafe => hsafe.spares hp hlast hy hmove hremove⟩

/-- At every moment of a move, whatever the calls come to, the files are kept
where the one object to be deleted is the target's old file, or no file is it
or lies beneath it. A move that succeeds keeps them nowhere else. -/
theorem move_spares_files (hR : ∀ w q r w', R w q r w' → treeRel pj mayFail w q r w')
    (hrounds : 1 ≤ rounds) (hroot : rootFolderFor o.auth = w.rootAlias) (hsource : source.Clean)
    (hcache : Agrees w o.auth c) {p' : Prog Client (Except Exn Unit × PathCache)} {w' : World}
    (hrun : Reaches R (mutateMoveFile pj rounds o source target c) w p' w') :
    ((∀ src p, w.LeadsTo source src → w.ParentOf target.parentPath p →
        MoveSpares w src p target.fileName target.segments) → MoveKeeps w source target w') ∧
      ∀ c', p' = .ret (.ok (), c') →
        ∃ src p, w.LeadsTo source src ∧ w.ParentOf target.parentPath p ∧
          (MoveSpares w src p target.fileName target.segments ↔
            MoveSafe w src target.segments w') := by
  have hwp : Code.wp (.ofRel R (MoveReaches w o source target))
      (mutateMoveFile pj rounds o source target) (MoveEnds w o source target) c w :=
    Code.wp_of_total (wp_mutateMoveFile hR hrounds hroot hsource hcache fun _ h => h)
  refine ⟨?_, ?_⟩
  · intro hspares
    exact (Code.wp_always hwp (fun _ _ _ h => h.reaches) hrun).keeps hspares
  · intro c' hret
    rw [hret] at hrun
    exact (Code.wp_returns hwp hrun).safe_iff

end Code

-- ======================================================== a folder in the way

section FolderInTheWay

/-- The files `a` and `d`, and the folder `b` with the file `c`. -/
def mixedNodes : List Node :=
  [{ file := { id := str "A", name := str "a" }, parent := str "R" },
    { file := { id := str "B", name := str "b", mimeType := kFolderMimeType }, parent := str "R" },
    { file := { id := str "C", name := str "c" }, parent := str "B" },
    { file := { id := str "D", name := str "d" }, parent := str "R" }]

def mixedDepth (id : Str) : Nat := if id = str "R" then 0 else if id = str "C" then 2 else 1

def mixedTree : World := treeOf mixedNodes mixedDepth (by decide +kernel)

/-- `a` has come to `name`. -/
def movedNodes (name : Str) : List Node :=
  mixedNodes.map (movedNode mixedTree (str "A") (str "R") name)

/-- And what was at `name` is in the trash. -/
def trashedNodes (name : Str) (gone : List Str) : List Node :=
  (movedNodes name).map fun n =>
    if gone.contains n.file.id then { n with trashed := true } else n

/-- `MoveFile` of `a` to `b`, step by step. -/
def overFolder : Nat → World
  | 0 => mixedTree
  | 1 => treeOf (movedNodes (str "b")) mixedDepth (by decide +kernel)
  | _ => treeOf (trashedNodes (str "b") [str "B", str "C"]) mixedDepth (by decide +kernel)

/-- `MoveFile` of `a` to `d`. -/
def overFile : Nat → World
  | 0 => mixedTree
  | 1 => treeOf (movedNodes (str "d")) mixedDepth (by decide +kernel)
  | _ => treeOf (trashedNodes (str "d") [str "D"]) mixedDepth (by decide +kernel)

/-- A Drive that makes the one move and then the one removal. -/
def obliging (pj : Picojson) (trees : Nat → World) (name x : Str) :
    Nat → (q : CallReq) → Except Exn DriveResponse × Nat
  | 0, .move id newParent newName _ =>
      if id = str "A" ∧ newParent = str "R" ∧ newName = name then
        (.ok { ok := true, httpStatus := 200 }, 1)
      else (lost, 0)
  | 1, .delete id permanent =>
      if id = x ∧ permanent = false then (.ok { ok := true, httpStatus := 200 }, 2) else (lost, 1)
  | n, q => (served pj (trees n) q, n)

theorem obliging_truthful (pj : Picojson) {trees : Nat → World} {name x : Str}
    (hsessions : ∀ n, (trees n).sessions = fun _ => none)
    (hmove : (trees 0).Moves (str "A") (str "R") name (trees 1))
    (hremove : (trees 1).Removes x false (trees 2)) (n : Nat) (q : CallReq) :
    (treeRel pj fun _ => True).along trees n q (obliging pj trees name x n q).1
      (obliging pj trees name x n q).2 := by
  show treeRel pj _ (trees n) q _ (trees _)
  unfold obliging
  split
  · split
    · rename_i heq
      obtain ⟨rfl, rfl, rfl⟩ := heq
      exact .inl ⟨_, rfl, rfl, (hsessions 1).trans (hsessions 0).symm, hmove⟩
    · exact lost_truthful trivial
  · split
    · rename_i heq
      obtain ⟨rfl, rfl⟩ := heq
      exact .inl ⟨_, rfl, rfl, (hsessions 2).trans (hsessions 1).symm, hremove⟩
    · exact lost_truthful trivial
  · exact served_truthful pj (trees n) q

/-- What Drive says on the way. -/
def mixedJson : Picojson :=
  tableJson
    [listingJson [{ id := str "A", name := str "a" }], fileObject mixedTree.rootFile,
      listingJson [{ id := str "B", name := str "b", mimeType := kFolderMimeType }],
      listingJson [{ id := str "D", name := str "d" }]]

def me : Opener := { auth := { identity := str "me" } }

/-- `MoveFile` of `a` to `name`, from an empty cache. -/
def moveOfA (name : Str) : Prog Client (Except Exn Unit × PathCache) :=
  mutateMoveFile mixedJson 1 me (.path [str "a"]) (.path [name]) {}

/-- What was at `name` goes to the trash. -/
theorem reaches_moveOfA {trees : Nat → World} {name : Str} (x : Str)
    (hfirst : trees 0 = mixedTree) (hsessions : ∀ n, (trees n).sessions = fun _ => none)
    (hmove : (trees 0).Moves (str "A") (str "R") name (trees 1))
    (hremove : (trees 1).Removes x false (trees 2))
    (hplayed : (Prog.play (obliging mixedJson trees name x) (moveOfA name) 0).2 = 2) :
    Reaches (treeRel mixedJson fun _ => True) (moveOfA name) mixedTree
      (Prog.play (obliging mixedJson trees name x) (moveOfA name) 0).1 (trees 2) := by
  have hrun := (Prog.play_reaches (obliging_truthful mixedJson hsessions hmove hremove)
    (moveOfA name) 0).seen
  rw [hplayed, hfirst] at hrun
  exact hrun

theorem reaches_overFolder : ∃ p', Reaches (treeRel mixedJson fun _ => True)
    (moveOfA (str "b")) mixedTree p' (overFolder 2) := by
  refine ⟨_, reaches_moveOfA (str "B") rfl ?_ ⟨by decide +kernel, rfl, rfl, rfl⟩ ?_
    (by decide +kernel)⟩
  · intro n
    match n with
    | 0 => rfl
    | 1 => rfl
    | _ + 2 => rfl
  · exact removes_of_closed [str "B", str "C"] (by decide +kernel) (by decide +kernel)
      (by decide +kernel) ⟨rfl, rfl, rfl⟩

theorem reaches_overFile : ∃ p', Reaches (treeRel mixedJson fun _ => True)
    (moveOfA (str "d")) mixedTree p' (overFile 2) := by
  refine ⟨_, reaches_moveOfA (str "D") rfl ?_ ⟨by decide +kernel, rfl, rfl, rfl⟩ ?_
    (by decide +kernel)⟩
  · intro n
    match n with
    | 0 => rfl
    | 1 => rfl
    | _ + 2 => rfl
  · exact removes_of_closed [str "D"] (by decide +kernel) (by decide +kernel)
      (by decide +kernel) ⟨rfl, rfl, rfl⟩

/-- The file `c` below the folder `b` is lost to a move of `a` to `b`. -/
theorem move_spares_files_folder : ∃ p', Reaches (treeRel mixedJson fun _ => True)
    (moveOfA (str "b")) mixedTree p' (overFolder 2) ∧
      ¬MoveKeeps mixedTree (.path [str "a"]) (.path [str "b"]) (overFolder 2) := by
  obtain ⟨p', hrun⟩ := reaches_overFolder
  refine ⟨p', hrun, ?_⟩
  have hlive : mixedTree.LiveFile (str "C") :=
    show ∃ n ∈ mixedNodes, _ by decide +kernel
  have hgone : ¬(overFolder 2).Live (str "C") :=
    show ¬∃ n ∈ (overFolder 2).nodes, _ by decide +kernel
  intro hkeeps
  rcases hkeeps with heq | ⟨src, -, hsafe⟩
  · rw [heq] at hgone
    exact hgone hlive.live
  · refine hgone (hsafe.kept hlive ?_)
    -- The target's old file would lie beside `b`.
    intro p name ⟨⟨init, hinit, hfolder⟩, file, hfile, _, hid⟩
    have hconcat : [] ++ [str "b"] = init ++ [name] := hinit
    obtain ⟨rfl, -⟩ := List.append_inj' hconcat rfl
    obtain rfl : str "R" = p := Option.some.inj hfolder
    have hmem : file ∈ mixedTree.occupants src (str "R") name := by
      rw [hfile]
      exact List.mem_singleton.mpr rfl
    have hnone : ∀ file ∈ mixedTree.children (str "R"), file.id ≠ str "C" := by decide +kernel
    exact hnone file (World.mem_named.mp (mem_occupants.mp hmem).1).1 hid

/-- A move of `a` to `d` replaces one file by the other. -/
theorem move_spares_files_file : ∃ p', Reaches (treeRel mixedJson fun _ => True)
    (moveOfA (str "d")) mixedTree p' (overFile 2) ∧
      MoveKeeps mixedTree (.path [str "a"]) (.path [str "d"]) (overFile 2) := by
  obtain ⟨p', hrun⟩ := reaches_overFile
  refine ⟨p', hrun, ?_⟩
  have hclean : (GDriveUri.path [str "a"]).Clean := by
    intro s hs
    rw [List.mem_singleton.mp hs]
    exact ⟨by decide, by decide⟩
  refine (move_spares_files (fun _ _ _ _ h => h) le_rfl rfl hclean cacheInv_empty hrun).1 ?_
  -- The one object of the name is the file `d`.
  intro src p _ ⟨uri, hparse, hleads⟩ y hy
  have hroot : parseGDriveUri (GDriveUri.path [str "d"]).parentPath = .ok (.path []) := by
    decide +kernel
  rw [hroot] at hparse
  cases hparse
  obtain rfl : p = str "R" := hleads
  have hfile : ∀ file ∈ mixedTree.named (str "R") (str "d"), file.isFolder = false := by
    decide +kernel
  have hmem : y ∈ mixedTree.occupants src (str "R") (str "d") := by
    show y ∈ mixedTree.occupants src (str "R") (GDriveUri.path [str "d"]).fileName
    rw [hy]
    exact List.mem_singleton.mpr rfl
  exact .inl ⟨_, _, ⟨[], rfl, rfl⟩, y, hy, hfile y (mem_occupants.mp hmem).1, rfl⟩

end FolderInTheWay

end GDrive
