/-
A Drive that can be run: it answers listings and lookups with the JSON texts
of what its tree has, where the library reads these texts back, and fails
otherwise. Every answer is one that `treeRel` allows (`served_truthful`), so
what a played run shows is a run.
-/
import GDrive.Fs.Tree

namespace GDrive

open Interaction Naming

-- ===================================================================== texts

mutual
/-- The text of a value, of strings without quotes and control characters. -/
def Json.render : Json → Str
  | .null => str "null"
  | .bool b => if b then str "true" else str "false"
  | .number => str "0"
  | .string s => str "\"" ++ s ++ str "\""
  | .array xs => str "[" ++ renderAll xs ++ str "]"
  | .object fields => str "\x7b" ++ renderFields fields ++ str "\x7d"

def renderAll : List Json → Str
  | [] => []
  | [x] => x.render
  | x :: y :: rest => x.render ++ str "," ++ renderAll (y :: rest)

def renderFields : List (Str × Json) → Str
  | [] => []
  | [(key, x)] => str "\"" ++ key ++ str "\":" ++ x.render
  | (key, x) :: y :: rest =>
      str "\"" ++ key ++ str "\":" ++ x.render ++ str "," ++ renderFields (y :: rest)
end

/-- The library on the texts of the values it is given. -/
def tableJson (known : List Json) : Picojson where
  parse body := known.find? fun value => value.render = body
  serialize := Json.render

def listingJson (files : List DriveFileMeta) : Json :=
  .object [(str "files", .array (files.map fileObject))]

-- ===================================================================== trees

/-- Nodes that make a tree below the folder `R`, each deeper than its parent. -/
abbrev FormTree (nodes : List Node) (depth : Str → Nat) : Prop :=
  (nodes.map (·.file.id)).Nodup ∧
    (∀ n ∈ nodes, ∀ m ∈ nodes, m.parent = n.file.id → n.file.isFolder = true) ∧
    (∀ n ∈ nodes, depth n.parent < depth n.file.id) ∧
    ∀ n ∈ nodes, n.file.id ≠ str "root"

/-- The tree of some nodes, its root `R` known as `root`. -/
def treeOf (nodes : List Node) (depth : Str → Nat) (h : FormTree nodes depth) : World where
  nodes
  rootId := str "R"
  rootAlias := str "root"
  unique_ids := h.1
  folders := h.2.1
  acyclic := ⟨depth, h.2.2.1⟩
  alias_free := .inr h.2.2.2

/-- What a removal to the trash takes, given as a list. -/
theorem removes_of_closed {w w' : World} {id : Str} (gone : List Str)
    (hthere : ∃ n ∈ w.nodes, n.file.id = id)
    (hclosed : id ∈ gone ∧ ∀ n ∈ w.nodes, n.parent ∈ gone → n.file.id ∈ gone)
    (hbeneath : ∀ x ∈ gone, x = id ∨ ∃ n ∈ w.nodes, n.file.id = x ∧ n.parent = id)
    (hbecomes : w.Becomes
      (w.nodes.map fun n => if n.file.id ∈ gone then { n with trashed := true } else n) w') :
    w.Removes id false w' := by
  refine ⟨hthere, fun x => decide (x ∈ gone), ?_, ?_⟩
  · intro x
    rw [decide_eq_true_eq]
    constructor
    · intro hx
      rcases hbeneath x hx with rfl | hx
      · exact .self
      · exact Beneath.self.inside hx
    · intro hx
      induction hx with
      | self => exact hclosed.1
      | inside _ hq ih =>
          obtain ⟨n, hn, rfl, hparent⟩ := hq
          exact hclosed.2 n hn (by rw [hparent]; exact ih)
  · rw [if_neg Bool.false_ne_true]
    simpa only [decide_eq_true_eq] using hbecomes

-- =================================================================== answers

/-- A reply that carries a value. -/
def reply (value : Json) : DriveResponse := { ok := true, httpStatus := 200, body := value.render }

/-- No connection. -/
def lost : Except Exn DriveResponse := .error (.io (str "could not resolve host"))

/-- The root as Drive reports it. -/
def World.rootFile (w : World) : DriveFileMeta :=
  { id := w.rootId, name := str "My Drive", mimeType := kFolderMimeType }

/-- What a lookup by id finds. -/
def World.lookedUp (w : World) (id : Str) : Option DriveFileMeta :=
  match w.nodes.find? fun n => n.file.id = w.deref id with
  | some n => some n.file
  | none => if w.deref id = w.rootId then some w.rootFile else none

def notFoundReply : DriveResponse :=
  { httpStatus := 404, error := { kind := .notFound, httpStatus := 404 } }

/-- The answer to a listing, where it can be read. -/
def servedList (pj : Picojson) (files : List DriveFileMeta) : Except Exn DriveResponse :=
  if parseFileList pj (listingJson files).render = some (files, []) then
    .ok (reply (listingJson files))
  else lost

/-- The answer to a lookup. -/
def servedFile (pj : Picojson) : Option DriveFileMeta → Except Exn DriveResponse
  | none => .ok notFoundReply
  | some file =>
      if parseFileMeta pj (fileObject file).render = some file then .ok (reply (fileObject file))
      else lost

def served (pj : Picojson) (w : World) : CallReq → Except Exn DriveResponse
  | .list query _ => servedList pj (w.listing query)
  | .getMetadata id => servedFile pj (w.lookedUp id)
  | _ => lost

theorem World.metadata_lookedUp {w : World} {id : Str} {file : DriveFileMeta}
    (h : w.lookedUp id = some file) : w.Metadata id file := by
  unfold World.lookedUp at h
  split at h
  · rename_i n hn
    cases h
    have hid := List.find?_some hn
    exact .inl ⟨n, List.mem_of_find?_eq_some hn, rfl, by simpa using hid⟩
  · rename_i hnone
    split at h
    · rename_i hroot
      cases h
      rw [List.find?_eq_none] at hnone
      exact .inr ⟨fun n hn => by simpa using hnone n hn, hroot, rfl, rfl⟩
    · cases h

theorem World.absent_lookedUp {w : World} {id : Str} (h : w.lookedUp id = none) : w.Absent id := by
  unfold World.lookedUp at h
  split at h
  · cases h
  · rename_i hnone
    split at h
    · cases h
    · rename_i hroot
      rw [List.find?_eq_none] at hnone
      exact ⟨hroot, fun n hn => by simpa using hnone n hn⟩

/-- A lost answer to a call that may fail. -/
theorem lost_truthful {pj : Picojson} {mayFail : CallReq → Prop} {w : World} {q : CallReq}
    (h : mayFail q) : treeRel pj mayFail w q lost w :=
  .inr (.inr ⟨h, nofun, .inl rfl⟩)

/-- What is served is the truth, or a failure. -/
theorem served_truthful (pj : Picojson) (w : World) (q : CallReq) :
    treeRel pj (fun _ => True) w q (served pj w q) w := by
  cases q with
  | list query token =>
      show treeRel pj _ w _ (servedList pj (w.listing query)) w
      unfold servedList
      split
      · rename_i hparse
        exact .inl ⟨_, rfl, rfl, rfl, hparse⟩
      · exact lost_truthful trivial
  | getMetadata id =>
      show treeRel pj _ w _ (servedFile pj (w.lookedUp id)) w
      cases hfile : w.lookedUp id with
      | none => exact .inr (.inl ⟨id, _, rfl, rfl, rfl, rfl, World.absent_lookedUp hfile, rfl⟩)
      | some file =>
          unfold servedFile
          simp only
          split
          · rename_i hparse
            exact .inl ⟨_, rfl, rfl, rfl, file, hparse, World.metadata_lookedUp hfile⟩
          · exact lost_truthful trivial
  | _ => exact lost_truthful trivial

-- ====================================================================== runs

/-- What becomes of a program that this Drive serves. -/
def servedRun {α : Type} (pj : Picojson) (w : World) (p : Prog Client α) : Prog Client α :=
  (p.play (fun w q => (served pj w q, w)) w).1

/-- Serving changes nothing. -/
theorem reaches_servedRun {α : Type} (pj : Picojson) (w : World) (p : Prog Client α) :
    Reaches (treeRel pj fun _ => True) p w (servedRun pj w p) w := by
  have hsame : (p.play (fun w q => (served pj w q, w)) w).2 = w := by
    induction p with
    | ret a => rfl
    | cut => rfl
    | ask q k ih => exact ih _
  have hrun := Prog.play_reaches (R := treeRel pj fun _ => True)
    (f := fun w q => (served pj w q, w)) (served_truthful pj) p w
  rw [hsame] at hrun
  exact hrun

/-- Every answer on the way is an answer. -/
def heard {α : Type} (pj : Picojson) (w : World) : Prog Client α → Bool
  | .ret _ => true
  | .cut => true
  | .ask q k =>
      match served pj w q with
      | .ok resp => heard pj w (k (.ok resp))
      | .error _ => false

/-- What is answered is the truth, whatever may fail. -/
theorem answered_truthful {pj : Picojson} {w : World} {mayFail : CallReq → Prop} {q : CallReq}
    {resp : DriveResponse} (h : served pj w q = .ok resp) : treeRel pj mayFail w q (.ok resp) w := by
  cases q with
  | list query token =>
      have hlist : servedList pj (w.listing query) = .ok resp := h
      unfold servedList at hlist
      split at hlist
      · rename_i hparse
        cases hlist
        exact .inl ⟨_, rfl, rfl, rfl, hparse⟩
      · cases hlist
  | getMetadata id =>
      have hlookup : servedFile pj (w.lookedUp id) = .ok resp := h
      cases hfile : w.lookedUp id with
      | none =>
          rw [hfile] at hlookup
          cases hlookup
          exact .inr (.inl ⟨id, _, rfl, rfl, rfl, rfl, World.absent_lookedUp hfile, rfl⟩)
      | some file =>
          rw [hfile] at hlookup
          unfold servedFile at hlookup
          simp only at hlookup
          split at hlookup
          · rename_i hparse
            cases hlookup
            exact .inl ⟨_, rfl, rfl, rfl, file, hparse, World.metadata_lookedUp hfile⟩
          · cases hlookup
  | _ => cases h

theorem reaches_heard {α : Type} {pj : Picojson} {w : World} {mayFail : CallReq → Prop}
    {p : Prog Client α} (h : heard pj w p = true) :
    Reaches (treeRel pj mayFail) p w (servedRun pj w p) w := by
  induction p with
  | ret a => exact .here _ _
  | cut => exact .here _ _
  | ask q k ih =>
      unfold heard at h
      split at h
      · rename_i resp hresp
        refine .step (answered_truthful hresp) ?_
        have hrun := ih (.ok resp) h
        rw [← hresp] at hrun ⊢
        exact hrun
      · cases h

/-- What a program ends with. -/
def ended {β : Type} : Prog Client β → Option β
  | .ret r => some r
  | _ => none

theorem eq_ret_of_ended {β : Type} {p : Prog Client β} {r : β} (h : ended p = some r) :
    p = .ret r := by
  cases p with
  | ret r' => rw [Option.some.inj h]
  | ask q k => cases h
  | cut => cases h

/-- Every answer of a Drive that changes on the way is an answer. -/
def answered {τ α : Type} (f : τ → (q : CallReq) → Except Exn DriveResponse × τ) :
    Prog Client α → τ → Bool
  | .ret _, _ => true
  | .cut, _ => true
  | .ask q k, t =>
      match (f t q).1 with
      | .ok resp => answered f (k (.ok resp)) (f t q).2
      | .error _ => false

/-- Where each answer is one that `R` allows, a play without failures is a run. -/
theorem reaches_answered {τ α : Type} {R : Rel Client World} {trees : τ → World}
    {f : τ → (q : CallReq) → Except Exn DriveResponse × τ}
    (hf : ∀ t q resp, (f t q).1 = .ok resp → R (trees t) q (.ok resp) (trees (f t q).2))
    {p : Prog Client α} {t : τ} (h : answered f p t = true) :
    Reaches R p (trees t) (p.play f t).1 (trees (p.play f t).2) := by
  induction p generalizing t with
  | ret a => exact .here _ _
  | cut => exact .here _ _
  | ask q k ih =>
      unfold answered at h
      split at h
      · rename_i resp hresp
        refine .step (hf t q resp hresp) ?_
        have hrun := ih (.ok resp) h
        rw [← hresp] at hrun ⊢
        exact hrun
      · cases h

end GDrive
