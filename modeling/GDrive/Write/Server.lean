/-
Drive as a write handle meets it: resumable sessions, creates and updates,
and every way a request's effect and its reply may come apart.

# What a request does

A request is taken `now`, `never`, or `later`: a request whose reply was
lost may still be applied at any later moment, before or after other
requests. `Serves` is its effect when it is applied. A session holds a
prefix of bytes: a data PUT that starts at the number of bytes held may
have any prefix of its body kept, everything else keeps nothing; it
publishes on a request with the total, when it holds exactly that many.

# What the replies promise

`driveRel` relates each wire request to its replies. A 308 reports what is
held, a 200 or 201 on a session means published; a create is answered 409
exactly when its id is in use, 200 only when it was applied, and
unauthenticated only when it was not; a generated id is not in use.
-/
import Mathlib.Logic.Function.Basic
import GDrive.Client.Retry

namespace GDrive

open Interaction

-- ================================================================== the state

structure DriveSession where
  /-- The file to overwrite; empty for a create. -/
  fileId : Str
  held : Str := []
  published : Bool := false

/-- One change of a file's content: a file created, or an existing one
overwritten. -/
structure Publication where
  created : Bool
  id : Str
  content : Str

/-- A request that may end in a publication. -/
inductive Upload
  | session (path : Str) (range : ContentRange) (data : Str)
  | create (metadata : RequestMetadata) (data : Str)
  | update (fileId data : Str)

structure Drive where
  /-- Ids in use before the handle was opened. -/
  existing : Str → Prop
  sessions : Str → Option DriveSession := fun _ => none
  /-- Requests that may still be applied. -/
  late : List Upload := []
  published : List Publication := []
  /-- The multipart creates received, with the replies they got. -/
  creates : List (RequestMetadata × RawResult) := []

def Drive.Used (w : Drive) (id : Str) : Prop :=
  w.existing id ∨ ∃ p ∈ w.published, p.created = true ∧ p.id = id

def Drive.setSession (w : Drive) (path : Str) (s : Option DriveSession) : Drive :=
  { w with sessions := Function.update w.sessions path s }

def Drive.publish (w : Drive) (p : Publication) : Drive :=
  { w with published := w.published ++ [p] }

-- ============================================================= a request's effect

/-- What a session makes of a request. -/
structure Keeps (s : DriveSession) (range : ContentRange) (data : Str) (s' : DriveSession) :
    Prop where
  file : s'.fileId = s.fileId
  kept : ∃ kept, kept <+: data ∧ s'.held = s.held ++ kept ∧
    (kept ≠ [] → ∃ last total, range = .bytes s.held.length last total)
  stays : s.published = true → s'.published = true
  total : s.published = false → s'.published = true → range.total = some s'.held.length

/-- The effect of a request that is applied. -/
inductive Serves (w : Drive) : Upload → Drive → Prop
  /-- A session that is not there (any more). -/
  | gone {path : Str} {range : ContentRange} {data : Str} :
      w.sessions path = none → Serves w (.session path range data) w
  | keep {path : Str} {range : ContentRange} {data : Str} {s s' : DriveSession} :
      w.sessions path = some s → Keeps s range data s' → s'.published = s.published →
      Serves w (.session path range data) (w.setSession path (some s'))
  | publish {path : Str} {range : ContentRange} {data : Str} {s s' : DriveSession} {id : Str} :
      w.sessions path = some s → Keeps s range data s' →
      s.published = false → s'.published = true →
      (if s.fileId = [] then ¬w.Used id else id = s.fileId) →
      Serves w (.session path range data)
        ((w.setSession path (some s')).publish ⟨s.fileId.isEmpty, id, s'.held⟩)
  | create {metadata : RequestMetadata} {data : Str} {id : Str} :
      (∀ reserved, metadata.id = some reserved → id = reserved) → ¬w.Used id →
      Serves w (.create metadata data) (w.publish ⟨true, id, data⟩)
  | duplicate {metadata : RequestMetadata} {data : Str} {id : Str} :
      metadata.id = some id → w.Used id → Serves w (.create metadata data) w
  | update {fileId data : Str} :
      Serves w (.update fileId data) (w.publish ⟨false, fileId, data⟩)

/-- Some of the late requests are applied, in any order. -/
inductive Lates : Drive → Drive → Prop
  | refl (w : Drive) : Lates w w
  | step {w w₁ w₂ : Drive} {l₁ l₂ : List Upload} {r : Upload} :
      w.late = l₁ ++ r :: l₂ → Serves { w with late := l₁ ++ l₂ } r w₁ → Lates w₁ w₂ →
      Lates w w₂

inductive Timing
  | now
  | never
  | later
  deriving DecidableEq

def Drive.delay (w : Drive) (r : Upload) : Drive := { w with late := w.late ++ [r] }

def Takes (w : Drive) (r : Upload) : Timing → Drive → Prop
  | .now, w' => Serves w r w'
  | .never, w' => w' = w
  | .later, w' => w' = w.delay r

-- ================================================================== the replies

/-- A reply that is no success and is classified unauthenticated. -/
def Unauthenticated (pj : Picojson) (raw : RawResult) : Prop :=
  raw.transportOk = true ∧ raw.status ≠ 200 ∧ (errorOf pj raw).kind = .unauthenticated

/-- Serving an API request. A write handle sends no other ones that would
change anything. -/
def ServesOp (pj : Picojson) (w : Drive) (op : DriveOp) (raw : RawResult) (w' : Drive) : Prop :=
  match op with
  | .startSession fileId _ _ =>
      (w' = w ∧ (raw.is 200 → driveSessionPath raw.location = none)) ∨
      ∃ path, w.sessions path = none ∧ w' = w.setSession path (some { fileId }) ∧
        (raw.is 200 → ∀ path', driveSessionPath raw.location = some path' → path' = path)
  | .createMultipart metadata _ data =>
      ∃ timing w₁, Takes w (.create metadata data) timing w₁ ∧
        w' = { w₁ with creates := w₁.creates ++ [(metadata, raw)] } ∧
        (raw.is 200 → timing = .now) ∧ (Unauthenticated pj raw → timing = .never) ∧
        (raw.transportOk = true →
          (raw.status = 409 ↔ ∃ id, metadata.id = some id ∧ w.Used id))
  | .updateMultipart fileId _ _ data =>
      ∃ timing, Takes w (.update fileId data) timing w' ∧ (raw.is 200 → timing = .now)
  | .generateIds =>
      w' = w ∧ (raw.is 200 → ∀ id, parseGeneratedFileId pj raw.body = some id → ¬w.Used id)
  | _ => w' = w

/-- Drive behind the wire. -/
def driveRel (pj : Picojson) : Rel Wire Drive
  | w, .session path range data, (raw : RawResult), w' =>
      ∃ w₁ timing, Lates w w₁ ∧ Takes w₁ (.session path range data) timing w' ∧
        (raw.is 308 → ∀ s, w'.sessions path = some s → raw.range = rangeText s.held.length) ∧
        (raw.is 200 ∨ raw.is 201 → ∃ s, w'.sessions path = some s ∧ s.published = true)
  | w, .http _ op, (raw : RawResult), w' => ∃ w₁, Lates w w₁ ∧ ServesOp pj w₁ op raw w'
  | w, .cancelSession path, _, w' =>
      ∃ w₁, Lates w w₁ ∧ (w' = w₁ ∨ w' = w₁.setSession path none)
  | w, .token, _, w' => w' = w
  | w, .refresh _, _, w' => w' = w
  | w, .sleep _ _, _, w' => w' = w

theorem driveRel_quiet (pj : Picojson) : QuietRel (driveRel pj) := by
  intro w q ans w' hq hw
  cases q with
  | token => exact hw
  | refresh => exact hw
  | sleep => exact hw
  | http => cases hq
  | session => cases hq
  | cancelSession => cases hq

end GDrive
