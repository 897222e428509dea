/-
A file system with its open handles, over whole runs: lookups, opens, reads,
writes and closes of one identity, with any number of handles open at once.

# What is kept

The tree only grows (`World.Extends`), so the path cache keeps agreeing with
it. What more is known of its entries and its metadata (`X`, `Y`), and what
holds of the tree (`J`), is kept where it is kept by each change that the
operations make (`Tracking`).

# The handles

A read touches the path cache only to recover a handle whose file went away.
A write opens at most one session at a time, for what its handle was opened
for (`WriteHandle.target`), and a close publishes that or what the session
was opened for; neither renames a file.
-/
import GDrive.Fs.FolderWalk
import GDrive.Fs.Lookups
import GDrive.Fs.Open

namespace GDrive

open Interaction Naming

-- ================================================================ the operations

/-- The file system, and what was opened in it, in order. -/
structure OpenFiles where
  fs : Fs := {}
  readers : List ReadHandle := []
  writers : List WriteHandle := []

abbrev FilesCode (α : Type) := Code Client Exn OpenFiles α

namespace OpenFiles

def onFs {α : Type} (c : FsCode α) : FilesCode α :=
  Code.zoom OpenFiles.fs (fun fs s => { s with fs }) c

/-- An operation on the `k`-th handle opened for reading. -/
def onReader (k : Nat) (c : ReadCode Unit) : FilesCode Unit :=
  fun s =>
    match s.readers[k]? with
    | some handle => (c { fs := s.fs, handle }).bind fun r =>
        .ret (r.1, { s with fs := r.2.fs, readers := s.readers.set k r.2.handle })
    | none => .ret (.ok (), s)

/-- An operation on the `k`-th handle opened for writing. -/
def onWriter (k : Nat) (c : WriteCode Unit) : FilesCode Unit :=
  fun s =>
    match s.writers[k]? with
    | some handle => (c handle).bind fun r =>
        .ret (r.1, { s with writers := s.writers.set k r.2 })
    | none => .ret (.ok (), s)

end OpenFiles

inductive AccessOp
  | lookup (op : LookupOp)
  | openForReading (o : Opener) (path : Str) (nullIfNotExists : Bool)
  | readAt (k thread : Nat) (nrBytes : Int) (location : Nat)
  | readNext (k thread : Nat) (nrBytes : Int)
  | seek (k location : Nat)
  | openForWriting (o : Opener) (path : Str)
  | write (k : Nat) (data : Str)
  | close (k : Nat)

namespace AccessOp

section Body

variable (signed : Bool) (pj : Picojson) (rounds : Nat)

/-- The code that an operation runs. -/
def body : AccessOp → FilesCode Unit
  | .lookup op => OpenFiles.onFs (Fs.onCache (op.body signed pj rounds))
  | .openForReading o path nullIfNotExists => do
      let opened ← OpenFiles.onFs (openFileForReading pj rounds o path nullIfNotExists)
      Code.modify fun s => { s with readers := s.readers ++ opened.toList }
  | .readAt k thread nrBytes location => OpenFiles.onReader k do
      let _ ← GDrive.readAt pj rounds thread nrBytes location
      pure ()
  | .readNext k thread nrBytes => OpenFiles.onReader k do
      let _ ← GDrive.readNext pj rounds thread nrBytes
      pure ()
  | .seek k location => OpenFiles.onReader k (GDrive.seek location)
  | .openForWriting o path => do
      let handle ← OpenFiles.onFs (Fs.onCache (openFileForWriting pj rounds o path))
      Code.modify fun s => { s with writers := s.writers ++ [handle] }
  | .write k data => OpenFiles.onWriter k (GDrive.write data)
  | .close k => OpenFiles.onWriter k (GDrive.close pj)

end Body

end AccessOp

-- ===================================================================== the reads

section Reads

variable {pj : Picojson} {rounds thread : Nat} {auth : AuthContext} {mayFail : CallReq → Prop}
  {R : Rel Client World} {X : DriveFileMeta → Nat → Prop}
  {Y : Nat → Str → DriveFileMeta → Prop} {w : World}

/-- A handle of the identity, over a cache that agrees with the tree. -/
def ReadsIn (w : World) (auth : AuthContext) (X : DriveFileMeta → Nat → Prop)
    (Y : Nat → Str → DriveFileMeta → Prop) (r : Reader) (w' : World) : Prop :=
  Mirrored w auth X Y r.fs.cache w' ∧ r.handle.auth = auth

/-- A change of neither the path cache nor the handle's identity. -/
theorem keeps_adjust {f : Reader → Reader}
    (hf : ∀ r, (f r).fs.cache = r.fs.cache ∧ (f r).handle.auth = r.handle.auth) :
    Code.Keeps (globEnv R) (ReadsIn w auth X Y) (Code.modify f : ReadCode Unit) := by
  refine Code.keeps_modify ?_
  intro r w' h
  unfold ReadsIn
  rw [(hf r).1, (hf r).2]
  exact h

theorem keeps_markWrapped (b : Bool) :
    Code.Keeps (globEnv R) (ReadsIn w auth X Y) (markWrapped b) :=
  Code.Keeps.when b (keeps_adjust fun _ => ⟨rfl, rfl⟩)

theorem keeps_index (n : Int) : Code.Keeps (globEnv R) (ReadsIn w auth X Y) (index n) :=
  (keeps_markWrapped _).bind fun _ => Code.keeps_pure _

theorem keeps_offset (n : Int) : Code.Keeps (globEnv R) (ReadsIn w auth X Y) (offset n) :=
  (keeps_markWrapped _).bind fun _ => Code.keeps_pure _

theorem keeps_divideIndex (a b : Nat) :
    Code.Keeps (globEnv R) (ReadsIn w auth X Y) (divideIndex a b) :=
  (keeps_markWrapped _).bind fun _ => Code.keeps_pure _

/-- A download changes nothing. -/
theorem keeps_download (hR : ∀ w q r w', R w q r w' → treeRel pj mayFail w q r w') (id : Str)
    (first last : Int) :
    Code.Keeps (globEnv R) (ReadsIn w auth X Y) (call (.download id first last)) := by
  intro r w' h
  rw [wp_call]
  refine ⟨trivial, ?_⟩
  intro resp w'' hr
  have hsame : w'' = w' := by
    rcases hR _ _ _ _ hr with ⟨resp, -, -, hw⟩ | ⟨id, resp, hq, -⟩ | ⟨-, -, hw | ⟨resp, hw⟩⟩
    · exact hw
    · cases hq
    · exact hw
    · exact hw
  rw [hsame]
  exact h

theorem keeps_fetchBlock (hR : ∀ w q r w', R w q r w' → treeRel pj mayFail w q r w')
    (start len : Nat) : Code.Keeps (globEnv R) (ReadsIn w auth X Y) (fetchBlock start len) := by
  unfold fetchBlock
  refine .of_get fun r w' _ => (keeps_offset _).bind fun first => (keeps_offset _).bind fun last =>
    (keeps_download hR _ _ _).bind fun resp => Code.Keeps.bind ?_ fun _ => ?_
  · refine Code.Keeps.when _ (Code.Keeps.bind ?_ fun _ => Code.keeps_throw _)
    exact Code.Keeps.when _ (keeps_adjust fun _ => ⟨rfl, rfl⟩)
  · split
    · split
      · exact Code.keeps_throw _
      · exact Code.keeps_pure _
    · exact Code.keeps_pure _

theorem keeps_getBlock (hR : ∀ w q r w', R w q r w' → treeRel pj mayFail w q r w') (key : Str)
    (blockIndex blockSize fileSize : Nat) :
    Code.Keeps (globEnv R) (ReadsIn w auth X Y)
      (getBlock Reader.blocks Reader.setBlocks key blockIndex blockSize fileSize fetchBlock) := by
  refine .of_get fun r w' _ => Code.Keeps.bind (keeps_adjust fun _ => ⟨rfl, rfl⟩) fun _ => ?_
  split
  · exact Code.keeps_pure _
  · exact Code.keeps_cut fun _ => trivial
  · refine Code.Keeps.bind ((keeps_fetchBlock hR _ _).onError ?_) fun data => ?_
    · exact keeps_adjust fun _ => ⟨rfl, rfl⟩
    · exact Code.Keeps.bind (keeps_adjust fun _ => ⟨rfl, rfl⟩) fun _ =>
        Code.Keeps.bind (keeps_adjust fun _ => ⟨rfl, rfl⟩) fun _ => Code.keeps_pure _

theorem keeps_readBlocks (hR : ∀ w q r w', R w q r w' → treeRel pj mayFail w q r w')
    (rounds remaining pos : Nat) :
    Code.Keeps (globEnv R) (ReadsIn w auth X Y) (readBlocks rounds remaining pos) := by
  induction rounds generalizing remaining pos with
  | zero =>
      cases remaining with
      | zero => exact Code.keeps_pure _
      | succ remaining => exact Code.keeps_cut fun _ => trivial
  | succ rounds ih =>
      cases remaining with
      | zero => exact Code.keeps_pure _
      | succ remaining =>
          unfold readBlocks
          refine .of_get fun r w' _ => (keeps_divideIndex _ _).bind fun blockIndex =>
            (keeps_index _).bind fun start => (keeps_getBlock hR _ _ _ _).bind fun block =>
            (keeps_index _).bind fun within => ?_
          split
          · exact Code.keeps_throw _
          · exact (keeps_index _).bind fun left => (keeps_index _).bind fun next =>
              (ih left next).bind fun rest => Code.keeps_pure _

/-- The recovery of a handle whose file went away resolves its path anew. -/
theorem keeps_tryRecoverStaleHandle (hR : ∀ w q r w', R w q r w' → treeRel pj mayFail w q r w')
    (hrounds : 1 ≤ rounds) (hs : SoundFacts w mayFail X Y)
    (hroot : rootFolderFor auth = w.rootAlias) :
    Code.Keeps (globEnv R) (ReadsIn w auth X Y) (tryRecoverStaleHandle pj rounds thread) := by
  unfold tryRecoverStaleHandle
  refine .of_get fun r w' h => ?_
  obtain ⟨-, rfl⟩ := h
  split
  · exact Code.keeps_pure _
  · exact Code.keeps_pure _
  · rename_i segments hparse
    have honCache : ∀ {α : Type} {code : CacheCode α},
        Code.Keeps (globEnv R) (Mirrored w r.handle.auth X Y) code →
        Code.Keeps (globEnv R) (ReadsIn w r.handle.auth X Y) (onCache code) := by
      intro α code hcode s w'' h
      unfold onCache
      rw [Code.wp_zoom]
      refine Code.wp_mono (hcode _ _ h.1) ?_
      intro out c' w''' h'
      exact ⟨h', h.2⟩
    refine (honCache (Code.keeps_modify fun c w'' h => ⟨h.1, h.2.invalidatePrefix _⟩)).bind
      fun _ => Code.Keeps.bind (honCache ?_) fun found => ?_
    · exact keeps_tryResolvePath (o := { auth := r.handle.auth, thread }) hR hrounds hs hroot
        (clean_of_parse hparse)
    · split
      · exact Code.keeps_pure _
      · split
        · exact Code.keeps_pure _
        · exact Code.Keeps.bind (keeps_adjust fun _ => ⟨rfl, rfl⟩) fun _ => Code.keeps_pure _

theorem keeps_recoverIf (hR : ∀ w q r w', R w q r w' → treeRel pj mayFail w q r w')
    (hrounds : 1 ≤ rounds) (hs : SoundFacts w mayFail X Y)
    (hroot : rootFolderFor auth = w.rootAlias)
    (notFound : Bool) :
    Code.Keeps (globEnv R) (ReadsIn w auth X Y) (recoverIf pj rounds thread notFound) := by
  unfold recoverIf
  split
  · exact keeps_tryRecoverStaleHandle hR hrounds hs hroot
  · exact Code.keeps_pure _

theorem keeps_readAt (hR : ∀ w q r w', R w q r w' → treeRel pj mayFail w q r w')
    (hrounds : 1 ≤ rounds) (hs : SoundFacts w mayFail X Y)
    (hroot : rootFolderFor auth = w.rootAlias)
    (nrBytes : Int) (location : Nat) :
    Code.Keeps (globEnv R) (ReadsIn w auth X Y) (readAt pj rounds thread nrBytes location) := by
  have hmark : ∀ b, Code.Keeps (globEnv R) (ReadsIn w auth X Y)
      (Code.modify fun r : Reader => { r with notFound := b }) :=
    fun b => keeps_adjust fun _ => ⟨rfl, rfl⟩
  have hfinish : ∀ path resp, Code.Keeps (globEnv R) (ReadsIn w auth X Y)
      (finishExactRange path nrBytes location resp) :=
    fun path resp => ((Code.keeps_throw _).when _).bind fun _ => Code.keeps_ofExcept _
  unfold readAt
  refine .of_get fun r w' _ => ?_
  simp only
  split
  · exact Code.keeps_pure _
  · split
    · exact Code.keeps_ofExcept _
    · split
      · exact Code.keeps_throw _
      · split
        · refine (hmark false).bind fun _ => Code.Keeps.tryCatch (keeps_readBlocks hR _ _ _)
            fun e => .of_get fun r w' _ => (keeps_recoverIf hR hrounds hs hroot _).bind
            fun recovered => ?_
          split
          · exact (hmark false).bind fun _ => keeps_readBlocks hR _ _ _
          · exact Code.keeps_throw _
        · refine .of_get fun r w' _ => (keeps_offset _).bind fun last =>
            (keeps_download hR _ _ _).bind fun resp =>
            (keeps_recoverIf hR hrounds hs hroot _).bind fun recovered => ?_
          split
          · exact .of_get fun again w' _ => (keeps_download hR _ _ _).bind fun resp => hfinish _ _
          · exact hfinish _ _

theorem keeps_readNext (hR : ∀ w q r w', R w q r w' → treeRel pj mayFail w q r w')
    (hrounds : 1 ≤ rounds) (hs : SoundFacts w mayFail X Y)
    (hroot : rootFolderFor auth = w.rootAlias)
    (nrBytes : Int) :
    Code.Keeps (globEnv R) (ReadsIn w auth X Y) (readNext pj rounds thread nrBytes) := by
  unfold readNext
  refine .of_get fun r w' _ => ?_
  simp only
  generalize min (castIndex r.handle.file.size - r.handle.position) (castIndex nrBytes) = toRead
  split
  · exact Code.keeps_pure _
  · generalize castOffset toRead = count
    refine Code.Keeps.bind (keeps_readAt hR hrounds hs hroot count _) fun bytes =>
      Code.Keeps.bind (keeps_index _) fun next => ?_
    exact Code.Keeps.bind (keeps_adjust fun _ => ⟨rfl, rfl⟩) fun _ => Code.keeps_pure _

end Reads

end GDrive
