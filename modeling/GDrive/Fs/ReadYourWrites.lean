/-
Read your writes.

# Before

A cache that agrees with the tree knows of objects in it only (`InTree`), so
of a file that a `Close` makes it knows nothing.

# After

Once published, the file is in the tree under the metadata that the handle
keeps. Entries and metadata of earlier queries may still have what it was
before: they are not believed by an open of a query that has seen neither
(`PathCache.Unseen`), and what that query lists and looks up has the file as
it is (`ShowsEntry`, `ShowsMetadata`), while nobody else publishes it.
-/
import GDrive.Fs.OpenRun

namespace GDrive

open Interaction

-- ====================================================================== before

/-- An object of the tree, or the root. -/
def InTree (w : World) (_ : Nat) (id : Str) (file : DriveFileMeta) : Prop :=
  file.id = w.deref id ∧ (file.id = w.rootId ∨ ∃ n ∈ w.nodes, n.file.id = file.id)

/-- The file is in the tree. -/
def World.Shows (w : World) (f : DriveFileMeta) : Prop := ∃ n ∈ w.nodes, n.file = f

/-- An entry that `query` may believe has the file as it is. -/
def ShowsEntry (f : DriveFileMeta) (query : Nat) (_ : World) (file : DriveFileMeta) (g : Nat) :
    Prop :=
  g = query → query ≠ 0 → query ≠ maximumQueryId → file.id = f.id → file = f

/-- So has the metadata of `query`. -/
def ShowsMetadata (f : DriveFileMeta) (query : Nat) (w : World) (g : Nat) (id : Str)
    (file : DriveFileMeta) : Prop :=
  file.id = w.deref id ∧ (g = query → query ≠ 0 → file.id = f.id → file = f)

section After

variable {w w' : World} {f file : DriveFileMeta} {query : Nat} {id : Str}

theorem World.Shows.unique (h : w.Shows f) {n : Node} (hn : n ∈ w.nodes) (hid : n.file.id = f.id) :
    n.file = f := by
  obtain ⟨m, hm, rfl⟩ := h
  rw [World.node_unique hn hm hid]

/-- What Drive says of the file is what the tree has. -/
theorem World.Shows.metadata (h : w.Shows f) (hmeta : w.Metadata id file) (hid : file.id = f.id) :
    file = f := by
  rcases hmeta with ⟨n, hn, rfl, -⟩ | ⟨hnone, hroot, hfile, -⟩
  · exact h.unique hn hid
  · obtain ⟨m, hm, rfl⟩ := h
    exact absurd (hid.symm.trans (hfile.trans hroot.symm)) (hnone m hm)

end After

-- ==================================================================== the open

/-- A URI that leads to an object: by its id, or by a path of which it is the
one that an uncached resolution finds. -/
def World.Addresses (w : World) (uri : GDriveUri) (id : Str) : Prop :=
  match uri with
  | .fileId text => text = id
  | .path segments =>
    ∃ file, w.plain uri.toString w.rootId segments = .ok (some file) ∧ file.id = id

section Opens

variable {pj : Picojson} {rounds : Nat} {mayFail : CallReq → Prop} {R : Rel Client World}
  {w : World} {o : Opener} {f file : DriveFileMeta} {c : PathCache}

theorem World.Shows.deref (h : w.Shows f) : w.deref f.id = f.id := by
  obtain ⟨n, hn, rfl⟩ := h
  exact World.deref_node hn

/-- An object at a path is the one that an uncached resolution finds there. -/
theorem World.Names.same {ctx : Str} {segments : List Str} {found : DriveFileMeta}
    (h : w.Names segments file) (hplain : w.plain ctx w.rootId segments = .ok (some found)) :
    SameObject found file ∧ ∃ n ∈ w.nodes, n.file = found := by
  obtain ⟨init, s, p, rfl, hp, ⟨x, hx, hsame⟩, -⟩ := h
  rw [World.plain_below hp, World.plain] at hplain
  split at hplain
  · cases hplain
  · rename_i only honly
    cases hplain
    obtain ⟨n, hn, hnode, -⟩ := World.mem_children.mp (World.mem_named.mp hx).1
    rw [honly, List.mem_singleton] at hx
    rw [← hx]
    exact ⟨hsame, n, hn, hnode⟩
  · cases hplain

end Opens

-- ================================================================= the whole run

/-- Nothing of the file is cached that was listed or looked up in `query`. -/
structure PathCache.Unseen (c : PathCache) (query : Nat) (id : Str) : Prop where
  entries : ∀ {k e}, c.entries.lookup k = some e → e.freshGeneration = query → e.file.id ≠ id
  metadata : ∀ {k file}, c.metadataGeneration = query →
    c.metadataEntries.lookup k = some file → file.id ≠ id

section Run

variable {signed : Bool} {pj : Picojson} {rounds : Nat} {auth : AuthContext}
  {mayFail : CallReq → Prop} {start w w' : World} {s s' : OpenFiles}

/-- What is known of the cache once a file has been published: of a new one
nothing is cached, of an old one nothing that `query` has seen. -/
theorem CacheInv.published {c : PathCache} {u : OpenUpload} {size query : Nat}
    {f : DriveFileMeta}
    (h : CacheInv w auth (fun file _ => ∃ n ∈ w.nodes, n.file.id = file.id) (InTree w) c)
    (hpublishes : w.Publishes u false size f w') (hgrows : w.Extends w')
    (hunseen : u.fileId ≠ [] → c.Unseen query u.fileId) :
    CacheInv w' auth (ShowsEntry f query w') (ShowsMetadata f query w') c := by
  obtain ⟨-, -, -, hplace⟩ := hpublishes
  refine ⟨fun hsegs he => (h.names hsegs he).extends hgrows, ?_, ?_⟩
  · intro k e he hquery _ _ hid
    exfalso
    split at hplace
    · obtain ⟨n, hn, hn'⟩ := h.stamps he
      exact (hplace.2.1.2.2 n hn).1 (hn'.trans hid)
    · rename_i hold
      exact (hunseen (by simpa using hold)).entries he hquery (hid.trans hplace.1)
  · intro id file hfile
    obtain ⟨hsame, htree⟩ := h.looked hfile
    refine ⟨hsame.trans (hgrows.deref id).symm, ?_⟩
    intro hquery _ hid
    exfalso
    split at hplace
    · obtain ⟨hroot, -, hfree⟩ := hplace.2.1
      rcases htree with htree | ⟨n, hn, hn'⟩
      · exact hroot (hid.symm.trans htree)
      · exact (hfree n hn).1 (hn'.trans hid)
    · rename_i hold
      exact (hunseen (by simpa using hold)).metadata hquery hfile (hid.trans hplace.1)

end Run

-- ============================================================== a file edited

section Edited

end Edited

end GDrive
