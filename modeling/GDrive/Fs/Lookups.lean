/-
What lookups leave in the path cache.

Resolving, globbing, listing, asking whether something exists and opening
for reading ask Drive and change nothing there. From a cache that agrees
with the tree they leave one that does (`Mirrored`), and keep what is known
of entries and of metadata where it holds of all that Drive says and all
that a refresh falls back to (`SoundFacts`). What they come to is not said here.
An entry under a key that is no canonical path, as a glob with runs of
slashes makes, is under no path's key, and nothing is said of it.
-/
import GDrive.Fs.GlobRun
import GDrive.Fs.Mutate

namespace GDrive

open Interaction Naming

/-- The tree is `w`, and the cache agrees with it. -/
def Mirrored (w : World) (auth : AuthContext) (X : DriveFileMeta → Nat → Prop)
    (Y : Nat → Str → DriveFileMeta → Prop) (c : PathCache) (w' : World) : Prop :=
  w' = w ∧ CacheInv w auth X Y c

/-- Facts that hold of what Drive says, and of what a failed refresh falls
back to. -/
structure SoundFacts (w : World) (mayFail : CallReq → Prop) (X : DriveFileMeta → Nat → Prop)
    (Y : Nat → Str → DriveFileMeta → Prop) : Prop extends Knows w X Y where
  back : ∀ {file} g, KnownAs w 0 file.id file → mayFail (.getMetadata file.id) → Y g file.id file

section Lookups

variable {signed : Bool} {pj : Picojson} {rounds : Nat} {mayFail : CallReq → Prop}
  {R : Rel Client World} {w : World} {o : Opener} {X : DriveFileMeta → Nat → Prop}
  {Y : Nat → Str → DriveFileMeta → Prop}

theorem knows_known (w : World) : Knows w (fun _ _ => True) (KnownAs w) := by
  refine ⟨⟨fun _ _ => trivial, (truths_known w).looked⟩, ?_⟩
  intro g id file ⟨f, hmeta, hsame, _⟩
  exact hsame.symm.trans hmeta.id_eq

theorem sound_known (w : World) (mayFail : CallReq → Prop) :
    SoundFacts w mayFail (fun _ _ => True) (KnownAs w) :=
  ⟨knows_known w, fun _ hfile _ => hfile⟩

-- ================================================================== resolutions

theorem keeps_tryResolvePath (hR : ∀ w q r w', R w q r w' → treeRel pj mayFail w q r w')
    (hrounds : 1 ≤ rounds) (hs : SoundFacts w mayFail X Y)
    (hroot : rootFolderFor o.auth = w.rootAlias) {uri : GDriveUri} (huri : uri.Clean) :
    Code.Keeps (globEnv R) (Mirrored w o.auth X Y)
      (tryResolvePath pj rounds o.thread o.auth uri) := by
  intro c w' ⟨hw, h⟩
  subst hw
  refine wp_glob (Code.wp_mono
    (wp_tryResolvePath hR hrounds hs.toTruths hroot huri h) ?_)
  intro out c' w' ⟨hw, h', _⟩
  exact ⟨hw, h'⟩

theorem keeps_resolvePath (hR : ∀ w q r w', R w q r w' → treeRel pj mayFail w q r w')
    (hrounds : 1 ≤ rounds) (hs : SoundFacts w mayFail X Y)
    (hroot : rootFolderFor o.auth = w.rootAlias) {uri : GDriveUri} (huri : uri.Clean) :
    Code.Keeps (globEnv R) (Mirrored w o.auth X Y) (resolvePath pj rounds o.thread o.auth uri) := by
  refine (keeps_tryResolvePath hR hrounds hs hroot huri).bind fun found => ?_
  cases found with
  | none => exact Code.keeps_throw _
  | some hit => exact Code.keeps_pure _

/-- What a path resolves to, and where it stands. -/
theorem wp_tryResolvePath_stands (hR : ∀ w q r w', R w q r w' → treeRel pj mayFail w q r w')
    (hrounds : 1 ≤ rounds) (hs : SoundFacts w mayFail X Y)
    (hroot : rootFolderFor o.auth = w.rootAlias)
    {segments : List Str} (hsegs : ∀ s ∈ segments, Segment s) {c : PathCache}
    (h : Mirrored w o.auth X Y c w) :
    Code.wp (globEnv R) (tryResolvePath pj rounds o.thread o.auth (.path segments))
      (fun out c' w' => Mirrored w o.auth X Y c' w' ∧
        ∀ file fresh, out = .ok (some (file, fresh)) →
          w.At segments (w.deref file.id) ∧ KnownAs w 0 file.id file) c w := by
  refine wp_glob ?_
  match segments with
  | [] =>
      refine Code.wp_mono (wp_tryResolvePath_root (c := c) hR hroot) ?_
      intro out c' w' ⟨hw, hc, hout⟩
      rw [hc]
      refine ⟨⟨hw, h.2⟩, ?_⟩
      intro file fresh hfile
      rcases hout with ⟨file', hout, hmeta⟩ | ⟨-, e, hout⟩
      · rw [hfile] at hout
        cases hout
        refine ⟨hmeta.at_root, file, ?_, rfl, rfl⟩
        have hid : w.deref file.id = w.deref w.rootAlias := by
          rw [hmeta.id_eq, World.deref_alias]
          exact World.deref_folderAt (a := []) rfl
        unfold World.Metadata at hmeta ⊢
        rw [hid]
        exact hmeta
      · rw [hfile] at hout
        cases hout
  | s :: rest =>
      refine Code.wp_mono (wp_tryResolvePath_path hR hrounds hs.toTruths hroot
        (List.cons_ne_nil _ _) hsegs h.2) ?_
      intro out c' w' ⟨hw, h', _, hout⟩
      refine ⟨⟨hw, h'⟩, ?_⟩
      intro file fresh hfile
      rw [hfile] at hout
      obtain ⟨hnames, -⟩ := hout
      refine ⟨hnames.at, ?_⟩
      obtain ⟨init, last, p, -, -, ⟨f, hf, hsame⟩, -⟩ := hnames
      obtain ⟨n, hn, rfl, -⟩ := World.mem_children.mp (World.mem_named.mp hf).1
      refine ⟨n.file, .inl ⟨n, hn, rfl, ?_⟩, hsame⟩
      rw [← hsame.1, World.deref_node hn]

theorem keeps_parsedUri {β : Type} {path : Str} {f : GDriveUri → CacheCode β}
    (hf : ∀ uri, parseGDriveUri path = .ok uri →
      Code.Keeps (globEnv R) (Mirrored w o.auth X Y) (f uri)) :
    Code.Keeps (globEnv R) (Mirrored w o.auth X Y) (parsedUri path >>= f) := by
  unfold parsedUri
  split
  · exact fun _ _ h => h
  · rename_i uri hparse
    exact hf uri hparse

theorem keeps_checkedUri {β : Type} {path : Str} {f : GDriveUri → CacheCode β}
    (hf : ∀ uri, parseGDriveUri path = .ok uri →
      Code.Keeps (globEnv R) (Mirrored w o.auth X Y) (f uri)) :
    Code.Keeps (globEnv R) (Mirrored w o.auth X Y) (checkedUri o path >>= f) := by
  unfold checkedUri
  split
  · exact fun _ _ h => h
  · rename_i uri hparse
    split
    · exact hf uri hparse
    · exact fun _ _ h => h

-- ==================================================================== existence

theorem keeps_fileExists (hR : ∀ w q r w', R w q r w' → treeRel pj mayFail w q r w')
    (hrounds : 1 ≤ rounds) (hs : SoundFacts w mayFail X Y)
    (hroot : rootFolderFor o.auth = w.rootAlias) (filename : Str) :
    Code.Keeps (globEnv R) (Mirrored w o.auth X Y) (fileExists pj rounds o filename) := by
  unfold fileExists
  split
  · rename_i uri _ hparse
    exact (keeps_tryResolvePath hR hrounds hs hroot (clean_of_parse hparse)).bind fun found =>
      Code.keeps_pure _
  · exact Code.keeps_pure _

theorem keeps_directoryExists (hR : ∀ w q r w', R w q r w' → treeRel pj mayFail w q r w')
    (hrounds : 1 ≤ rounds) (hs : SoundFacts w mayFail X Y)
    (hroot : rootFolderFor o.auth = w.rootAlias) (directory : Str) :
    Code.Keeps (globEnv R) (Mirrored w o.auth X Y) (directoryExists pj rounds o directory) := by
  unfold directoryExists
  split
  · exact Code.keeps_pure _
  · rename_i uri _ _ hparse
    exact (keeps_tryResolvePath hR hrounds hs hroot (clean_of_parse hparse)).bind fun found =>
      Code.keeps_pure _
  · exact Code.keeps_pure _

theorem keeps_listFiles (hR : ∀ w q r w', R w q r w' → treeRel pj mayFail w q r w')
    (hrounds : 1 ≤ rounds) (hs : SoundFacts w mayFail X Y)
    (hroot : rootFolderFor o.auth = w.rootAlias) (directory : Str) :
    Code.Keeps (globEnv R) (Mirrored w o.auth X Y) (listFiles pj rounds o directory) := by
  unfold listFiles
  split
  · rename_i uri _ hparse
    have hfolder : Code.Keeps (globEnv R) (Mirrored w o.auth X Y)
        (listedFolder pj rounds o directory uri) := by
      unfold listedFolder
      split
      · exact Code.keeps_pure _
      · refine (keeps_resolvePath hR hrounds hs hroot (clean_of_parse hparse)).bind fun folder => ?_
        exact ((Code.keeps_throw _).when _).bind fun _ => Code.keeps_pure _
    refine hfolder.bind fun folderId => Code.Keeps.bind ?_ fun children => Code.keeps_pure _
    intro c w' ⟨hw, h⟩
    subst hw
    refine wp_glob (Code.wp_mono (wp_listChildren hR hrounds _ _ _) ?_)
    intro out c' w' ⟨hc, hw, _⟩
    rw [hc]
    exact ⟨hw, h⟩
  · exact Code.keeps_pure _

-- ============================================================== opening to read

theorem keeps_beginQuery : Code.Keeps (globEnv R) (Mirrored w o.auth X Y) (beginQuery o) := by
  refine (Code.keeps_modify ?_).bind fun _ => Code.keeps_modify ?_
  · exact fun c w' h => ⟨h.1, h.2.beginQuery _ _⟩
  · exact fun c w' h => ⟨h.1, h.2.setMaxEntries _⟩

/-- The refresh of a file that is in the tree. -/
theorem keeps_refreshLeaf (hR : ∀ w q r w', R w q r w' → treeRel pj mayFail w q r w')
    (hs : SoundFacts w mayFail X Y) {file : DriveFileMeta} (hfile : KnownAs w 0 file.id file) :
    Code.Keeps (globEnv R) (Mirrored w o.auth X Y) (refreshLeaf pj o file) := by
  intro c w' ⟨hw, h⟩
  subst hw
  unfold refreshLeaf
  refine wp_glob (Code.wp_mono (wp_getOrFetchMetadata (c := c)
    (P := fun out => ∀ current, out = .ok (some current) → Y c.metadataGeneration file.id current)
    ?_ ?_ h) ?_)
  · rw [Code.wp_bind, wp_call]
    refine ⟨trivial, ?_⟩
    intro r w'' hr
    obtain ⟨rfl, hanswer⟩ := treeRel_getMetadata (hR _ _ _ _ hr)
    cases r with
    | error e => exact ⟨rfl, rfl, nofun⟩
    | ok resp =>
        rw [Code.outcome_ok]
        split
        · refine ⟨rfl, rfl, ?_⟩
          intro current hcurrent
          cases hcurrent
          rcases hanswer with ⟨resp', found, hresp, -, hparse, hmeta⟩ | ⟨resp', hresp, hno, -⟩ |
            ⟨-, hno⟩
          · cases hresp
            rw [hparse]
            exact hs.looked _ hmeta
          · cases hresp
            rename_i hok
            rw [hno] at hok
            cases hok
          · rename_i hok
            rw [(hno resp rfl).1] at hok
            cases hok
        · split
          · exact ⟨rfl, rfl, nofun⟩
          · refine ⟨rfl, rfl, ?_⟩
            intro current hcurrent
            cases hcurrent
            rename_i hno hkind
            refine hs.back _ hfile ?_
            rcases hanswer with ⟨resp', found, hresp, hok, -⟩ | ⟨resp', hresp, -, hfound, -⟩ |
              ⟨hmay, -⟩
            · cases hresp
              exact absurd hok hno
            · cases hresp
              exact absurd hfound hkind
            · exact hmay
  · intro current hcurrent
    exact hcurrent current rfl
  · intro out c' w'' ⟨hw, h', _⟩
    exact ⟨hw, h'⟩

theorem keeps_currentLeaf (hR : ∀ w q r w', R w q r w' → treeRel pj mayFail w q r w')
    (hrounds : 1 ≤ rounds) (hs : SoundFacts w mayFail X Y)
    (hroot : rootFolderFor o.auth = w.rootAlias)
    {uri : GDriveUri} (huri : uri.Clean) {file : DriveFileMeta} (hfile : KnownAs w 0 file.id file) :
    Code.Keeps (globEnv R) (Mirrored w o.auth X Y) (currentLeaf pj rounds o uri file) := by
  unfold currentLeaf
  refine (keeps_refreshLeaf hR hs hfile).bind fun refreshed => ?_
  cases refreshed with
  | some current => exact Code.keeps_pure _
  | none =>
      refine (Code.keeps_modify ?_).bind fun _ =>
        (keeps_tryResolvePath hR hrounds hs hroot huri).bind fun found => Code.keeps_pure _
      exact fun c w' h => ⟨h.1, h.2.invalidatePrefix _⟩

theorem keeps_resolveForReading (hR : ∀ w q r w', R w q r w' → treeRel pj mayFail w q r w')
    (hrounds : 1 ≤ rounds) (hs : SoundFacts w mayFail X Y)
    (hroot : rootFolderFor o.auth = w.rootAlias) (path : Str) {uri : GDriveUri} (huri : uri.Clean) :
    Code.Keeps (globEnv R) (Mirrored w o.auth X Y) (resolveForReading pj rounds o path uri) := by
  unfold resolveForReading
  refine keeps_beginQuery.bind fun _ => ?_
  cases uri with
  | fileId id =>
      refine (keeps_tryResolvePath hR hrounds hs hroot huri).bind fun found => ?_
      cases found with
      | none => exact Code.keeps_pure _
      | some hit =>
          simp only
          split
          · exact Code.keeps_throw _
          · exact Code.keeps_pure _
  | path segments =>
      intro c w' h
      obtain rfl := h.1
      rw [Code.wp_bind]
      refine Code.wp_mono (wp_tryResolvePath_stands hR hrounds hs hroot huri h) ?_
      intro out c' w'' ⟨h', hout⟩
      cases out with
      | error e => exact h'
      | ok found =>
          rw [Code.outcome_ok]
          cases found with
          | none => exact h'
          | some hit =>
              simp only
              split
              · exact h'
              · split
                · exact h'
                · have hknown := (hout hit.1 hit.2 rfl).2
                  exact keeps_currentLeaf hR hrounds hs hroot huri hknown c' w'' h'

-- ======================================================================== globs

theorem keeps_globLiteral (hR : ∀ w q r w', R w q r w' → treeRel pj mayFail w q r w')
    (hrounds : 1 ≤ rounds) (hs : SoundFacts w mayFail X Y)
    (hroot : rootFolderFor o.auth = w.rootAlias) {uri : GDriveUri} (huri : uri.Clean) (path : Str) :
    Code.Keeps (globEnv R) (Mirrored w o.auth X Y) (globLiteral pj rounds o uri path) := by
  refine (keeps_tryResolvePath hR hrounds hs hroot huri).bind fun found => ?_
  cases found with
  | none => exact Code.keeps_pure _
  | some hit => exact Code.keeps_pure _

/-- The folder of a literal prefix stands where the prefix says. -/
theorem wp_globRoot_stands (hR : ∀ w q r w', R w q r w' → treeRel pj mayFail w q r w')
    (hrounds : 1 ≤ rounds) (hs : SoundFacts w mayFail X Y)
    (hroot : rootFolderFor o.auth = w.rootAlias)
    {literalPrefix : Str} (hid : (str "id:").isPrefixOf literalPrefix = false) {c : PathCache}
    (h : Mirrored w o.auth X Y c w) :
    Code.wp (globEnv R) (globRoot pj rounds o literalPrefix)
      (fun out c' w' => Mirrored w o.auth X Y c' w' ∧
        ∀ id, out = .ok (some id) → w.At (splitSegments literalPrefix) (w.deref id)) c w := by
  unfold globRoot
  by_cases hnil : literalPrefix.isEmpty = true
  · rw [if_pos hnil, List.isEmpty_iff.mp hnil]
    refine ⟨h, ?_⟩
    intro id heq
    cases heq
    rw [hroot, World.deref_alias]
    exact .inl rfl
  · rw [if_neg hnil, parse_path hid]
    split
    · exact ⟨h, nofun⟩
    · rename_i uri huri
      split at huri
      · cases huri
      · cases huri
        rw [Code.wp_bind]
        refine Code.wp_mono (wp_tryResolvePath_stands hR hrounds hs hroot
          (fun s hs => mem_splitSegments hs) h) ?_
        intro out c' w' ⟨h', hout⟩
        cases out with
        | error e => exact ⟨h', nofun⟩
        | ok found =>
            rw [Code.outcome_ok]
            cases found with
            | none => exact ⟨h', nofun⟩
            | some hit =>
                refine ⟨h', ?_⟩
                intro id hsome
                cases hsome
                exact (hout hit.1 hit.2 rfl).1

theorem keeps_globPattern (hR : ∀ w q r w', R w q r w' → treeRel pj mayFail w q r w')
    (hrounds : 1 ≤ rounds) (hs : SoundFacts w mayFail X Y)
    (hroot : rootFolderFor o.auth = w.rootAlias) (hnames : w.Segmented) {pattern : Str}
    (hid : (str "id:").isPrefixOf (splitGlob pattern).literalPrefix = false)
    (depth : Nat) (path : Str) :
    Code.Keeps (globEnv R) (Mirrored w o.auth X Y)
      (globPattern signed pj rounds depth o path pattern) := by
  intro c w' h
  obtain rfl := h.1
  unfold globPattern
  rw [Code.wp_bind]
  refine Code.wp_mono (wp_globRoot_stands hR hrounds hs hroot hid h) ?_
  intro out c' w'' ⟨h', hstands⟩
  obtain rfl := h'.1
  cases out with
  | error e => exact h'
  | ok root =>
      rw [Code.outcome_ok]
      cases root with
      | none => exact h'
      | some folderId =>
          simp only
          rw [Code.wp_bind]
          refine Code.wp_mono (wp_listFolder hR hrounds path _ depth folderId []) ?_
          intro out c'' w''' ⟨hc, hw, hlisting⟩
          subst hc hw
          cases out with
          | error e => exact h'
          | ok l =>
              exact ⟨rfl, h'.2.warm hs.toTruths hnames (hstands folderId rfl)
                (hlisting l rfl)⟩

theorem keeps_globExpansions (hR : ∀ w q r w', R w q r w' → treeRel pj mayFail w q r w')
    (hrounds : 1 ≤ rounds) (hs : SoundFacts w mayFail X Y)
    (hroot : rootFolderFor o.auth = w.rootAlias)
    (hnames : w.Segmented) {patterns : List Str} (hid : ∀ pattern ∈ patterns, PathPrefixed pattern)
    (depth : Nat) (path : Str) :
    Code.Keeps (globEnv R) (Mirrored w o.auth X Y)
      (globExpansions signed pj rounds depth o path patterns) := by
  induction patterns with
  | nil => exact Code.keeps_pure _
  | cons pattern rest ih =>
      rw [List.forall_mem_cons] at hid
      unfold globExpansions
      refine Code.Keeps.bind ?_ fun here => (ih hid.2).bind fun others => Code.keeps_pure _
      unfold globExpansion
      split
      · rename_i hmeta
        exact keeps_globPattern hR hrounds hs hroot hnames (hid.1 hmeta) depth path
      · split
        · exact Code.keeps_pure _
        · rename_i uri hparse
          exact keeps_globLiteral hR hrounds hs hroot (clean_of_parse hparse) _

theorem keeps_glob (hR : ∀ w q r w', R w q r w' → treeRel pj mayFail w q r w')
    (hrounds : 1 ≤ rounds) (hs : SoundFacts w mayFail X Y)
    (hroot : rootFolderFor o.auth = w.rootAlias) (hnames : w.Segmented) {path : Str}
    (hid : ∀ pattern ∈ globPatterns path, PathPrefixed pattern) (depth : Nat) :
    Code.Keeps (globEnv R) (Mirrored w o.auth X Y) (glob signed pj rounds depth o path) := by
  refine Code.Keeps.bind ?_ fun found => Code.keeps_pure _
  unfold globFound
  split
  · exact Code.keeps_throw _
  · refine keeps_beginQuery.bind fun _ => ?_
    split
    · split
      · exact Code.keeps_pure _
      · exact Code.keeps_throw _
    · rename_i hparse
      exact keeps_globLiteral hR hrounds hs hroot (clean_of_parse hparse) path
    · rename_i segments hparse
      split
      · rename_i hmeta
        rw [globPatterns_path hparse hmeta] at hid
        unfold globPath
        split
        · exact Code.keeps_throw _
        · refine Code.Keeps.bind (keeps_globExpansions hR hrounds hs hroot hnames hid depth path)
            fun found => ?_
          unfold orLiteral
          split
          · exact keeps_globLiteral hR hrounds hs hroot (clean_of_parse hparse) path
          · exact Code.keeps_pure _
      · exact keeps_globLiteral hR hrounds hs hroot (clean_of_parse hparse) path

end Lookups

-- ================================================================ the operations

/-- What one identity looks up. -/
inductive LookupOp
  | resolve (o : Opener) (path : Str)
  | glob (o : Opener) (depth : Nat) (path : Str)
  | listFiles (o : Opener) (directory : Str)
  | fileExists (o : Opener) (filename : Str)
  | directoryExists (o : Opener) (directory : Str)
  /-- The cached part of `OpenFile` for reading. -/
  | openForReading (o : Opener) (path : Str)

namespace LookupOp

section Body

variable (signed : Bool) (pj : Picojson) (rounds : Nat)

/-- The code that a lookup runs; what it returns is not looked at. -/
def body : LookupOp → CacheCode Unit
  | .resolve o path => do
      let uri ← parsedUri path
      let _ ← tryResolvePath pj rounds o.thread o.auth uri
      pure ()
  | .glob o depth path => do
      let _ ← GDrive.glob signed pj rounds depth o path
      pure ()
  | .listFiles o directory => do
      let _ ← GDrive.listFiles pj rounds o directory
      pure ()
  | .fileExists o filename => do
      let _ ← GDrive.fileExists pj rounds o filename
      pure ()
  | .directoryExists o directory => do
      let _ ← GDrive.directoryExists pj rounds o directory
      pure ()
  | .openForReading o path => do
      let uri ← checkedUri o path
      let _ ← resolveForReading pj rounds o path uri
      pure ()

end Body

def opener : LookupOp → Opener
  | .resolve o _ | .glob o _ _ | .listFiles o _ | .fileExists o _ | .directoryExists o _
  | .openForReading o _ => o

/-- A glob's results can be told apart by their paths: its names have no
slashes in them, and no expansion of its braces lists below an id: form. -/
def ByPath (op : LookupOp) (w : World) : Prop :=
  match op with
  | .glob _ _ path => w.Segmented ∧ ∀ pattern ∈ globPatterns path, PathPrefixed pattern
  | _ => True

variable {signed : Bool} {pj : Picojson} {rounds : Nat} {mayFail : CallReq → Prop}
  {R : Rel Client World} {w : World} {X : DriveFileMeta → Nat → Prop}
  {Y : Nat → Str → DriveFileMeta → Prop}

theorem keeps_body (hR : ∀ w q r w', R w q r w' → treeRel pj mayFail w q r w')
    (hrounds : 1 ≤ rounds) (hs : SoundFacts w mayFail X Y) {op : LookupOp}
    (hroot : rootFolderFor op.opener.auth = w.rootAlias) (hop : op.ByPath w) :
    Code.Keeps (globEnv R) (Mirrored w op.opener.auth X Y) (op.body signed pj rounds) := by
  cases op with
  | resolve o path =>
      refine keeps_parsedUri fun uri hparse => ?_
      exact (keeps_tryResolvePath hR hrounds hs hroot (clean_of_parse hparse)).bind
        fun _ => Code.keeps_pure ()
  | glob o depth path =>
      exact (keeps_glob hR hrounds hs hroot hop.1 hop.2 depth).bind fun _ => Code.keeps_pure ()
  | listFiles o directory =>
      exact (keeps_listFiles hR hrounds hs hroot directory).bind fun _ => Code.keeps_pure ()
  | fileExists o filename =>
      exact (keeps_fileExists hR hrounds hs hroot filename).bind fun _ => Code.keeps_pure ()
  | directoryExists o directory =>
      exact (keeps_directoryExists hR hrounds hs hroot directory).bind fun _ => Code.keeps_pure ()
  | openForReading o path =>
      refine keeps_checkedUri fun uri hparse => ?_
      exact (keeps_resolveForReading hR hrounds hs hroot path (clean_of_parse hparse)).bind
        fun _ => Code.keeps_pure ()

end LookupOp

end GDrive
