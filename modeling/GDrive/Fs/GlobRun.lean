/-
A run of `Glob` on a tree that does not change.

Each expansion of the braces is answered by the tree (`World.Globs`): a
literal path by its resolution, a pattern by the listing below its literal
prefix. What the listing puts into the path cache agrees with the tree
(`CacheInv.warm`), so the next expansion finds a cache that does too.
-/
import GDrive.Fs.GlobMatch
import GDrive.Fs.Listing
import GDrive.Fs.Reads

namespace GDrive

open Interaction Naming

-- =============================================================== what answers

/-- A file that no other object has the name of. -/
def World.Alone (w : World) (file : DriveFileMeta) (_ : Nat) : Prop :=
  file.isFolder = false → ∃ p s f, w.named p s = [f] ∧ SameObject f file

/-- What a resolution comes to on a tree. -/
def World.Answers (w : World) : GDriveUri → Option DriveFileMeta → Prop
  | .fileId id, some file => ∃ f, w.Metadata id f ∧ SameObject f file
  | .fileId id, none => w.Absent id
  | .path [], some file => w.Metadata w.rootAlias file
  | .path [], none => False
  | .path segments, some file => w.Names segments file ∧ ∃ g, w.Alone file g
  | .path segments, none => ∃ ctx, w.plain ctx w.rootId segments = .ok none

/-- What a lookup by id says of an object: the object, whatever its
content. -/
def KnownAs (w : World) (_ : Nat) (id : Str) (file : DriveFileMeta) : Prop :=
  ∃ f, w.Metadata id f ∧ SameObject f file

/-- A path cache filled from the tree. -/
abbrev Mirrors (w : World) (auth : AuthContext) (c : PathCache) : Prop :=
  CacheInv w auth w.Alone (KnownAs w) c

/-- A literal path's result. -/
def literalResult (path : Str) : Option DriveFileMeta → List Found
  | some file => if file.isFolder then [] else [(path, file)]
  | none => []

/-- The results of one expansion. -/
inductive World.Globs (w : World) (signed : Bool) (pattern : Str) : List Found → Prop
  /-- There is nothing at the literal prefix. -/
  | missing {ctx : Str} : hasGlobMetacharacters pattern = true →
      splitSegments (splitGlob pattern).literalPrefix ≠ [] →
      w.plain ctx w.rootId (splitSegments (splitGlob pattern).literalPrefix) = .ok none →
      Globs w signed pattern []
  | listed {p : Str} {l : List Listed} : hasGlobMetacharacters pattern = true →
      w.At (splitSegments (splitGlob pattern).literalPrefix) p →
      w.Listing (splitGlob pattern).recursive [] (w.children p) l →
      Globs w signed pattern (matchListing signed pattern (splitGlob pattern).literalPrefix l)
  | rejected {error : Str} : hasGlobMetacharacters pattern = false →
      parseGDriveUri (kGDriveScheme ++ pattern) = .error error → Globs w signed pattern []
  | literal {uri : GDriveUri} {found : Option DriveFileMeta} :
      hasGlobMetacharacters pattern = false →
      parseGDriveUri (kGDriveScheme ++ pattern) = .ok uri → w.Answers uri found →
      Globs w signed pattern (literalResult (kGDriveScheme ++ pattern) found)

-- ================================================================== addresses

/-- A path's parent and its last name make the path. -/
theorem below_parentOf {parent name : Str} (hname : Segment name) :
    below (parentOf (extendPath parent name)) name = extendPath parent name := by
  have hno : ∀ c ∈ name.reverse, (c != 47) = true := by
    intro c hc
    rw [bne_iff_ne]
    rintro rfl
    exact hname.no_slash (List.mem_reverse.mp hc)
  by_cases hnil : parent = []
  · have hparent : parentOf name = [] := by
      unfold parentOf
      rw [List.dropWhile_eq_nil_iff.mpr hno]
      rfl
    rw [hnil]
    show below (parentOf name) name = name
    rw [hparent]
    rfl
  · have hparent : parentOf (parent ++ 47 :: name) = parent := by
      unfold parentOf
      rw [List.reverse_append, List.reverse_cons, List.append_assoc,
        List.dropWhile_append_of_pos hno]
      simp
    rw [extendPath_of_ne_nil hnil, hparent]
    exact extendPath_of_ne_nil hnil name

/-- A path below a prefix ends in the same name. -/
theorem below_joinPath_concat (literalPrefix : Str) (init : List Str) (s : Str) :
    ∃ parent, below literalPrefix (joinPath (init ++ [s])) = extendPath parent s := by
  rw [joinPath_concat]
  by_cases hnil : literalPrefix = []
  · exact ⟨joinPath init, by rw [hnil]; rfl⟩
  · by_cases hinit : joinPath init = []
    · exact ⟨literalPrefix, by rw [hinit]; rfl⟩
    · refine ⟨literalPrefix ++ 47 :: joinPath init, ?_⟩
      rw [extendPath_of_ne_nil hinit, extendPath_of_ne_nil (by simp)]
      show extendPath literalPrefix _ = _
      rw [extendPath_of_ne_nil hnil, List.append_assoc]
      rfl

theorem mem_matchListing {signed : Bool} {pattern literalPrefix s : Str} {l : List Listed}
    {file : DriveFileMeta} :
    (s, file) ∈ matchListing signed pattern literalPrefix l ↔
      ∃ rel, (rel, file) ∈ l ∧ matchPath signed pattern (below literalPrefix rel) = true ∧
        file.isFolder = false ∧
        s = disambiguatePath (parentOf (below literalPrefix rel)) file (countRel l rel != 1) := by
  unfold matchListing
  rw [List.mem_filterMap]
  constructor
  · intro ⟨entry, hentry, heq⟩
    simp only at heq
    split at heq
    · rename_i hmatch
      cases heq
      rw [Bool.and_eq_true, Bool.not_eq_true'] at hmatch
      exact ⟨entry.1, hentry, hmatch.1, hmatch.2, rfl⟩
    · cases heq
  · intro ⟨rel, hentry, hmatch, hkind, hs⟩
    refine ⟨(rel, file), hentry, ?_⟩
    rw [if_pos (by rw [hmatch, hkind]; rfl), hs]

/-- A listed file with a path of its own goes by its path. -/
theorem disambiguatePath_path {literalPrefix : Str} {init : List Str} {file : DriveFileMeta}
    (hname : Segment file.name) :
    disambiguatePath (parentOf (below literalPrefix (joinPath (init ++ [file.name])))) file false =
      kGDriveScheme ++ below literalPrefix (joinPath (init ++ [file.name])) := by
  obtain ⟨parent, hparent⟩ := below_joinPath_concat literalPrefix init file.name
  unfold disambiguatePath joinGDrivePath
  rw [if_neg Bool.false_ne_true, hparent, below_parentOf hname]

-- ================================================================ warm entries

section Warm

variable {w : World} {o : Opener} {Y : Nat → Str → DriveFileMeta → Prop} {c : PathCache}
  {recursive : Bool} {p literalPrefix : Str} {l : List Listed}

/-- What a listing is sure of is named so. -/
theorem World.Listing.names (hl : w.Listing recursive [] (w.children p) l) (hnames : w.Segmented)
    {base : List Str} (hbase : w.folderAt base = some p) {entry : Listed} (hentry : entry ∈ l)
    (hcount : countRel l entry.1 = 1) (hunder : underAmbiguous l entry.1 = false) :
    w.Names (base ++ splitSegments entry.1) entry.2 := by
  obtain ⟨init, s, q, hleads, hfile, hrec, hpath⟩ := hl.placed hentry
  rw [hpath] at hcount hunder
  obtain ⟨hfolder, hsole⟩ := hl.sure hnames hbase hleads hfile hrec hcount hunder
  rw [hpath, splitSegments_joinPath (World.has_named hnames hleads hfile),
    ← List.append_assoc]
  exact World.names_leaf hfolder hsole

/-- What is listed once has its name for itself. -/
theorem World.Listing.alone (hl : w.Listing recursive [] (w.children p) l) {entry : Listed}
    (hentry : entry ∈ l) (hcount : countRel l entry.1 = 1) :
    ∃ q s, w.found q s false = [entry.2] := by
  obtain ⟨init, s, q, hleads, hfile, hrec, hpath⟩ := hl.placed hentry
  rw [hpath] at hcount
  have hle := hl.named_le (s := s) hleads hrec
  rw [hcount] at hle
  exact ⟨q, s, eq_singleton_of_mem hfile hle⟩

/-- The cache agrees with the tree after a listing as it did before. -/
theorem CacheInv.warm {X : DriveFileMeta → Nat → Prop} (h : CacheInv w o.auth X Y c)
    (ht : Truths w X Y) (hnames : w.Segmented)
    (hp : w.At (splitSegments literalPrefix) p)
    (hl : w.Listing recursive [] (w.children p) l) :
    CacheInv w o.auth X Y (warmCache o literalPrefix l c) := by
  unfold warmCache
  -- Some of the entries that the listing is sure of, one after another.
  have hsure : ∀ entry ∈ l.filter (fun entry =>
      countRel l entry.1 = 1 && !underAmbiguous l entry.1),
      entry ∈ l ∧ countRel l entry.1 = 1 ∧ underAmbiguous l entry.1 = false := by
    intro entry hentry
    rw [List.mem_filter, Bool.and_eq_true, decide_eq_true_eq, Bool.not_eq_true'] at hentry
    exact hentry
  generalize l.filter (fun entry => countRel l entry.1 = 1 && !underAmbiguous l entry.1) = entries
    at hsure ⊢
  induction entries generalizing c with
  | nil => exact h
  | cons entry entries ih =>
      rw [List.forall_mem_cons] at hsure
      obtain ⟨⟨hentry, hcount, hunder⟩, hrest⟩ := hsure
      rw [List.foldl_cons]
      obtain ⟨q, s, halone⟩ := hl.alone hentry hcount
      refine ih (h.put ?_ (ht.listed halone _)).1 hrest
      intro segments hsegments hkey
      rcases hp with hbase | ⟨-, hnone⟩
      · have hsplit : segments = splitSegments literalPrefix ++ splitSegments entry.1 := by
          rw [← splitSegments_joinPath hsegments, ← hkey]
          exact splitSegments_extendPath _ _
        rw [hsplit]
        exact hl.names hnames hbase hentry hcount hunder
      · rw [hnone] at hl
        cases hl
        cases hentry

end Warm

-- ===================================================================== the run

section Run

variable {signed : Bool} {pj : Picojson} {rounds : Nat} {mayFail : CallReq → Prop}
  {R : Rel Client World} {w : World} {o : Opener} {c : PathCache}

theorem truths_known (w : World) : Truths w w.Alone (KnownAs w) := by
  refine ⟨?_, fun _ _ file hmeta => ⟨file, hmeta, rfl, rfl⟩⟩
  intro p name requireFolder file hfound g hkind
  cases requireFolder with
  | false => exact ⟨p, name, file, hfound, rfl, rfl⟩
  | true =>
      have hmem : file ∈ w.foldersNamed p name := by
        rw [show w.foldersNamed p name = [file] from hfound]
        exact List.mem_singleton.mpr rfl
      rw [(World.mem_foldersNamed.mp hmem).2] at hkind
      cases hkind

/-- A resolution gives the tree's answer. -/
theorem wp_answers (hR : ∀ w q r w', R w q r w' → treeRel pj mayFail w q r w')
    (hrounds : 1 ≤ rounds) (hroot : rootFolderFor o.auth = w.rootAlias) {uri : GDriveUri}
    (huri : uri.Clean) (h : Mirrors w o.auth c) :
    Code.wp (globEnv R) (tryResolvePath pj rounds o.thread o.auth uri)
      (fun out c' w' => w' = w ∧ Mirrors w o.auth c' ∧
        ∀ found, out = .ok found → w.Answers uri (found.map (·.1))) c w := by
  refine wp_glob ?_
  match uri with
  | .fileId id =>
      refine Code.wp_mono (wp_tryResolvePath_id hR (truths_known w) h) ?_
      intro out c' w' ⟨hw, h', _, _, hout⟩
      refine ⟨hw, h', ?_⟩
      intro found hfound
      rw [hfound] at hout
      cases found with
      | none => exact hout
      | some hit =>
          rcases hout.2 with hmeta | ⟨-, hknown⟩
          · exact ⟨hit.1, hmeta, rfl, rfl⟩
          · exact hknown
  | .path [] =>
      refine Code.wp_mono (wp_tryResolvePath_root (c := c) hR hroot) ?_
      intro out c' w' ⟨hw, hc, hout⟩
      rw [hc]
      refine ⟨hw, h, ?_⟩
      intro found hfound
      rcases hout with ⟨file, hout, hmeta⟩ | ⟨-, e, hout⟩
      · rw [hfound] at hout
        cases hout
        exact hmeta
      · rw [hfound] at hout
        cases hout
  | .path (s :: rest) =>
      refine Code.wp_mono (wp_tryResolvePath_path hR hrounds (truths_known w) hroot
        (List.cons_ne_nil _ _) huri h) ?_
      intro out c' w' ⟨hw, h', _, hout⟩
      refine ⟨hw, h', ?_⟩
      intro found hfound
      rw [hfound] at hout
      cases found with
      | none => exact ⟨_, hout⟩
      | some hit => exact ⟨hout.1, hout.2.2.1⟩

theorem wp_globLiteral (hR : ∀ w q r w', R w q r w' → treeRel pj mayFail w q r w')
    (hrounds : 1 ≤ rounds) (hroot : rootFolderFor o.auth = w.rootAlias) {uri : GDriveUri}
    (huri : uri.Clean) (path : Str) (h : Mirrors w o.auth c) :
    Code.wp (globEnv R) (globLiteral pj rounds o uri path)
      (fun out c' w' => w' = w ∧ Mirrors w o.auth c' ∧
        ∀ l, out = .ok l → ∃ found, w.Answers uri found ∧ l = literalResult path found) c w := by
  unfold globLiteral
  rw [Code.wp_bind]
  refine Code.wp_mono (wp_answers hR hrounds hroot huri h) ?_
  intro out c' w' ⟨hw, h', hout⟩
  cases out with
  | error e => exact ⟨hw, h', nofun⟩
  | ok found =>
      rw [Code.outcome_ok]
      cases found with
      | none =>
          refine ⟨hw, h', ?_⟩
          intro l hl
          cases hl
          exact ⟨none, hout none rfl, rfl⟩
      | some hit =>
          refine ⟨hw, h', ?_⟩
          intro l hl
          cases hl
          exact ⟨some hit.1, hout (some hit) rfl, rfl⟩

/-- The root stands at the root. -/
theorem World.Metadata.at_root {file : DriveFileMeta} (h : w.Metadata w.rootAlias file) :
    w.At [] (w.deref file.id) := by
  have hid : file.id = w.rootId := h.id_eq.trans (World.deref_alias w)
  rw [hid]
  exact .inl (congrArg some (World.deref_folderAt (a := []) rfl).symm)

theorem World.Names.at {segments : List Str} {file : DriveFileMeta} (h : w.Names segments file) :
    w.At segments (w.deref file.id) := by
  obtain ⟨init, last, p, hsegments, hp, _⟩ := id h
  rw [hsegments] at h ⊢
  obtain ⟨hderef, hat, -⟩ := World.enter (.inl hp) h
  rw [hderef]
  exact hat

/-- Where a resolved path stands. -/
theorem World.Answers.at {segments : List Str} {file : DriveFileMeta}
    (h : w.Answers (.path segments) (some file)) : w.At segments (w.deref file.id) := by
  match segments with
  | [] => exact World.Metadata.at_root h
  | s :: rest =>
      obtain ⟨hnames, -⟩ : w.Names (s :: rest) file ∧ _ := h
      exact hnames.at

theorem World.Answers.nothing {segments : List Str} (h : w.Answers (.path segments) none) :
    segments ≠ [] ∧ ∃ ctx, w.plain ctx w.rootId segments = .ok none := by
  match segments with
  | [] => exact h.elim
  | _ :: _ => exact ⟨List.cons_ne_nil _ _, h⟩

/-- The folder of a literal prefix, where there is one. -/
theorem wp_globRoot (hR : ∀ w q r w', R w q r w' → treeRel pj mayFail w q r w')
    (hrounds : 1 ≤ rounds) (hroot : rootFolderFor o.auth = w.rootAlias) {literalPrefix : Str}
    (hid : (str "id:").isPrefixOf literalPrefix = false) (h : Mirrors w o.auth c) :
    Code.wp (globEnv R) (globRoot pj rounds o literalPrefix)
      (fun out c' w' => w' = w ∧ Mirrors w o.auth c' ∧
        (out = .ok none → splitSegments literalPrefix ≠ [] ∧
          ∃ ctx, w.plain ctx w.rootId (splitSegments literalPrefix) = .ok none) ∧
        ∀ id, out = .ok (some id) → w.At (splitSegments literalPrefix) (w.deref id)) c w := by
  unfold globRoot
  by_cases hnil : literalPrefix.isEmpty = true
  · rw [if_pos hnil, List.isEmpty_iff.mp hnil]
    refine ⟨rfl, h, nofun, ?_⟩
    intro id heq
    cases heq
    rw [hroot, World.deref_alias]
    exact .inl rfl
  · rw [if_neg hnil, parse_path hid]
    split
    · exact ⟨rfl, h, nofun, nofun⟩
    · rename_i uri huri
      split at huri
      · cases huri
      · cases huri
        have hclean : (GDriveUri.path (splitSegments literalPrefix)).Clean :=
          fun s hs => mem_splitSegments hs
        rw [Code.wp_bind]
        refine Code.wp_mono (wp_answers hR hrounds hroot hclean h) ?_
        intro out c' w' ⟨hw, h', hout⟩
        cases out with
        | error e => exact ⟨hw, h', nofun, nofun⟩
        | ok found =>
            have hanswer := hout found rfl
            cases found with
            | none =>
                exact ⟨hw, h', fun _ => World.Answers.nothing hanswer, nofun⟩
            | some hit =>
                refine ⟨hw, h', nofun, ?_⟩
                intro id hsome
                cases hsome
                exact World.Answers.at hanswer

/-- One pattern, listed below its literal prefix. -/
theorem wp_globPattern (hR : ∀ w q r w', R w q r w' → treeRel pj mayFail w q r w')
    (hrounds : 1 ≤ rounds) (hroot : rootFolderFor o.auth = w.rootAlias) (hnames : w.Segmented)
    {pattern : Str} (hmeta : hasGlobMetacharacters pattern = true)
    (hid : (str "id:").isPrefixOf (splitGlob pattern).literalPrefix = false) (depth : Nat)
    (path : Str) (h : Mirrors w o.auth c) :
    Code.wp (globEnv R) (globPattern signed pj rounds depth o path pattern)
      (fun out c' w' => w' = w ∧ Mirrors w o.auth c' ∧
        ∀ found, out = .ok found → w.Globs signed pattern found) c w := by
  unfold globPattern
  rw [Code.wp_bind]
  refine Code.wp_mono (wp_globRoot hR hrounds hroot hid h) ?_
  intro out c' w' ⟨hw, h', hnone, hsome⟩
  subst hw
  cases out with
  | error e => exact ⟨rfl, h', nofun⟩
  | ok root =>
      rw [Code.outcome_ok]
      cases root with
      | none =>
          refine ⟨rfl, h', ?_⟩
          intro found hfound
          cases hfound
          obtain ⟨hne, ctx, hplain⟩ := hnone rfl
          exact .missing hmeta hne hplain
      | some folderId =>
          have hat := hsome folderId rfl
          simp only
          rw [Code.wp_bind]
          refine Code.wp_mono (wp_listFolder hR hrounds path _ depth folderId []) ?_
          intro out c'' w'' ⟨hc, hw, hlisting⟩
          subst hc hw
          cases out with
          | error e => exact ⟨rfl, h', nofun⟩
          | ok l =>
              have hl := hlisting l rfl
              rw [Code.outcome_ok, Code.wp_bind, Code.wp_modify, Code.outcome_ok]
              refine ⟨rfl, h'.warm (truths_known _) hnames hat hl, ?_⟩
              intro found hfound
              cases hfound
              exact .listed hmeta hat hl

/-- A pattern whose literal prefix, where there is one, is not an id: form. -/
def PathPrefixed (pattern : Str) : Prop :=
  hasGlobMetacharacters pattern = true →
    (str "id:").isPrefixOf (splitGlob pattern).literalPrefix = false

theorem wp_globExpansion (hR : ∀ w q r w', R w q r w' → treeRel pj mayFail w q r w')
    (hrounds : 1 ≤ rounds) (hroot : rootFolderFor o.auth = w.rootAlias) (hnames : w.Segmented)
    {pattern : Str} (hid : PathPrefixed pattern) (depth : Nat) (path : Str)
    (h : Mirrors w o.auth c) :
    Code.wp (globEnv R) (globExpansion signed pj rounds depth o path pattern)
      (fun out c' w' => w' = w ∧ Mirrors w o.auth c' ∧
        ∀ found, out = .ok found → w.Globs signed pattern found) c w := by
  unfold globExpansion
  by_cases hmeta : hasGlobMetacharacters pattern = true
  · rw [if_pos hmeta]
    exact wp_globPattern hR hrounds hroot hnames hmeta (hid hmeta) depth path h
  · rw [if_neg hmeta]
    have hliteral : hasGlobMetacharacters pattern = false := Bool.eq_false_iff.mpr hmeta
    split
    · rename_i error hparse
      refine ⟨rfl, h, ?_⟩
      intro found hfound
      cases hfound
      exact .rejected hliteral hparse
    · rename_i uri hparse
      refine Code.wp_mono (wp_globLiteral hR hrounds hroot (clean_of_parse hparse) _ h) ?_
      intro out c' w' ⟨hw, h', hout⟩
      refine ⟨hw, h', ?_⟩
      intro l hl
      obtain ⟨found, hanswer, rfl⟩ := hout l hl
      exact .literal hliteral hparse hanswer

/-- The results of the expansions, one after the other. -/
def World.GlobsAll (w : World) (signed : Bool) : List Str → List Found → Prop
  | [], found => found = []
  | pattern :: rest, found =>
      ∃ here others, found = here ++ others ∧ w.Globs signed pattern here ∧
        w.GlobsAll signed rest others

theorem wp_globExpansions (hR : ∀ w q r w', R w q r w' → treeRel pj mayFail w q r w')
    (hrounds : 1 ≤ rounds) (hroot : rootFolderFor o.auth = w.rootAlias) (hnames : w.Segmented)
    {patterns : List Str} (hid : ∀ pattern ∈ patterns, PathPrefixed pattern) (depth : Nat)
    (path : Str) (h : Mirrors w o.auth c) :
    Code.wp (globEnv R) (globExpansions signed pj rounds depth o path patterns)
      (fun out c' w' => w' = w ∧ Mirrors w o.auth c' ∧
        ∀ found, out = .ok found → w.GlobsAll signed patterns found) c w := by
  induction patterns generalizing c with
  | nil =>
      refine ⟨rfl, h, ?_⟩
      intro found hfound
      cases hfound
      rfl
  | cons pattern rest ih =>
      rw [List.forall_mem_cons] at hid
      unfold globExpansions
      rw [Code.wp_bind]
      refine Code.wp_mono (wp_globExpansion hR hrounds hroot hnames hid.1 depth path h) ?_
      intro out c' w' ⟨hw, h', hhere⟩
      subst hw
      cases out with
      | error e => exact ⟨rfl, h', nofun⟩
      | ok here =>
          rw [Code.outcome_ok, Code.wp_bind]
          refine Code.wp_mono (ih hid.2 h') ?_
          intro out c'' w'' ⟨hw, h'', hothers⟩
          cases out with
          | error e => exact ⟨hw, h'', nofun⟩
          | ok others =>
              refine ⟨hw, h'', ?_⟩
              intro found hfound
              cases hfound
              exact ⟨here, others, rfl, hhere here rfl, hothers others rfl⟩

/-- The expansions of a path's braces. -/
def expansions (path : Str) : List Str := expandBraces (path.drop kGDriveScheme.length)

/-- The patterns that a path is listed for. -/
def globPatterns (path : Str) : List Str :=
  match parseGDriveUri path with
  | .ok (.path _) => if hasGlobMetacharacters path then expansions path else []
  | _ => []

theorem globPatterns_path {path : Str} {segments : List Str}
    (hparse : parseGDriveUri path = .ok (.path segments))
    (hmeta : hasGlobMetacharacters path = true) : globPatterns path = expansions path := by
  unfold globPatterns
  rw [hparse]
  exact if_pos hmeta

theorem mem_expansions {path pattern : Str} (h : pattern ∈ globPatterns path) :
    pattern ∈ expansions path := by
  unfold globPatterns at h
  split at h
  · split at h
    · exact h
    · cases h
  · cases h

/-- What `Glob` returns of a path. -/
inductive World.GlobEnds (w : World) (signed : Bool) (path : Str) : List Found → Prop
  | rejected {error : Str} : parseGDriveUri path = .error error →
      isFileIdFallbackGlobProbe path = true → GlobEnds w signed path []
  | literal {uri : GDriveUri} {answer : Option DriveFileMeta} : parseGDriveUri path = .ok uri →
      (∀ segments, uri = .path segments → hasGlobMetacharacters path = false) →
      w.Answers uri answer → GlobEnds w signed path (literalResult path answer)
  | matched {segments : List Str} {found : List Found} :
      parseGDriveUri path = .ok (.path segments) → hasGlobMetacharacters path = true →
      w.GlobsAll signed (expansions path) found →
      uniquePaths [] found ≠ [] → GlobEnds w signed path (uniquePaths [] found)
  /-- A pattern that matches nothing may be the name of a file. -/
  | unmatched {segments : List Str} {found : List Found} {answer : Option DriveFileMeta} :
      parseGDriveUri path = .ok (.path segments) → hasGlobMetacharacters path = true →
      w.GlobsAll signed (expansions path) found →
      uniquePaths [] found = [] → w.Answers (.path segments) answer →
      GlobEnds w signed path (literalResult path answer)

theorem wp_globFound (hR : ∀ w q r w', R w q r w' → treeRel pj mayFail w q r w')
    (hrounds : 1 ≤ rounds) (hroot : rootFolderFor o.auth = w.rootAlias) (hnames : w.Segmented)
    {path : Str} (hid : ∀ pattern ∈ globPatterns path, PathPrefixed pattern) (depth : Nat)
    (h : Mirrors w o.auth c) :
    Code.wp (globEnv R) (globFound signed pj rounds depth o path)
      (fun out c' w' => w' = w ∧ Mirrors w o.auth c' ∧
        ∀ found, out = .ok found → w.GlobEnds signed path found) c w := by
  unfold globFound
  by_cases hsecret : (!o.hasSecret) = true
  · rw [if_pos hsecret]
    exact ⟨rfl, h, nofun⟩
  · rw [if_neg hsecret, Code.wp_bind]
    unfold beginQuery
    rw [Code.wp_bind, Code.wp_modify, Code.outcome_ok, Code.wp_modify, Code.outcome_ok]
    have h₁ : Mirrors w o.auth ((c.beginQuery o.thread o.query).setMaxEntries
        o.settings.pathCacheEntries) := (h.beginQuery _ _).setMaxEntries _
    generalize (c.beginQuery o.thread o.query).setMaxEntries o.settings.pathCacheEntries = c₁ at h₁ ⊢
    cases hparse : parseGDriveUri path with
    | error error =>
        simp only
        split
        · rename_i hprobe
          refine ⟨rfl, h₁, ?_⟩
          intro found hfound
          cases hfound
          exact .rejected hparse hprobe
        · exact ⟨rfl, h₁, nofun⟩
    | ok uri =>
        have hclean := clean_of_parse hparse
        have hliteral : (∀ segments, uri = .path segments → hasGlobMetacharacters path = false) →
            Code.wp (globEnv R) (globLiteral pj rounds o uri path)
              (fun out c' w' => w' = w ∧ Mirrors w o.auth c' ∧
                ∀ found, out = .ok found → w.GlobEnds signed path found) c₁ w := by
          intro hplain
          refine Code.wp_mono (wp_globLiteral hR hrounds hroot hclean path h₁) ?_
          intro out c' w' ⟨hw, h', hout⟩
          refine ⟨hw, h', ?_⟩
          intro found hfound
          obtain ⟨answer, hanswer, rfl⟩ := hout found hfound
          exact .literal hparse hplain hanswer
        cases uri with
        | fileId id => exact hliteral nofun
        | path segments =>
            simp only
            by_cases hmeta : hasGlobMetacharacters path = true
            · rw [globPatterns_path hparse hmeta] at hid
              rw [if_pos hmeta]
              unfold globPath
              split
              · exact ⟨rfl, h₁, nofun⟩
              · rw [Code.wp_bind]
                refine Code.wp_mono (wp_globExpansions hR hrounds hroot hnames hid depth path h₁) ?_
                intro out c' w' ⟨hw, h', hout⟩
                subst hw
                cases out with
                | error e => exact ⟨rfl, h', nofun⟩
                | ok all =>
                    have hall := hout all rfl
                    rw [Code.outcome_ok]
                    cases hunique : uniquePaths [] all with
                    | nil =>
                        refine Code.wp_mono (wp_globLiteral hR hrounds hroot hclean path h') ?_
                        intro out c'' w'' ⟨hw, h'', hout⟩
                        refine ⟨hw, h'', ?_⟩
                        intro found hfound
                        obtain ⟨answer, hanswer, rfl⟩ := hout found hfound
                        exact .unmatched hparse hmeta hall hunique hanswer
                    | cons first rest =>
                        refine ⟨rfl, h', ?_⟩
                        intro found hfound
                        cases hfound
                        rw [← hunique]
                        refine .matched hparse hmeta hall ?_
                        rw [hunique]
                        exact List.cons_ne_nil _ _
            · rw [if_neg hmeta]
              exact hliteral fun _ _ => Bool.eq_false_iff.mpr hmeta

end Run

end GDrive
