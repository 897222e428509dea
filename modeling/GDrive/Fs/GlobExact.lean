/-
`Glob` against matching every file of the tree.

On a tree without two siblings of one name, what one expansion returns is what
it matches (`World.Globs.exact`), but for one file: a pattern `a/**` matches
the path `a`, as `**` matches no segment too, and where `a` is a file nothing
is listed below it. So `Glob` returns exactly what matches where no other
expansion has to make up for that (`glob_exact_iff`).
-/
import GDrive.Fs.GlobBraces
import GDrive.Fs.GlobRun
import GDrive.Fs.Move

namespace GDrive

open Interaction Naming

/-- A tree without two siblings of one name, below a folder. -/
structure World.Tidy (w : World) : Prop where
  named : w.Named
  sole : ∀ p s, (w.named p s).length ≤ 1
  root : ∀ {file}, w.Metadata w.rootAlias file → file.isFolder = true

/-- A pattern no piece of which between slashes is empty. -/
def CleanSlashes (pattern : Str) : Prop := pattern = [] ∨ ∀ s ∈ pattern.splitOn 47, s ≠ []

/-- A file that lies at this path. -/
def World.FileAt (w : World) (segments : List Str) : Prop :=
  ∃ file, w.Has w.rootId segments file ∧ file.isFolder = false

/-- A file that a pattern matches. -/
def World.Matches (w : World) (signed : Bool) (pattern : Str) (segments : List Str) : Prop :=
  w.FileAt segments ∧ matchPath signed pattern (joinPath segments) = true

/-- The file that a path names literally. -/
def World.LiteralFile (w : World) (path : Str) : Prop :=
  (∃ id file, parseGDriveUri path = .ok (.fileId id) ∧ w.Metadata id file ∧
      file.isFolder = false) ∨
    ∃ segments, parseGDriveUri path = .ok (.path segments) ∧ w.FileAt segments

/-- Exactly what matches, each once; where nothing matches, the path itself if
it names a file. -/
def World.GlobExact (w : World) (signed : Bool) (path : Str) (result : List Str) : Prop :=
  result.Nodup ∧
    ∀ s, s ∈ result ↔
      (∃ pattern ∈ expansions path, ∃ segments, w.Matches signed pattern segments ∧
          s = kGDriveScheme ++ joinPath segments) ∨
        ((∀ pattern ∈ expansions path, ∀ segments, ¬w.Matches signed pattern segments) ∧
          s = path ∧ w.LiteralFile path)

/-- A pattern that would have to find a file in its own literal prefix. -/
def AtPrefix (pattern : Str) (segments : List Str) : Prop :=
  hasGlobMetacharacters pattern = true ∧ splitSegments (splitGlob pattern).literalPrefix = segments

/-- A file that an expansion matches in its own literal prefix is one that
another expansion finds. -/
def World.PrefixesFound (w : World) (signed : Bool) (path : Str) : Prop :=
  ∀ pattern ∈ expansions path, ∀ segments, w.Matches signed pattern segments →
    AtPrefix pattern segments →
    ∃ other ∈ expansions path, w.Matches signed other segments ∧ ¬AtPrefix other segments

-- ============================================================= the tree is tidy

section Tidy

variable {w : World}

/-- The one object at a path is what an uncached resolution finds. -/
theorem World.Tidy.plain (h : w.Tidy) {p : Str} {segments : List Str} {file : DriveFileMeta}
    (hhas : w.Has p segments file) (ctx : Str) : w.plain ctx p segments = .ok (some file) := by
  induction segments generalizing p with
  | nil =>
      obtain ⟨init, s, q, hnil, -⟩ := hhas
      simp at hnil
  | cons s rest ih =>
      rcases hhas.cases with ⟨hone, hchild⟩ | ⟨folder, more, hchild, hkind, hmore, hhas⟩
      · cases hone
        have hsole := eq_singleton_of_mem (mem_named.mpr ⟨hchild, rfl⟩) (h.sole p file.name)
        rw [World.plain, hsole]
      · cases hmore
        obtain ⟨init, t, q, rfl, -⟩ := id hhas
        have hsole := eq_singleton_of_mem (mem_named.mpr ⟨hchild, rfl⟩) (h.sole p folder.name)
        have hfolders : w.foldersNamed p folder.name = [folder] := by
          unfold World.foldersNamed
          rw [hsole, List.filter_cons_of_pos hkind]
          rfl
        have hrest := ih hhas
        cases hinit : init ++ [t] with
        | nil => simp at hinit
        | cons next rest =>
            rw [hinit] at hrest
            rw [World.plain, hfolders]
            exact hrest

theorem World.Tidy.folderAt (h : w.Tidy) {init : List Str} {q : Str} :
    w.Leads w.rootId init q ↔ w.folderAt init = some q := by
  unfold World.folderAt
  generalize w.rootId = p
  induction init generalizing p with
  | nil =>
      rw [walk_nil, Option.some.injEq]
      exact eq_comm
  | cons s rest ih =>
      rw [walk_cons, Option.bind_eq_some_iff]
      constructor
      · intro ⟨folder, hfolder, hleads⟩
        have hle : (w.foldersNamed p s).length ≤ 1 :=
          le_trans (List.length_filter_le _ _) (h.sole p s)
        exact ⟨folder.id, World.step_eq_some.mpr ⟨folder, eq_singleton_of_mem hfolder hle, rfl⟩,
          (ih _).mp hleads⟩
      · intro ⟨r, hstep, hwalk⟩
        obtain ⟨folder, hfolder, rfl⟩ := World.step_eq_some.mp hstep
        refine ⟨folder, ?_, (ih _).mpr hwalk⟩
        rw [hfolder]
        exact List.mem_singleton.mpr rfl

/-- A cached or listed answer says where a file lies. -/
theorem World.Tidy.answers (h : w.Tidy) {segments : List Str} {file : DriveFileMeta}
    (hanswer : w.Answers (.path segments) (some file)) :
    file.isFolder = false ↔ w.FileAt segments := by
  match segments with
  | [] =>
      constructor
      · intro hkind
        rw [h.root hanswer] at hkind
        cases hkind
      · intro ⟨_, ⟨init, s, q, hnil, _⟩, _⟩
        simp at hnil
  | s :: rest =>
      obtain ⟨init, last, p, hsegments, hp, ⟨f, hf, hsame⟩, -⟩ := hanswer.1
      have hhas : w.Has w.rootId (s :: rest) f := ⟨init, last, p, hsegments, h.folderAt.mpr hp, hf⟩
      constructor
      · intro hkind
        exact ⟨f, hhas, hsame.2.trans hkind⟩
      · intro ⟨g, hg, hkind⟩
        have heq := (h.plain hg []).symm.trans (h.plain hhas [])
        cases heq
        exact hsame.2.symm.trans hkind

theorem World.Tidy.nothing (h : w.Tidy) {segments : List Str}
    (hanswer : w.Answers (.path segments) none) : ¬w.FileAt segments := by
  obtain ⟨-, ctx, hplain⟩ := World.Answers.nothing hanswer
  intro ⟨file, hhas, _⟩
  rw [h.plain hhas ctx] at hplain
  cases hplain

end Tidy

-- ============================================================== no path twice

section Once

variable {w : World} {recursive : Bool}

theorem nodup_names {children : List DriveFileMeta}
    (h : ∀ s, (children.filter (·.name = s)).length ≤ 1) : (children.map (·.name)).Nodup := by
  rw [List.nodup_iff_count_le_one]
  intro s
  have hfilter : ((· == s) ∘ fun file : DriveFileMeta => file.name) =
      fun file => decide (file.name = s) := by
    funext file
    by_cases hname : file.name = s
    · simp [hname]
    · simp [hname]
  rw [List.count, List.countP_map, List.countP_eq_length_filter, hfilter]
  exact h s

/-- What one child contributes, those of other names do not. -/
theorem World.Listing.apart (hnames : w.Segmented) {rs : List Str} {children : List DriveFileMeta}
    {l : List Listed} (hl : w.Listing recursive (joinPath rs) children l) {p name : Str}
    (hchildren : ∀ child ∈ children, child ∈ w.children p)
    (hname : name ∉ children.map (·.name)) {more : List Str}
    (hsegments : ∀ s ∈ rs ++ name :: more, Segment s) :
    joinPath (rs ++ name :: more) ∉ l.map (·.1) := by
  intro hmem
  obtain ⟨entry, hentry, heq⟩ := List.mem_map.mp hmem
  obtain ⟨child, hchild, more', hpath, hall⟩ :=
    hl.path hnames rfl (fun s hs => hsegments s (List.mem_append_left _ hs)) hchildren hentry
  have hcons := List.append_cancel_left
    (joinPath_injective hall hsegments (hpath.symm.trans heq))
  rw [List.cons.injEq] at hcons
  exact hname (List.mem_map.mpr ⟨child, hchild, hcons.1⟩)

/-- Siblings of one name apart, no path is listed twice. -/
theorem World.Tidy.nodup (h : w.Tidy) {rel : Str} {children : List DriveFileMeta} {l : List Listed}
    (hl : w.Listing recursive rel children l) {rs : List Str} (hrel : rel = joinPath rs)
    (hrs : ∀ s ∈ rs, Segment s) {p : Str} (hchildren : ∀ child ∈ children, child ∈ w.children p)
    (hnodup : (children.map (·.name)).Nodup) : (l.map (·.1)).Nodup := by
  have hfirst : ∀ {rs : List Str} {first : DriveFileMeta} {p : Str}, (∀ s ∈ rs, Segment s) →
      first ∈ w.children p → ∀ s ∈ rs ++ [first.name], Segment s := by
    intro rs first p hrs hchild s hs
    rcases List.mem_append.mp hs with hs | hs
    · exact hrs s hs
    · rw [List.mem_singleton.mp hs]
      exact h.named.segmented.child hchild
  induction hl generalizing rs p with
  | nil => exact List.nodup_nil
  | @leaf rel first rest others _ hothers ih =>
      rw [List.forall_mem_cons] at hchildren
      rw [List.map_cons, List.nodup_cons] at hnodup ⊢
      refine ⟨?_, ih hrel hrs hchildren.2 hnodup.2⟩
      subst hrel
      rw [← joinPath_concat]
      exact hothers.apart h.named.segmented hchildren.2 hnodup.1 (hfirst hrs hchildren.1)
  | @folder rel first rest inside others _ _ hinside hothers ihInside ih =>
      rw [List.forall_mem_cons] at hchildren
      rw [List.map_cons, List.nodup_cons] at hnodup ⊢
      subst hrel
      have hsegments := hfirst hrs hchildren.1
      rw [← joinPath_concat] at hinside ihInside ⊢
      have hinner : ∀ path ∈ inside.map (·.1), ∃ name more,
          path = joinPath (rs ++ first.name :: name :: more) ∧
            ∀ s ∈ rs ++ first.name :: name :: more, Segment s := by
        intro path hpath
        obtain ⟨entry, hentry, rfl⟩ := List.mem_map.mp hpath
        obtain ⟨inner, -, more, heq, hall⟩ :=
          hinside.path h.named.segmented rfl hsegments (fun _ hchild => hchild) hentry
        rw [← List.append_cons] at heq hall
        exact ⟨inner.name, more, heq, hall⟩
      rw [List.map_append, List.mem_append, not_or, List.nodup_append]
      refine ⟨⟨?_, ?_⟩, ?_, ih rfl hrs hchildren.2 hnodup.2, ?_⟩
      · intro hmem
        obtain ⟨name, more, heq, hall⟩ := hinner _ hmem
        have hlists := joinPath_injective hsegments hall heq
        simp at hlists
      · exact hothers.apart h.named.segmented hchildren.2 hnodup.1 hsegments
      · exact ihInside rfl hsegments (fun _ hchild => hchild) (nodup_names (h.sole first.id))
      · intro path hpath other hother heq
        obtain ⟨name, more, hform, hall⟩ := hinner path hpath
        refine hothers.apart h.named.segmented hchildren.2 hnodup.1 hall ?_
        rw [← hform, heq]
        exact hother

theorem World.Tidy.count_le (h : w.Tidy) {p : Str} {l : List Listed}
    (hl : w.Listing recursive [] (w.children p) l) (rel : Str) : countRel l rel ≤ 1 := by
  have hnodup := h.nodup hl joinPath_nil.symm nofun (fun _ hchild => hchild)
    (nodup_names (h.sole p))
  rw [List.nodup_iff_count_le_one] at hnodup
  have hle := hnodup rel
  rw [List.count, List.countP_map, List.countP_eq_length_filter] at hle
  refine le_trans (le_of_eq ?_) hle
  unfold countRel
  congr 1
  refine List.filter_congr ?_
  intro entry _
  by_cases heq : entry.1 = rel
  · simp [heq]
  · simp [heq]

end Once

-- =============================================================== one expansion

section Expansion

variable {w : World} {signed : Bool} {pattern : Str}

theorem CleanSlashes.pieces (h : CleanSlashes pattern) (hne : pattern ≠ []) :
    ∀ s ∈ pattern.splitOn 47, Segment s :=
  fun s hs => ⟨(h.resolve_left hne) s hs, no_slash_of_mem_splitOn hs⟩

theorem splitSegments_of_clean (h : CleanSlashes pattern) (hne : pattern ≠ []) :
    splitSegments pattern = pattern.splitOn 47 ∧ joinPath (pattern.splitOn 47) = pattern := by
  have hpieces := h.pieces hne
  refine ⟨?_, ?_⟩
  · unfold splitSegments
    rw [List.filter_eq_self]
    intro s hs
    simpa using (hpieces s hs).ne_nil
  · rw [← intercalate_eq_joinPath hpieces, List.intercalate_splitOn]

/-- The literal prefix of such a pattern. -/
theorem CleanSlashes.split (h : CleanSlashes pattern)
    (hmeta : hasGlobMetacharacters pattern = true) :
    ∃ literal tail, pattern.splitOn 47 = literal ++ tail ∧ tail ≠ [] ∧
      (∀ s ∈ literal, hasGlobMetacharacters s = false) ∧
      splitSegments (splitGlob pattern).literalPrefix = literal ∧
      (splitGlob pattern).literalPrefix = joinPath literal ∧ (∀ s ∈ literal, Segment s) ∧
      ((splitGlob pattern).recursive = false → ∃ s, tail = [s] ∧ s ≠ str "**") := by
  have hne : pattern ≠ [] := by
    rintro rfl
    cases hmeta
  obtain ⟨literal, tail, hsplit, htail, hliteral, hbegins, hone⟩ := splitGlob_spec hmeta
  have hsegments : ∀ s ∈ literal, Segment s := by
    intro s hs
    apply h.pieces hne
    rw [hsplit]
    exact List.mem_append_left _ hs
  rw [intercalate_eq_joinPath hsegments] at hbegins
  refine ⟨literal, tail, hsplit, htail, hliteral, ?_, hbegins, hsegments, hone⟩
  rw [hbegins, splitSegments_joinPath hsegments]

/-- The segments of a file's path. -/
theorem World.FileAt.segments (hnames : w.Named) {segments : List Str} (h : w.FileAt segments) :
    segments ≠ [] ∧ ∀ s ∈ segments, Segment s ∧ isDotSegment s = false := by
  obtain ⟨file, ⟨init, s, q, rfl, hleads, hfile⟩, -⟩ := h
  refine ⟨by simp, ?_⟩
  exact World.has_named (P := fun t => Segment t ∧ isDotSegment t = false) hnames hleads hfile

theorem World.Matches.segments (hnames : w.Named) {segments : List Str}
    (h : w.Matches signed pattern segments) :
    segmentsMatch signed (pattern.splitOn 47) segments = true := by
  obtain ⟨hne, hsegments⟩ := h.1.segments hnames
  have hmatch := h.2
  rwa [matchPath_eq, splitOn_joinPath (fun s hs => (hsegments s hs).1) hne] at hmatch

/-- What matches lies at or below the literal prefix. -/
theorem World.Matches.below (h : w.Tidy) {literal tail segments : List Str}
    (hsplit : pattern.splitOn 47 = literal ++ tail)
    (hliteral : ∀ s ∈ literal, hasGlobMetacharacters s = false)
    (hmatches : w.Matches signed pattern segments) :
    ∃ rest, segments = literal ++ rest ∧ segmentsMatch signed tail rest = true := by
  have hmatch := hmatches.segments h.named
  rw [hsplit] at hmatch
  exact (segmentsMatch_append hliteral).mp hmatch

/-- A path that leads further than a place leads to it. -/
theorem World.FileAt.leads {literal rest : List Str} (h : w.FileAt (literal ++ rest))
    (hrest : rest ≠ []) : ∃ q file init s, rest = init ++ [s] ∧ w.Leads w.rootId literal q ∧
      (∃ r, w.Leads q init r ∧ file ∈ w.named r s) ∧ file.isFolder = false := by
  obtain ⟨file, ⟨init, s, r, hinit, hleads, hfile⟩, hkind⟩ := h
  obtain ⟨init', s', rfl⟩ := List.eq_nil_or_concat' rest |>.resolve_left hrest
  rw [← List.append_assoc] at hinit
  obtain ⟨rfl, hs⟩ := List.append_inj' hinit rfl
  cases hs
  obtain ⟨q, hq, hr⟩ := World.leads_append.mp hleads
  exact ⟨q, file, init', _, rfl, hq, ⟨r, hr, hfile⟩, hkind⟩

/-- A listing gives the files that match below its folder. -/
theorem World.Tidy.listed (h : w.Tidy) (hclean : CleanSlashes pattern)
    (hmeta : hasGlobMetacharacters pattern = true) {p : Str} {l : List Listed}
    (hat : w.At (splitSegments (splitGlob pattern).literalPrefix) p)
    (hl : w.Listing (splitGlob pattern).recursive [] (w.children p) l) (s : Str) :
    s ∈ (matchListing signed pattern (splitGlob pattern).literalPrefix l).map (·.1) ↔
      ∃ segments, w.Matches signed pattern segments ∧ ¬AtPrefix pattern segments ∧
        s = kGDriveScheme ++ joinPath segments := by
  obtain ⟨literal, tail, hsplit, htail, hliteral, hbase, hbegins, hsegments, hone⟩ :=
    hclean.split hmeta
  rw [hbase] at hat
  -- The whole path of what is listed.
  have hfull : ∀ {init t q}, w.Leads p init q → (∃ file, file ∈ w.named q t) →
      below (splitGlob pattern).literalPrefix (joinPath (init ++ [t])) =
        joinPath (literal ++ (init ++ [t])) := by
    intro init t q hleads ⟨file, hfile⟩
    have hrest : ∀ s ∈ init ++ [t], Segment s :=
      World.has_named h.named.segmented hleads hfile
    rw [hbegins]
    by_cases hnil : literal = []
    · rw [hnil]
      rfl
    · rw [joinPath_append hsegments hrest hnil (by simp)]
      exact extendPath_of_ne_nil (joinPath_ne_nil hsegments hnil) _
  constructor
  · intro hs
    obtain ⟨⟨s, file⟩, hmem, rfl⟩ := List.mem_map.mp hs
    obtain ⟨rel, hentry, hmatch, hkind, hs⟩ := mem_matchListing.mp hmem
    obtain ⟨init, t, q, hleads, hfile, -, hrel⟩ := hl.placed hentry
    simp only at hfile hrel ⊢
    obtain ⟨hchild, rfl⟩ := mem_named.mp hfile
    have hcount : countRel l rel = 1 := by
      refine le_antisymm (h.count_le hl rel) ?_
      unfold countRel
      exact List.length_pos_of_mem (List.mem_filter.mpr ⟨hentry, by simp⟩)
    have hpath : s = kGDriveScheme ++ joinPath (literal ++ (init ++ [file.name])) := by
      rw [hs, hcount, hrel]
      exact (disambiguatePath_path (h.named.segmented.child hchild)).trans
        (congrArg _ (hfull hleads ⟨file, hfile⟩))
    rw [hrel, hfull hleads ⟨file, hfile⟩] at hmatch
    rcases hat with hfolder | ⟨-, hnone⟩
    · refine ⟨literal ++ (init ++ [file.name]), ⟨⟨file, ?_, hkind⟩, hmatch⟩, ?_, hpath⟩
      · exact ⟨literal ++ init, file.name, q, (List.append_assoc _ _ _).symm,
          World.leads_append.mpr ⟨p, h.folderAt.mpr hfolder, hleads⟩, hfile⟩
      · intro ⟨_, heq⟩
        rw [hbase, List.self_eq_append_right] at heq
        simp at heq
    · rw [hnone] at hl
      cases hl
      cases hentry
  · intro ⟨segments, hmatches, hbelow, hs⟩
    obtain ⟨rest, rfl, htailMatch⟩ := hmatches.below h hsplit hliteral
    have hrest : rest ≠ [] := by
      rintro rfl
      rw [List.append_nil] at hbelow
      exact hbelow ⟨hmeta, hbase⟩
    obtain ⟨q, file, init, t, rfl, hq, ⟨r, hr, hfile⟩, hkind⟩ := hmatches.1.leads hrest
    have hfolder := h.folderAt.mp hq
    have hqp : q = p := by
      rcases hat with hp | ⟨hnone, -⟩
      · rw [hfolder] at hp
        exact Option.some.inj hp
      · rw [hfolder] at hnone
        cases hnone
    subst hqp
    have hrec : init ≠ [] → (splitGlob pattern).recursive = true := by
      intro hinit
      by_contra hflat
      obtain ⟨segment, rfl, hstars⟩ := hone (Bool.eq_false_iff.mpr hflat)
      have hlength := length_of_segmentsMatch hstars htailMatch
      rw [List.length_append, List.length_singleton] at hlength
      exact hinit (List.eq_nil_of_length_eq_zero (by omega))
    have hentry := hl.lists hr hfile hrec
    obtain ⟨hchild, rfl⟩ := mem_named.mp hfile
    have hcount : countRel l (joinPath (init ++ [file.name])) = 1 := by
      refine le_antisymm (h.count_le hl _) ?_
      unfold countRel
      exact List.length_pos_of_mem (List.mem_filter.mpr ⟨hentry, by simp⟩)
    refine List.mem_map.mpr ⟨(s, file), mem_matchListing.mpr ⟨_, hentry, ?_, hkind, ?_⟩, rfl⟩
    · rw [hfull hr ⟨file, hfile⟩]
      exact hmatches.2
    · rw [hs, hcount, ← hfull hr ⟨file, hfile⟩]
      exact (disambiguatePath_path (h.named.segmented.child hchild)).symm

/-- A path without metacharacters matches itself. -/
theorem World.Tidy.literal (h : w.Tidy) (hclean : CleanSlashes pattern)
    (hmeta : hasGlobMetacharacters pattern = false) {segments : List Str} :
    w.Matches signed pattern segments ↔
      w.FileAt segments ∧ segments = splitSegments pattern ∧ joinPath segments = pattern := by
  have hpieces : ∀ s ∈ pattern.splitOn 47, hasGlobMetacharacters s = false :=
    literal_of_intercalate (by rw [List.intercalate_splitOn]; exact hmeta)
  constructor
  · intro hmatches
    have hmatch := hmatches.segments h.named
    rw [segmentsMatch_literal hpieces] at hmatch
    obtain ⟨hne, hsegments⟩ := hmatches.1.segments h.named
    have hnil : pattern ≠ [] := by
      rintro rfl
      rw [hmatch] at hsegments
      exact (hsegments [] (by simp)).1.ne_nil rfl
    obtain ⟨hsplit, hjoin⟩ := splitSegments_of_clean hclean hnil
    exact ⟨hmatches.1, by rw [hmatch, hsplit], by rw [hmatch, hjoin]⟩
  · intro ⟨hfile, hsegments, hjoin⟩
    refine ⟨hfile, ?_⟩
    obtain ⟨hne, hall⟩ := hfile.segments h.named
    rw [matchPath_eq, splitOn_joinPath (fun s hs => (hall s hs).1) hne,
      segmentsMatch_literal hpieces, ← hjoin, splitOn_joinPath (fun s hs => (hall s hs).1) hne]

/-- A literal path's result is the path where a file lies. -/
theorem World.Tidy.mem_literalResult (h : w.Tidy) {segments : List Str}
    {found : Option DriveFileMeta} (hanswer : w.Answers (.path segments) found) (path s : Str) :
    s ∈ (literalResult path found).map (·.1) ↔ w.FileAt segments ∧ s = path := by
  cases found with
  | none => exact ⟨nofun, fun hs => absurd hs.1 (h.nothing hanswer)⟩
  | some file =>
      unfold literalResult
      simp only
      by_cases hkind : file.isFolder = true
      · rw [if_pos hkind]
        refine ⟨nofun, fun hs => ?_⟩
        rw [(h.answers hanswer).mpr hs.1] at hkind
        cases hkind
      · rw [if_neg hkind, List.map_singleton, List.mem_singleton]
        exact ⟨fun hs => ⟨(h.answers hanswer).mp (Bool.eq_false_iff.mpr hkind), hs⟩,
          fun hs => hs.2⟩

/-- What an expansion returns is what it matches, but for a file in its own
literal prefix. -/
theorem World.Globs.exact (h : w.Tidy) (hclean : CleanSlashes pattern)
    (hid : (str "id:").isPrefixOf pattern = false) {found : List Found}
    (hglobs : w.Globs signed pattern found) (s : Str) :
    s ∈ found.map (·.1) ↔ ∃ segments, w.Matches signed pattern segments ∧
      ¬AtPrefix pattern segments ∧ s = kGDriveScheme ++ joinPath segments := by
  cases hglobs with
  | @missing ctx hmeta hne hplain =>
      constructor
      · nofun
      · intro ⟨segments, hmatches, hbelow, _⟩
        obtain ⟨literal, tail, hsplit, -, hliteral, hbase, -⟩ := hclean.split hmeta
        obtain ⟨rest, rfl, -⟩ := hmatches.below h hsplit hliteral
        have hrest : rest ≠ [] := by
          rintro rfl
          rw [List.append_nil] at hbelow
          exact hbelow ⟨hmeta, hbase⟩
        obtain ⟨q, -, -, -, -, hq, -⟩ := hmatches.1.leads hrest
        rw [hbase] at hne hplain
        obtain ⟨init, t, rfl⟩ := List.eq_nil_or_concat' literal |>.resolve_left hne
        obtain ⟨r, hr, folder, hfolder, -⟩ := World.leads_append.mp hq
        have hhas : w.Has w.rootId (init ++ [t]) folder :=
          ⟨init, t, r, rfl, hr, (mem_foldersNamed.mp hfolder).1⟩
        rw [h.plain hhas ctx] at hplain
        cases hplain
  | listed hmeta hat hl => exact h.listed hclean hmeta hat hl s
  | @rejected error hmeta hparse =>
      constructor
      · nofun
      · intro ⟨segments, hmatches, _⟩
        obtain ⟨hfile, hsegments, -⟩ := (h.literal hclean hmeta).mp hmatches
        rw [parse_path hid, ← hsegments] at hparse
        have hdots : segments.find? isDotSegment = none := by
          rw [List.find?_eq_none]
          intro t ht
          rw [((hfile.segments h.named).2 t ht).2]
          exact Bool.false_ne_true
        rw [hdots] at hparse
        cases hparse
  | @literal uri found hmeta hparse hanswer =>
      rw [parse_path hid] at hparse
      split at hparse
      · cases hparse
      · cases hparse
        rw [h.mem_literalResult hanswer]
        constructor
        · intro ⟨hfile, hs⟩
          have hnil : pattern ≠ [] := by
            rintro rfl
            exact (hfile.segments h.named).1 rfl
          obtain ⟨hsplit, hjoin⟩ := splitSegments_of_clean hclean hnil
          rw [← hsplit] at hjoin
          refine ⟨_, (h.literal hclean hmeta).mpr ⟨hfile, rfl, hjoin⟩, ?_, by rw [hjoin, hs]⟩
          intro ⟨hmeta', _⟩
          rw [hmeta] at hmeta'
          cases hmeta'
        · intro ⟨segments, hmatches, _, hs⟩
          obtain ⟨hfile, rfl, hjoin⟩ := (h.literal hclean hmeta).mp hmatches
          exact ⟨hfile, by rw [hs, hjoin]⟩

end Expansion

-- ============================================================ all expansions

section Whole

variable {w : World} {signed : Bool} {path : Str}

theorem mem_uniquePaths {seen : List Str} {found : List Found} {s : Str} :
    s ∈ (uniquePaths seen found).map (·.1) ↔ s ∈ found.map (·.1) ∧ s ∉ seen := by
  fun_induction uniquePaths seen found with
  | case1 => simp
  | case2 seen first rest hseen ih =>
      rw [ih, List.map_cons, List.mem_cons]
      constructor
      · intro ⟨hs, hnew⟩
        exact ⟨.inr hs, hnew⟩
      · intro ⟨hs, hnew⟩
        refine ⟨hs.resolve_left ?_, hnew⟩
        rintro rfl
        exact hnew hseen
  | case3 seen first rest hseen ih =>
      rw [List.map_cons, List.mem_cons, ih, List.map_cons, List.mem_cons, List.mem_cons, not_or]
      constructor
      · intro hs
        rcases hs with rfl | ⟨hs, hne, hnew⟩
        · exact ⟨.inl rfl, hseen⟩
        · exact ⟨.inr hs, hnew⟩
      · intro ⟨hs, hnew⟩
        by_cases heq : s = first.1
        · exact .inl heq
        · exact .inr ⟨hs.resolve_left heq, heq, hnew⟩

theorem nodup_uniquePaths (seen : List Str) (found : List Found) :
    ((uniquePaths seen found).map (·.1)).Nodup := by
  fun_induction uniquePaths seen found with
  | case1 => exact List.nodup_nil
  | case2 seen first rest hseen ih => exact ih
  | case3 seen first rest hseen ih =>
      rw [List.map_cons, List.nodup_cons]
      refine ⟨?_, ih⟩
      rw [mem_uniquePaths, not_and, not_not]
      exact fun _ => List.mem_cons_self

/-- Patterns as a glob over a tree takes them. -/
def Plain (pattern : Str) : Prop :=
  CleanSlashes pattern ∧ (str "id:").isPrefixOf pattern = false

theorem World.GlobsAll.exact (h : w.Tidy) {patterns : List Str}
    (hclean : ∀ pattern ∈ patterns, Plain pattern) {found : List Found}
    (hall : w.GlobsAll signed patterns found) (s : Str) :
    s ∈ found.map (·.1) ↔ ∃ pattern ∈ patterns, ∃ segments, w.Matches signed pattern segments ∧
      ¬AtPrefix pattern segments ∧ s = kGDriveScheme ++ joinPath segments := by
  induction patterns generalizing found with
  | nil =>
      obtain rfl : found = [] := hall
      simp
  | cons pattern rest ih =>
      obtain ⟨here, others, rfl, hhere, hothers⟩ := hall
      rw [List.forall_mem_cons] at hclean
      rw [List.map_append, List.mem_append, hhere.exact h hclean.1.1 hclean.1.2,
        ih hclean.2 hothers, List.exists_mem_cons_iff]

/-- An id: form has no expansion but id: forms. -/
theorem expansions_id (hclean : ∀ pattern ∈ expansions path, Plain pattern) {rest : Str}
    (hrest : path.drop kGDriveScheme.length = str "id:" ++ rest) : expansions path = [] := by
  rw [List.eq_nil_iff_forall_not_mem]
  intro pattern hpattern
  have hid := (hclean pattern hpattern).2
  unfold expansions at hpattern
  rw [hrest] at hpattern
  have hbegins : str "id:" <+: pattern := prefix_expandBraces (by decide) hpattern
  rw [List.isPrefixOf_iff_prefix.mpr hbegins] at hid
  cases hid

theorem World.Metadata.kind_eq {id : Str} {f g : DriveFileMeta} (hf : w.Metadata id f)
    (hg : w.Metadata id g) : f.isFolder = g.isFolder := by
  rcases hf with ⟨n, hn, rfl, hid⟩ | ⟨hnone, -, -, hfolder⟩
  · rcases hg with ⟨m, hm, rfl, hid'⟩ | ⟨hnone, -, -, -⟩
    · rw [World.node_unique hn hm (hid.trans hid'.symm)]
    · exact absurd hid (hnone n hn)
  · rcases hg with ⟨m, hm, rfl, hid'⟩ | ⟨-, -, -, hfolder'⟩
    · exact absurd hid' (hnone m hm)
    · rw [hfolder, hfolder']

/-- What a resolution finds of a path is the file it names. -/
theorem World.Tidy.mem_literal (h : w.Tidy) {uri : GDriveUri} (hparse : parseGDriveUri path = .ok uri)
    {found : Option DriveFileMeta} (hanswer : w.Answers uri found) (s : Str) :
    s ∈ (literalResult path found).map (·.1) ↔ w.LiteralFile path ∧ s = path := by
  cases uri with
  | path segments =>
      rw [h.mem_literalResult hanswer]
      refine and_congr_left fun _ => ⟨fun hfile => .inr ⟨segments, hparse, hfile⟩, ?_⟩
      intro hfile
      rcases hfile with ⟨id, file, hid, -⟩ | ⟨segments', hpath, hfile⟩
      · rw [hparse] at hid
        cases hid
      · rw [hparse] at hpath
        cases hpath
        exact hfile
  | fileId id =>
      have hliteral : w.LiteralFile path ↔ ∃ file, w.Metadata id file ∧ file.isFolder = false := by
        constructor
        · intro hfile
          rcases hfile with ⟨id', file, hid, hfile⟩ | ⟨segments, hpath, -⟩
          · rw [hparse] at hid
            cases hid
            exact ⟨file, hfile⟩
          · rw [hparse] at hpath
            cases hpath
        · intro ⟨file, hfile⟩
          exact .inl ⟨id, file, hparse, hfile⟩
      rw [hliteral]
      cases found with
      | none =>
          refine ⟨nofun, ?_⟩
          intro ⟨⟨file, hmeta, _⟩, _⟩
          rcases hmeta with ⟨n, hn, rfl, hid⟩ | ⟨-, hroot, -⟩
          · exact absurd hid (hanswer.2 n hn)
          · exact absurd hroot hanswer.1
      | some file =>
          obtain ⟨f, hmeta, hsame⟩ := hanswer
          unfold literalResult
          simp only
          by_cases hkind : file.isFolder = true
          · rw [if_pos hkind]
            refine ⟨nofun, ?_⟩
            intro ⟨⟨g, hg, hfile⟩, _⟩
            rw [hg.kind_eq hmeta, hsame.2, hkind] at hfile
            cases hfile
          · rw [if_neg hkind, List.map_singleton, List.mem_singleton]
            refine ⟨fun hs => ⟨⟨f, hmeta, ?_⟩, hs⟩, fun hs => hs.2⟩
            exact hsame.2.trans (Bool.eq_false_iff.mpr hkind)

theorem nodup_literalResult (path : Str) (found : Option DriveFileMeta) :
    ((literalResult path found).map (·.1)).Nodup := by
  cases found with
  | none => exact List.nodup_nil
  | some file =>
      unfold literalResult
      simp only
      split
      · exact List.nodup_nil
      · exact List.nodup_singleton _

theorem exact_of_literal {result : List Str} (hnodup : result.Nodup)
    (hresult : ∀ s, s ∈ result ↔ w.LiteralFile path ∧ s = path)
    (hmatch : ∀ pattern ∈ expansions path, ∀ segments, w.Matches signed pattern segments →
      path = kGDriveScheme ++ joinPath segments ∧ w.LiteralFile path) :
    w.GlobExact signed path result := by
  refine ⟨hnodup, ?_⟩
  intro s
  rw [hresult]
  by_cases hany : ∃ pattern ∈ expansions path, ∃ segments, w.Matches signed pattern segments
  · obtain ⟨pattern, hpattern, segments, hmatches⟩ := hany
    constructor
    · intro ⟨_, hs⟩
      exact .inl ⟨pattern, hpattern, segments, hmatches,
        hs.trans (hmatch pattern hpattern segments hmatches).1⟩
    · intro hs
      rcases hs with ⟨other, hother, segments', hmatches', hs⟩ | ⟨hnone, -, -⟩
      · obtain ⟨hpath, hfile⟩ := hmatch other hother segments' hmatches'
        exact ⟨hfile, hs.trans hpath.symm⟩
      · exact absurd hmatches (hnone pattern hpattern segments)
  · have hnone : ∀ pattern ∈ expansions path, ∀ segments,
        ¬w.Matches signed pattern segments := by
      intro pattern hpattern segments hmatches
      exact hany ⟨pattern, hpattern, segments, hmatches⟩
    constructor
    · intro ⟨hfile, hs⟩
      exact .inr ⟨hnone, hs, hfile⟩
    · intro hs
      rcases hs with ⟨pattern, hpattern, segments, hmatches, -⟩ | ⟨-, hs, hfile⟩
      · exact absurd hmatches (hnone pattern hpattern segments)
      · exact ⟨hfile, hs⟩

/-- A probe is an id: form. -/
theorem probe_shape (h : isFileIdFallbackGlobProbe path = true) :
    ∃ rest, path.drop kGDriveScheme.length = str "id:" ++ rest := by
  unfold isFileIdFallbackGlobProbe at h
  rw [Bool.and_eq_true] at h
  have hpieces := h.2
  split at hpieces
  · rename_i id stars tail hsplit
    simp only [Bool.and_eq_true] at hpieces
    obtain ⟨rest, hrest⟩ := List.isPrefixOf_iff_prefix.mp hpieces.1.1.1
    have hjoin : [47].intercalate ((path.drop kGDriveScheme.length).splitOn 47) =
        path.drop kGDriveScheme.length := List.intercalate_splitOn 47
    refine ⟨rest ++ (47 :: stars ++ 47 :: tail), ?_⟩
    rw [← hjoin, hsplit, ← hrest]
    simp [List.intercalate, List.intersperse]
  · cases hpieces

/-- Without braces a path is its only expansion. -/
theorem expansions_plain (hmeta : hasGlobMetacharacters (path.drop kGDriveScheme.length) = false)
    {pattern : Str} (hpattern : pattern ∈ expansions path) :
    pattern = path.drop kGDriveScheme.length := by
  refine expandBraces_literal ?_ hpattern
  intro hbrace
  unfold hasGlobMetacharacters at hmeta
  rw [List.any_eq_false] at hmeta
  exact hmeta 123 hbrace (by decide)

theorem World.Matches.unique (h : w.Tidy) {pattern other : Str} {segments segments' : List Str}
    (hmatches : w.Matches signed pattern segments) (hmatches' : w.Matches signed other segments')
    (heq : kGDriveScheme ++ joinPath segments = kGDriveScheme ++ joinPath segments') :
    segments = segments' :=
  joinPath_injective (fun s hs => ((hmatches.1.segments h.named).2 s hs).1)
    (fun s hs => ((hmatches'.1.segments h.named).2 s hs).1) (List.append_cancel_left heq)

/-- A path without metacharacters returns itself, where it names a file. -/
theorem exact_of_plain (h : w.Tidy) (hclean : ∀ pattern ∈ expansions path, Plain pattern)
    {uri : GDriveUri} (hparse : parseGDriveUri path = .ok uri)
    (hplain : ∀ segments, uri = .path segments → hasGlobMetacharacters path = false)
    {answer : Option DriveFileMeta} (hanswer : w.Answers uri answer) :
    w.GlobExact signed path ((literalResult path answer).map (·.1)) ∧
      w.PrefixesFound signed path := by
  obtain ⟨hpath, hshape⟩ := parse_shape hparse
  refine ⟨exact_of_literal (nodup_literalResult _ _) (h.mem_literal hparse hanswer) ?_, ?_⟩
  · intro pattern hpattern segments' hmatches
    cases uri with
    | fileId id =>
        rw [expansions_id hclean hshape.1] at hpattern
        cases hpattern
    | path segments =>
        have hmeta := hplain segments rfl
        rw [hpath, hasGlobMetacharacters_append, Bool.or_eq_false_iff] at hmeta
        have hclean' := (hclean pattern hpattern).1
        rw [expansions_plain hmeta.2 hpattern] at hmatches hclean'
        obtain ⟨hfile, hsegments, hjoin⟩ := (h.literal hclean' hmeta.2).mp hmatches
        refine ⟨by rw [hjoin]; exact hpath, .inr ⟨segments, hparse, ?_⟩⟩
        rw [hshape.2.1, ← hsegments]
        exact hfile
  · intro pattern hpattern segments' _ hbegins
    cases uri with
    | fileId id =>
        rw [expansions_id hclean hshape.1] at hpattern
        cases hpattern
    | path segments =>
        have hmeta := hplain segments rfl
        rw [hpath, hasGlobMetacharacters_append, Bool.or_eq_false_iff] at hmeta
        have hliteral := hbegins.1
        rw [expansions_plain hmeta.2 hpattern, hmeta.2] at hliteral
        cases hliteral

/-- Where a pattern finds something, it finds all where no file is lost. -/
theorem exact_iff_of_matched (h : w.Tidy) (hclean : ∀ pattern ∈ expansions path, Plain pattern)
    {found : List Found} (hall : w.GlobsAll signed (expansions path) found)
    (hunique : uniquePaths [] found ≠ []) :
    w.GlobExact signed path ((uniquePaths [] found).map (·.1)) ↔ w.PrefixesFound signed path := by
  have hmem : ∀ s, s ∈ (uniquePaths [] found).map (·.1) ↔
      ∃ pattern ∈ expansions path, ∃ segments, w.Matches signed pattern segments ∧
        ¬AtPrefix pattern segments ∧ s = kGDriveScheme ++ joinPath segments := by
    intro s
    rw [mem_uniquePaths, hall.exact h hclean]
    exact and_iff_left List.not_mem_nil
  obtain ⟨entry, hentry⟩ := List.exists_mem_of_ne_nil _ hunique
  obtain ⟨first, hfirst, place, hfirstMatches, -⟩ := (hmem _).mp (List.mem_map_of_mem hentry)
  constructor
  · intro ⟨_, hexact⟩ pattern hpattern segments hmatches _
    have hreturned := (hexact _).mpr (.inl ⟨pattern, hpattern, segments, hmatches, rfl⟩)
    obtain ⟨other, hother, segments', hmatches', hbegins, heq⟩ := (hmem _).mp hreturned
    obtain rfl := hmatches.unique h hmatches' heq
    exact ⟨other, hother, hmatches', hbegins⟩
  · intro hfound
    refine ⟨nodup_uniquePaths _ _, ?_⟩
    intro s
    rw [hmem]
    constructor
    · intro ⟨pattern, hpattern, segments, hmatches, _, hs⟩
      exact .inl ⟨pattern, hpattern, segments, hmatches, hs⟩
    · intro hs
      rcases hs with ⟨pattern, hpattern, segments, hmatches, hs⟩ | ⟨hnone, -⟩
      · by_cases hbegins : AtPrefix pattern segments
        · obtain ⟨other, hother, hmatches', hbegins'⟩ :=
            hfound pattern hpattern segments hmatches hbegins
          exact ⟨other, hother, segments, hmatches', hbegins', hs⟩
        · exact ⟨pattern, hpattern, segments, hmatches, hbegins, hs⟩
      · exact absurd hfirstMatches (hnone first hfirst place)

/-- Where a pattern finds nothing, its text is taken for a path. -/
theorem exact_iff_of_unmatched (h : w.Tidy) (hclean : ∀ pattern ∈ expansions path, Plain pattern)
    {segments : List Str} (hparse : parseGDriveUri path = .ok (.path segments))
    (hmeta : hasGlobMetacharacters path = true) {found : List Found}
    (hall : w.GlobsAll signed (expansions path) found) (hunique : uniquePaths [] found = [])
    {answer : Option DriveFileMeta} (hanswer : w.Answers (.path segments) answer) :
    w.GlobExact signed path ((literalResult path answer).map (·.1)) ↔
      w.PrefixesFound signed path := by
  have hnone : ∀ pattern ∈ expansions path, ∀ segments, w.Matches signed pattern segments →
      AtPrefix pattern segments := by
    intro pattern hpattern segments hmatches
    by_contra hbegins
    have hmem : kGDriveScheme ++ joinPath segments ∈ (uniquePaths [] found).map (·.1) := by
      rw [mem_uniquePaths, hall.exact h hclean]
      exact ⟨⟨pattern, hpattern, segments, hmatches, hbegins, rfl⟩, List.not_mem_nil⟩
    rw [hunique] at hmem
    cases hmem
  constructor
  · intro ⟨_, hexact⟩ pattern hpattern segments hmatches hbegins
    -- A literal prefix has no metacharacter, and the path has one.
    exfalso
    have hmem := (hexact _).mpr (.inl ⟨pattern, hpattern, segments, hmatches, rfl⟩)
    rw [h.mem_literal hparse hanswer] at hmem
    obtain ⟨literal, tail, -, -, hliteral, hbase, -, hsegments, -⟩ :=
      (hclean pattern hpattern).1.split hbegins.1
    have hplain := literal_intercalate hliteral
    rw [intercalate_eq_joinPath hsegments, ← hbase, hbegins.2] at hplain
    rw [← hmem.2, hasGlobMetacharacters_append, hplain] at hmeta
    cases hmeta
  · intro hfound
    refine exact_of_literal (nodup_literalResult _ _) (h.mem_literal hparse hanswer) ?_
    intro pattern hpattern segments hmatches
    obtain ⟨other, hother, hmatches', hbegins'⟩ :=
      hfound pattern hpattern segments hmatches (hnone pattern hpattern segments hmatches)
    exact absurd (hnone other hother segments hmatches') hbegins'

/-- What a whole glob returns is exact where no file is lost. -/
theorem World.GlobEnds.exact_iff (h : w.Tidy) (hclean : ∀ pattern ∈ expansions path, Plain pattern)
    {found : List Found} (hends : w.GlobEnds signed path found) :
    w.GlobExact signed path (found.map (·.1)) ↔ w.PrefixesFound signed path := by
  cases hends with
  | rejected hparse hprobe =>
      obtain ⟨rest, hrest⟩ := probe_shape hprobe
      have hnil := expansions_id hclean hrest
      have hexact : w.GlobExact signed path [] := by
        refine exact_of_literal List.nodup_nil ?_ (by rw [hnil]; nofun)
        intro s
        refine ⟨nofun, ?_⟩
        intro ⟨hfile, _⟩
        rcases hfile with ⟨id, file, hid, -⟩ | ⟨segments, hpath, -⟩
        · rw [hparse] at hid
          cases hid
        · rw [hparse] at hpath
          cases hpath
      have hprefixes : w.PrefixesFound signed path := by
        intro pattern hpattern
        rw [hnil] at hpattern
        cases hpattern
      exact ⟨fun _ => hprefixes, fun _ => hexact⟩
  | literal hparse hplain hanswer =>
      obtain ⟨hexact, hprefixes⟩ := exact_of_plain h hclean hparse hplain hanswer
      exact ⟨fun _ => hprefixes, fun _ => hexact⟩
  | matched hparse hmeta hall hunique => exact exact_iff_of_matched h hclean hall hunique
  | unmatched hparse hmeta hall hunique hanswer =>
      exact exact_iff_of_unmatched h hclean hparse hmeta hall hunique hanswer

theorem Plain.pathPrefixed {pattern : Str} (h : Plain pattern) : PathPrefixed pattern := by
  intro hmeta
  rw [← Bool.not_eq_true, List.isPrefixOf_iff_prefix]
  intro hid
  have hwhole := List.isPrefixOf_iff_prefix.mpr (hid.trans (literalPrefix_begins hmeta))
  rw [h.2] at hwhole
  cases hwhole

end Whole

-- ===================================================================== the run

section Run

variable {signed : Bool} {pj : Picojson} {rounds : Nat} {mayFail : CallReq → Prop}
  {R : Rel Client World} {w w' : World} {o : Opener} {c c' : PathCache}

/-- What `Glob` returns are the files that match, unless one that matches in
a pattern's literal prefix is lost. -/
theorem glob_exact_iff (hR : ∀ w q r w', R w q r w' → treeRel pj mayFail w q r w')
    (hrounds : 1 ≤ rounds) (hroot : rootFolderFor o.auth = w.rootAlias) (htidy : w.Tidy)
    {path : Str} (hclean : ∀ pattern ∈ expansions path, Plain pattern) (hcache : Mirrors w o.auth c)
    {depth : Nat} {result : List Str}
    (hrun : Reaches R (glob signed pj rounds depth o path c) w (.ret (.ok result, c')) w') :
    w.GlobExact signed path result ↔ w.PrefixesFound signed path := by
  have hwp : Code.wp (globEnv R) (glob signed pj rounds depth o path)
      (fun out _ _ => ∀ result, out = .ok result →
        (w.GlobExact signed path result ↔ w.PrefixesFound signed path)) c w := by
    unfold glob
    rw [Code.wp_bind]
    refine Code.wp_mono (wp_globFound hR hrounds hroot htidy.named.segmented
      (fun pattern hpattern => (hclean pattern (mem_expansions hpattern)).pathPrefixed) depth
      hcache) ?_
    intro out c' w' ⟨_, _, hout⟩
    cases out with
    | error e => exact nofun
    | ok found =>
        intro result hresult
        cases hresult
        exact (hout found rfl).exact_iff htidy hclean
  exact Code.wp_returns hwp hrun result rfl

end Run

-- ===================================================== a file as a prefix

section FileAsPrefix

theorem sole_of_apart {w : World} (h : ∀ n ∈ w.nodes, ∀ m ∈ w.nodes, n.parent = m.parent →
    n.file.name = m.file.name → n.file.id = m.file.id) (p s : Str) :
    (w.named p s).length ≤ 1 := by
  have hnodup : ((w.named p s).map (·.id)).Nodup := by
    have hids : w.nodes.map (·.file.id) = (w.nodes.map (·.file)).map (·.id) :=
      (List.map_map).symm
    have hunique := w.unique_ids
    rw [hids] at hunique
    exact hunique.sublist ((List.filter_sublist.trans (List.filter_sublist.map _)).map _)
  have hsame : ∀ f ∈ w.named p s, ∀ g ∈ w.named p s, f.id = g.id := by
    intro f hf g hg
    obtain ⟨hfchild, hfname⟩ := World.mem_named.mp hf
    obtain ⟨hgchild, hgname⟩ := World.mem_named.mp hg
    obtain ⟨n, hn, rfl, -, hfparent⟩ := World.mem_children.mp hfchild
    obtain ⟨m, hm, rfl, -, hgparent⟩ := World.mem_children.mp hgchild
    exact h n hn m hm (hfparent.trans hgparent.symm) (hfname.trans hgname.symm)
  match hnamed : w.named p s with
  | [] => exact Nat.zero_le _
  | [_] => exact le_rfl
  | f :: g :: rest =>
      rw [hnamed] at hnodup hsame
      have heq := hsame f List.mem_cons_self g (List.mem_cons_of_mem _ List.mem_cons_self)
      rw [List.map_cons, List.nodup_cons] at hnodup
      exact absurd (by rw [heq]; exact List.mem_cons_self) hnodup.1

/-- The file `a`, and the folder `d` with the file `x`. -/
def plainTree : World :=
  treeOf
    [{ file := { id := str "A", name := str "a" }, parent := str "R" },
      { file := { id := str "D", name := str "d", mimeType := kFolderMimeType },
        parent := str "R" },
      { file := { id := str "X", name := str "x" }, parent := str "D" }]
    (fun id => if id = str "R" then 0 else if id = str "X" then 2 else 1) (by decide +kernel)

def plainJson : Picojson :=
  tableJson
    [listingJson [], listingJson [{ id := str "A", name := str "a" }],
      listingJson [{ id := str "D", name := str "d", mimeType := kFolderMimeType }],
      listingJson [{ id := str "X", name := str "x" }]]

theorem plainTree_tidy : plainTree.Tidy where
  named := by
    have hall : ∀ n ∈ plainTree.nodes,
        (n.file.name ≠ [] ∧ 47 ∉ n.file.name) ∧ isDotSegment n.file.name = false := by
      decide +kernel
    intro n hn _
    exact ⟨⟨(hall n hn).1.1, (hall n hn).1.2⟩, (hall n hn).2⟩
  sole := sole_of_apart (by decide +kernel)
  root := by
    intro file hfile
    have hnone : ∀ n ∈ plainTree.nodes, n.file.id ≠ plainTree.deref plainTree.rootAlias := by
      decide +kernel
    rcases hfile with ⟨n, hn, rfl, hid⟩ | ⟨-, -, -, hfolder⟩
    · exact absurd hid (hnone n hn)
    · exact hfolder

/-- A glob over this tree, from an empty cache. -/
def plainGlob (path : Str) : Prog Client (Except Exn (List Str) × PathCache) :=
  glob true plainJson 1 3 me path {}

/-- The paths a program returns. -/
def globbed (p : Prog Client (Except Exn (List Str) × PathCache)) : Option (List Str) :=
  match p with
  | .ret (.ok result, _) => some result
  | _ => none

theorem eq_ret_of_globbed {p : Prog Client (Except Exn (List Str) × PathCache)}
    {result : List Str} (h : globbed p = some result) : ∃ c, p = .ret (.ok result, c) := by
  unfold globbed at h
  split at h
  · cases h
    exact ⟨_, rfl⟩
  · cases h

/-- `**` may match nothing, so `a` matches; but nothing lies below a file. -/
theorem glob_exact_lost : ∃ c', Reaches (treeRel plainJson fun _ => True)
    (plainGlob (str "gdrive://a/**")) plainTree (.ret (.ok [], c')) plainTree ∧
      ¬plainTree.GlobExact true (str "gdrive://a/**") [] := by
  have hrun := reaches_servedRun plainJson plainTree (plainGlob (str "gdrive://a/**"))
  have hnothing : globbed (servedRun plainJson plainTree (plainGlob (str "gdrive://a/**"))) =
      some [] := by
    decide +kernel
  obtain ⟨c', hret⟩ := eq_ret_of_globbed hnothing
  rw [hret] at hrun
  refine ⟨c', hrun, ?_⟩
  intro ⟨_, hexact⟩
  have hfile : plainTree.FileAt [str "a"] := by
    refine ⟨{ id := str "A", name := str "a" }, ⟨[], str "a", str "R", rfl, rfl, ?_⟩, by decide⟩
    show _ ∈ plainTree.named (str "R") (str "a")
    decide +kernel
  have hmatches : plainTree.Matches true (str "a/**") [str "a"] := ⟨hfile, by decide +kernel⟩
  have hmem := (hexact (str "gdrive://a")).mpr
    (.inl ⟨str "a/**", by decide +kernel, [str "a"], hmatches, by decide⟩)
  cases hmem

/-- Below a folder nothing is lost. -/
theorem glob_exact_iff_folder : ∃ c', Reaches (treeRel plainJson fun _ => True)
    (plainGlob (str "gdrive://d/**")) plainTree (.ret (.ok [str "gdrive://d/x"], c')) plainTree ∧
      (plainTree.GlobExact true (str "gdrive://d/**") [str "gdrive://d/x"] ↔
        plainTree.PrefixesFound true (str "gdrive://d/**")) := by
  have hrun := reaches_servedRun plainJson plainTree (plainGlob (str "gdrive://d/**"))
  have hone : globbed (servedRun plainJson plainTree (plainGlob (str "gdrive://d/**"))) =
      some [str "gdrive://d/x"] := by
    decide +kernel
  obtain ⟨c', hret⟩ := eq_ret_of_globbed hone
  rw [hret] at hrun
  have hclean : ∀ pattern ∈ expansions (str "gdrive://d/**"), Plain pattern := by
    have honly : expansions (str "gdrive://d/**") = [str "d/**"] := by decide +kernel
    intro pattern hpattern
    rw [honly, List.mem_singleton] at hpattern
    rw [hpattern]
    exact ⟨.inr (by decide +kernel), by decide⟩
  exact ⟨c', hrun, glob_exact_iff (fun _ _ _ _ h => h) le_rfl rfl plainTree_tidy hclean
    cacheInv_empty hrun⟩

end FileAsPrefix

end GDrive
