/-
`EnsureParentDirectories` (gdrive_vfs_functions.cpp): the folders above a
path, made where they are missing.

# The walk

The walk goes up through the text, one slash at a time, to the first folder
there is, and the missing ones are then made from the top down. The text is
cut at every slash, and each cut is parsed by itself, so a run of slashes cuts
the same folder once for each slash (`cutsBelow`).

# What it makes

`CreateDirectory` does not look whether the name is taken. So a missing folder
is made once for every slash behind its name, and once too often where the
target itself ends in a slash. `ensure_parents_exact` is the exact condition,
`ensure_parents_twice` a folder made twice.
-/
import Mathlib.Data.List.Sort
import GDrive.Fs.NewFolder
import GDrive.Fs.Move

namespace GDrive

open Interaction Naming

-- ================================================================== the code

/-- `target.find(needle)`. -/
def findText (needle : Str) : Str → Option Nat
  | [] => if needle.isEmpty then some 0 else none
  | c :: rest =>
      if needle.isPrefixOf (c :: rest) then some 0 else (findText needle rest).map (· + 1)

/-- Where the walk stops: behind the scheme, or behind a leading slash. -/
def rootEnd (target : Str) : Nat :=
  match findText (str "://") target with
  | some scheme => scheme + 3
  | none => if target.head? = some 47 then 1 else 0

def directoryIsFileError (directory : Str) : Exn :=
  .io (str "cannot create directory " ++ quoted directory
    ++ str ": a file of that name already exists.")

section Code

variable (pj : Picojson) (rounds : Nat) (o : Opener)

/-- The walk up, over the places below `sep` where a slash may stand. -/
def missingAbove (target : Str) : Nat → List Str → CacheCode (List Str)
  | 0, missing => pure missing
  | sep + 1, missing =>
      if sep ≤ rootEnd target then pure missing
      else if target[sep]? ≠ some 47 then missingAbove target sep missing
      else do
        let isThere ← directoryExists pj rounds o (target.take sep)
        if isThere then pure missing
        else do
          let isFile ← fileExists pj rounds o (target.take sep)
          Code.when isFile (Code.throw (directoryIsFileError (target.take sep)))
          missingAbove target sep (missing ++ [target.take sep])

def createAll : List Str → CacheCode Unit
  | [] => pure ()
  | directory :: rest => do
      createDirectory pj rounds o directory
      createAll rest

def ensureParentDirectories (target : Str) : CacheCode Unit := do
  let missing ← missingAbove pj rounds o target target.length []
  createAll pj rounds o missing.reverse

end Code

-- ===================================================================== the cuts

/-- The texts below position `n` that end before a slash and lead to no folder. -/
def World.missingCuts (w : World) (rest : Str) (n : Nat) : List Str :=
  ((List.range n).filter fun j =>
    decide (rest[j]? = some 47 ∧ w.folderAt (splitSegments (rest.take j)) = none)).map rest.take

section Cuts

variable {w : World} {rest a : Str}

theorem cut_iff {j : Nat} : rest[j]? = some 47 ↔ rest = rest.take j ++ 47 :: rest.drop (j + 1) := by
  constructor
  · intro h
    obtain ⟨hlt, hslash⟩ := List.getElem?_eq_some_iff.mp h
    conv_lhs => rw [← List.take_append_drop j rest, List.drop_eq_getElem_cons hlt, hslash]
  · intro h
    by_cases hlt : j < rest.length
    · have hlength : (rest.take j).length = j := List.length_take_of_le (Nat.le_of_lt hlt)
      rw [h, List.getElem?_append_right (by omega), hlength, Nat.sub_self, List.getElem?_cons_zero]
    · rw [List.take_of_length_le (by omega)] at h
      exact absurd (congrArg List.length h) (by simp)

theorem World.mem_missingCuts : a ∈ w.missingCuts rest rest.length ↔
    w.folderAt (splitSegments a) = none ∧ ∃ b, rest = a ++ 47 :: b := by
  unfold World.missingCuts
  simp only [List.mem_map, List.mem_filter, List.mem_range, decide_eq_true_eq]
  constructor
  · intro ⟨j, ⟨_, hcut, hnone⟩, heq⟩
    rw [heq] at hnone
    refine ⟨hnone, rest.drop (j + 1), ?_⟩
    rw [← heq]
    exact cut_iff.mp hcut
  · intro ⟨hnone, b, hrest⟩
    have htake : rest.take a.length = a := by
      rw [hrest, List.take_left]
    refine ⟨a.length, ⟨?_, ?_, ?_⟩, htake⟩
    · rw [hrest, List.length_append, List.length_cons]
      omega
    · rw [hrest, List.getElem?_append_right le_rfl, Nat.sub_self, List.getElem?_cons_zero]
    · rw [htake]
      exact hnone

/-- Above a folder there are folders. -/
theorem World.folderAt_prefix {b c : List Str} (h : b <+: c) (hc : w.folderAt c ≠ none) :
    w.folderAt b ≠ none := by
  obtain ⟨d, rfl⟩ := h
  intro hb
  unfold World.folderAt at hb hc
  rw [walk_append, hb, Option.bind_none] at hc
  exact hc rfl

/-- A cut's path leads to the paths of the cuts behind it. -/
theorem splitSegments_cut {i j : Nat} (hij : i < j) (hi : rest[i]? = some 47) :
    splitSegments (rest.take i) <+: splitSegments (rest.take j) := by
  have htake : rest.take j = rest.take i ++ 47 :: (rest.take j).drop (i + 1) := by
    have hcut : (rest.take j)[i]? = some 47 := by
      rw [List.getElem?_take_of_lt hij]
      exact hi
    have htwice : (rest.take j).take i = rest.take i := by
      rw [List.take_take, Nat.min_eq_left (by omega)]
    rw [← htwice]
    exact cut_iff.mp hcut
  rw [htake, splitSegments_append]
  exact List.prefix_append _ _

/-- Above a folder nothing is missing: the walk may stop there. -/
theorem World.missingCuts_of_folder {j : Nat}
    (hthere : w.folderAt (splitSegments (rest.take j)) ≠ none) : w.missingCuts rest j = [] := by
  unfold World.missingCuts
  rw [List.map_eq_nil_iff, List.filter_eq_nil_iff]
  intro i hi
  rw [decide_eq_true_eq]
  intro ⟨hcut, hnone⟩
  exact World.folderAt_prefix (splitSegments_cut (List.mem_range.mp hi) hcut) hthere hnone

theorem World.missingCuts_succ (j : Nat) :
    w.missingCuts rest (j + 1) = w.missingCuts rest j ++
      if rest[j]? = some 47 ∧ w.folderAt (splitSegments (rest.take j)) = none
        then [rest.take j] else [] := by
  unfold World.missingCuts
  rw [List.range_succ, List.filter_append, List.map_append]
  congr 1
  split
  · rename_i h
    rw [List.filter_cons_of_pos (by simpa using h)]
    rfl
  · rename_i h
    rw [List.filter_cons_of_neg (by simpa using h)]
    rfl

/-- A cut parses to the segments before it. -/
theorem parse_cut {b : Str} {segments : List Str}
    (h : parseGDriveUri (kGDriveScheme ++ (a ++ 47 :: b)) = .ok (.path segments)) :
    parseGDriveUri (kGDriveScheme ++ a) = .ok (.path (splitSegments a)) ∧
      segments = splitSegments a ++ splitSegments b := by
  obtain ⟨-, hid, hsegments, hdots⟩ := parse_shape h
  rw [List.drop_left] at hid hsegments
  rw [splitSegments_append] at hsegments
  refine ⟨?_, hsegments⟩
  rw [parse_path]
  · rw [List.find?_eq_none.mpr]
    intro s hs
    rw [hdots s (by rw [hsegments]; exact List.mem_append_left _ hs)]
    exact Bool.false_ne_true
  · cases hbegins : (str "id:").isPrefixOf a with
    | false => rfl
    | true =>
        have hwhole : (str "id:").isPrefixOf (a ++ 47 :: b) = true :=
          List.isPrefixOf_iff_prefix.mpr
            ((List.isPrefixOf_iff_prefix.mp hbegins).trans (List.prefix_append _ _))
        rw [hid] at hwhole
        cases hwhole

end Cuts

-- ===================================================================== the walk

section Walk

variable {pj : Picojson} {rounds : Nat} {o : Opener} {R : Rel Client World} {w : World}
  {c : PathCache}

theorem wp_tryResolvePath_unique
    (hR : ∀ w q r w', R w q r w' → treeRel pj (fun _ => False) w q r w') (hrounds : 1 ≤ rounds)
    (hroot : rootFolderFor o.auth = w.rootAlias) (hw : w.UniqueNames) {segments : List Str}
    (hne : segments ≠ []) (hsegs : ∀ s ∈ segments, Segment s) (h : Agrees w o.auth c) :
    Code.wp (fsEnv R) (tryResolvePath pj rounds o.thread o.auth (.path segments))
      (fun out c' w' => w' = w ∧ Agrees w o.auth c' ∧
        ((out = .ok none ∧ w.folderAt segments = none) ∨
          ∃ file fresh, out = .ok (some (file, fresh)) ∧ w.Names segments file)) c w := by
  refine Code.wp_mono (wp_tryResolvePath_path hR hrounds (truths_agree w) hroot hne hsegs h) ?_
  intro out c' w' ⟨hw', h', _, hout⟩
  refine ⟨hw', h', ?_⟩
  unfold PathAnswer at hout
  split at hout
  · exact .inl ⟨rfl, World.folder_of_plain hne hout⟩
  · exact .inr ⟨_, _, rfl, hout.1⟩
  · rcases hout with hambiguous | ⟨_, hfail⟩
    · exact absurd hambiguous hw.plain_ne_error
    · exact hfail.elim

theorem wp_directoryExists
    (hR : ∀ w q r w', R w q r w' → treeRel pj (fun _ => False) w q r w') (hrounds : 1 ≤ rounds)
    (hroot : rootFolderFor o.auth = w.rootAlias) (hsecret : o.hasSecret = true)
    (hw : w.UniqueNames) {directory : Str} {segments : List Str}
    (hparse : parseGDriveUri directory = .ok (.path segments)) (h : Agrees w o.auth c) :
    Code.wp (fsEnv R) (directoryExists pj rounds o directory)
      (fun out c' w' => w' = w ∧ Agrees w o.auth c' ∧
        out = .ok (w.folderAt segments).isSome) c w := by
  unfold directoryExists
  rw [hsecret, hparse]
  cases segments with
  | nil => exact ⟨rfl, h, rfl⟩
  | cons s rest =>
      simp only
      rw [Code.wp_bind]
      refine Code.wp_mono (wp_tryResolvePath_unique hR hrounds hroot hw (List.cons_ne_nil s rest)
        (segment_of_parse hparse) h) ?_
      intro out c' w' ⟨hw', h', hout⟩
      rcases hout with ⟨rfl, hnone⟩ | ⟨file, fresh, rfl, hnames⟩
      · refine ⟨hw', h', ?_⟩
        rw [hnone]
        rfl
      · refine ⟨hw', h', ?_⟩
        rw [hnames.folder]
        cases hkind : file.isFolder
        · simp [hkind]
        · simp [hkind]

theorem wp_fileExists
    (hR : ∀ w q r w', R w q r w' → treeRel pj (fun _ => False) w q r w') (hrounds : 1 ≤ rounds)
    (hroot : rootFolderFor o.auth = w.rootAlias) (hsecret : o.hasSecret = true)
    (hw : w.UniqueNames) {filename : Str} {segments : List Str}
    (hparse : parseGDriveUri filename = .ok (.path segments))
    (hnone : w.folderAt segments = none) (h : Agrees w o.auth c) :
    Code.wp (fsEnv R) (fileExists pj rounds o filename)
      (fun out c' w' => w' = w ∧ Agrees w o.auth c' ∧ ∃ there, out = .ok there ∧
        (there = true → ∃ file, w.Names segments file ∧ file.isFolder = false)) c w := by
  have hne : segments ≠ [] := by
    intro hnil
    rw [hnil] at hnone
    cases hnone
  unfold fileExists
  rw [hsecret, hparse]
  simp only
  rw [Code.wp_bind]
  refine Code.wp_mono (wp_tryResolvePath_unique hR hrounds hroot hw hne
    (segment_of_parse hparse) h) ?_
  intro out c' w' ⟨hw', h', hout⟩
  rcases hout with ⟨rfl, -⟩ | ⟨file, fresh, rfl, hnames⟩
  · exact ⟨hw', h', false, rfl, nofun⟩
  · refine ⟨hw', h', !file.isFolder, rfl, ?_⟩
    intro hthere
    exact ⟨file, hnames, by simpa using hthere⟩

theorem rootEnd_scheme (rest : Str) : rootEnd (kGDriveScheme ++ rest) = 9 := rfl

/-- What the walk finds: the missing cuts, the longest first, or a file where
a folder is missing. -/
def CutsFound (w : World) (rest : Str) (n : Nat) (missing : List Str) :
    Except Exn (List Str) → Prop
  | .ok found =>
      found = missing ++ ((w.missingCuts rest n).map (kGDriveScheme ++ ·)).reverse
  | .error _ =>
      ∃ a b, rest = a ++ 47 :: b ∧
        ∃ file, w.Names (splitSegments a) file ∧ file.isFolder = false

/-- The walk, by induction on the places left. -/
theorem wp_missingAbove
    (hR : ∀ w q r w', R w q r w' → treeRel pj (fun _ => False) w q r w') (hrounds : 1 ≤ rounds)
    (hroot : rootFolderFor o.auth = w.rootAlias) (hsecret : o.hasSecret = true)
    (hw : w.UniqueNames) {rest : Str} {segments : List Str}
    (hparse : parseGDriveUri (kGDriveScheme ++ rest) = .ok (.path segments)) (n : Nat)
    (missing : List Str) (h : Agrees w o.auth c) :
    Code.wp (fsEnv R)
      (missingAbove pj rounds o (kGDriveScheme ++ rest) (kGDriveScheme.length + n) missing)
      (fun out c' w' => w' = w ∧ Agrees w o.auth c' ∧ CutsFound w rest n missing out) c w := by
  induction n generalizing missing c with
  | zero =>
      show Code.wp _ (missingAbove pj rounds o (kGDriveScheme ++ rest) (8 + 1) missing) _ _ _
      unfold missingAbove
      rw [rootEnd_scheme, if_pos (by decide)]
      exact ⟨rfl, h, (List.append_nil _).symm⟩
  | succ n ih =>
      have hslash : (kGDriveScheme ++ rest)[kGDriveScheme.length + n]? = rest[n]? := by
        rw [List.getElem?_append_right (Nat.le_add_right _ _), Nat.add_sub_cancel_left]
      have hcut : (kGDriveScheme ++ rest).take (kGDriveScheme.length + n) =
          kGDriveScheme ++ rest.take n := by
        rw [List.take_append]
        simp
      have hsame : w.folderAt (splitSegments (rest.take n)) ≠ none ∨ rest[n]? ≠ some 47 →
          w.missingCuts rest (n + 1) = w.missingCuts rest n := by
        intro hnot
        rw [World.missingCuts_succ, if_neg (by tauto), List.append_nil]
      rw [← Nat.add_assoc]
      unfold missingAbove
      rw [rootEnd_scheme, hslash, hcut]
      split
      · rename_i hstop
        obtain rfl : n = 0 := by
          have hlength : kGDriveScheme.length = 9 := rfl
          omega
        refine ⟨rfl, h, ?_⟩
        show missing = missing ++ ((w.missingCuts rest 1).map (kGDriveScheme ++ ·)).reverse
        rw [hsame (.inl (by exact Option.some_ne_none w.rootId))]
        exact (List.append_nil _).symm
      · split
        · rename_i hother
          refine Code.wp_mono (ih missing h) ?_
          intro out c' w' ⟨hw', h', hout⟩
          refine ⟨hw', h', ?_⟩
          unfold CutsFound at hout ⊢
          rw [hsame (.inr hother)]
          exact hout
        · rename_i hthere
          rw [not_not] at hthere
          have hrest := cut_iff.mp hthere
          have hcutparse : parseGDriveUri (kGDriveScheme ++ rest.take n) =
              .ok (.path (splitSegments (rest.take n))) := by
            rw [hrest] at hparse
            exact (parse_cut hparse).1
          rw [Code.wp_bind]
          refine Code.wp_mono (wp_directoryExists hR hrounds hroot hsecret hw hcutparse h) ?_
          intro out c₁ w' ⟨hw', h₁, hout⟩
          subst hw'
          rw [hout, Code.outcome_ok]
          cases hfolder : w'.folderAt (splitSegments (rest.take n)) with
          | some q =>
              have hsome : w'.folderAt (splitSegments (rest.take n)) ≠ none := by
                rw [hfolder]
                exact Option.some_ne_none q
              refine ⟨rfl, h₁, ?_⟩
              show missing = missing ++
                ((w'.missingCuts rest (n + 1)).map (kGDriveScheme ++ ·)).reverse
              rw [hsame (.inl hsome), World.missingCuts_of_folder hsome]
              exact (List.append_nil _).symm
          | none =>
              rw [Option.isSome_none, if_neg Bool.false_ne_true, Code.wp_bind]
              refine Code.wp_mono
                (wp_fileExists hR hrounds hroot hsecret hw hcutparse hfolder h₁) ?_
              intro out c₂ w'' ⟨hw'', h₂, there, hthat, hfile⟩
              subst hw''
              rw [hthat, Code.outcome_ok, Code.wp_bind, Code.wp_when]
              constructor
              · intro hyes
                exact ⟨rfl, h₂, _, _, hrest, hfile hyes⟩
              · intro _
                rw [Code.outcome_ok]
                refine Code.wp_mono (ih _ h₂) ?_
                intro out c' w' ⟨hw', h', hfound⟩
                refine ⟨hw', h', ?_⟩
                unfold CutsFound at hfound ⊢
                rw [World.missingCuts_succ, if_pos ⟨hthere, hfolder⟩, List.map_append,
                  List.reverse_append]
                split at hfound
                · rw [hfound, List.append_assoc]
                  rfl
                · exact hfound

end Walk

-- =============================================================== the ancestors

/-- The paths from below `done` to `done ++ rest`, topmost first. -/
def pathsAlong (done : List Str) : List Str → List (List Str)
  | [] => []
  | s :: rest => (done ++ [s]) :: pathsAlong (done ++ [s]) rest

/-- The folders a path goes through. -/
def ancestors (segments : List Str) : List (List Str) := pathsAlong [] segments.dropLast

/-- The ancestors there are none of. -/
def World.missingAncestors (w : World) (segments : List Str) : List (List Str) :=
  (ancestors segments).filter fun a => w.folderAt a = none

section Ancestors

variable {w : World} {rest a : Str} {segments done path : List Str}

theorem mem_pathsAlong {names : List Str} :
    path ∈ pathsAlong done names ↔ ∃ b c, names = b ++ c ∧ b ≠ [] ∧ path = done ++ b := by
  induction names generalizing done with
  | nil =>
      constructor
      · exact nofun
      · intro ⟨b, c, hnil, hne, _⟩
        exact absurd (List.append_eq_nil_iff.mp hnil.symm).1 hne
  | cons s names ih =>
      rw [pathsAlong, List.mem_cons, ih]
      constructor
      · rintro (rfl | ⟨b, c, rfl, -, rfl⟩)
        · exact ⟨[s], names, rfl, List.cons_ne_nil _ _, rfl⟩
        · exact ⟨s :: b, c, rfl, List.cons_ne_nil _ _, by simp⟩
      · intro ⟨b, c, hcons, hne, hpath⟩
        obtain ⟨t, b, rfl⟩ := List.exists_cons_of_ne_nil hne
        obtain ⟨rfl, rfl⟩ := List.cons.inj hcons
        by_cases hb : b = []
        · left
          rw [hpath, hb]
        · exact .inr ⟨b, c, rfl, hb, by simp [hpath]⟩

theorem mem_ancestors :
    path ∈ ancestors segments ↔ path ≠ [] ∧ ∃ s more, segments = path ++ s :: more := by
  unfold ancestors
  rw [mem_pathsAlong]
  constructor
  · intro ⟨b, c, hlast, hne, hpath⟩
    rw [List.nil_append] at hpath
    subst hpath
    have hnonempty : segments ≠ [] := by
      intro hnil
      rw [hnil] at hlast
      exact hne (List.append_eq_nil_iff.mp hlast.symm).1
    refine ⟨hne, ?_⟩
    have hwhole := List.dropLast_append_getLast hnonempty
    rw [hlast, List.append_assoc] at hwhole
    cases c with
    | nil => exact ⟨_, _, hwhole.symm⟩
    | cons t c => exact ⟨_, _, hwhole.symm⟩
  · intro ⟨hne, s, more, hsegments⟩
    refine ⟨path, (s :: more).dropLast, ?_, hne, rfl⟩
    rw [hsegments, List.dropLast_append_cons]

/-- The deeper a path, the later it comes. -/
theorem pathsAlong_sorted (done names : List Str) :
    (pathsAlong done names).Pairwise fun a b => a.length < b.length := by
  induction names generalizing done with
  | nil => exact .nil
  | cons s names ih =>
      refine .cons ?_ (ih _)
      intro path hpath
      obtain ⟨b, c, -, hne, rfl⟩ := mem_pathsAlong.mp hpath
      have hpos := List.length_pos_iff.mpr hne
      simp only [List.length_append]
      omega

theorem splitSegments_ne_nil {c : UInt8} {b : Str} (hc : c ≠ 47) : splitSegments (c :: b) ≠ [] := by
  rw [splitSegments_eq, List.dropWhile_cons_of_neg (by simpa using hc), if_neg (by simp)]
  exact List.cons_ne_nil _ _

/-- Each path above a text's is the path of a cut, by induction on the
text's last piece. -/
theorem exists_cut {rest s : Str} {path more : List Str}
    (hsplit : splitSegments rest = path ++ s :: more) (hne : path ≠ []) : ∃ a b, rest = a ++ 47 :: b ∧ splitSegments a = path := by
  by_cases hslash : 47 ∈ rest
  · obtain ⟨before, behind, hrest, hlast⟩ := List.eq_append_cons_of_mem (List.mem_reverse.mpr hslash)
    have hcut : rest = behind.reverse ++ 47 :: before.reverse := by
      rw [← List.reverse_reverse rest, hrest]
      simp
    have hpieces : splitSegments before.reverse =
        if before = [] then [] else [before.reverse] := by
      unfold splitSegments
      rw [List.splitOn_eq_singleton (by simpa using hlast)]
      by_cases hb : before = []
      · rw [if_pos hb, hb]
        rfl
      · rw [if_neg hb, List.filter_cons_of_pos (by simpa using hb)]
        rfl
    rw [hcut, splitSegments_append, hpieces] at hsplit
    have hshorter : behind.reverse.length < rest.length := by
      rw [hcut, List.length_append, List.length_cons]
      omega
    have hbelow : ∀ more', splitSegments behind.reverse = path ++ s :: more' →
        ∃ a b, rest = a ++ 47 :: b ∧ splitSegments a = path := by
      intro more' hsplit'
      obtain ⟨a, b, hbehind, ha⟩ := exists_cut hsplit' hne
      refine ⟨a, b ++ 47 :: before.reverse, ?_, ha⟩
      rw [hcut, hbehind, List.append_assoc, List.cons_append]
    split at hsplit
    · rw [List.append_nil] at hsplit
      exact hbelow more hsplit
    · obtain rfl | ⟨more', t, rfl⟩ := List.eq_nil_or_concat' more
      · exact ⟨_, _, hcut, (List.append_inj' hsplit rfl).1⟩
      · rw [← List.cons_append, ← List.append_assoc] at hsplit
        exact hbelow more' (List.append_inj' hsplit rfl).1
  · exfalso
    unfold splitSegments at hsplit
    rw [List.splitOn_eq_singleton hslash] at hsplit
    have hlength := List.length_filter_le (fun t : Str => !t.isEmpty) [rest]
    have hpos := List.length_pos_iff.mpr hne
    rw [hsplit, List.length_append, List.length_cons, List.length_singleton] at hlength
    omega
termination_by rest.length

theorem World.mem_missingAncestors : path ∈ w.missingAncestors segments ↔
    path ∈ ancestors segments ∧ w.folderAt path = none := by
  unfold World.missingAncestors
  rw [List.mem_filter, decide_eq_true_eq]

theorem World.missingAncestors_sorted (w : World) (segments : List Str) :
    (w.missingAncestors segments).Pairwise fun a b => a.length < b.length :=
  (pathsAlong_sorted [] _).filter _

/-- Each missing ancestor is cut out at least once. -/
theorem World.cut_of_missing (h : path ∈ w.missingAncestors (splitSegments rest)) :
    path ∈ (w.missingCuts rest rest.length).map splitSegments := by
  obtain ⟨hpath, hnone⟩ := World.mem_missingAncestors.mp h
  obtain ⟨hne, s, more, hsplit⟩ := mem_ancestors.mp hpath
  obtain ⟨a, b, hrest, rfl⟩ := exists_cut hsplit hne
  exact List.mem_map_of_mem (World.mem_missingCuts.mpr ⟨hnone, b, hrest⟩)

/-- No slash behind a missing folder's name is followed by another slash, and
none ends the text. -/
def World.SingleSlashes (w : World) (target : Str) : Prop :=
  ∀ a b, target = kGDriveScheme ++ (a ++ 47 :: b) → w.folderAt (splitSegments a) = none →
    ∃ c rest, b = c :: rest ∧ c ≠ 47

/-- Single slashes cut out each missing ancestor once. -/
theorem World.SingleSlashes.cuts (h : w.SingleSlashes (kGDriveScheme ++ rest)) :
    (w.missingCuts rest rest.length).map splitSegments =
      w.missingAncestors (splitSegments rest) := by
  have hirrefl : Std.Irrefl fun a b : List Str => a.length < b.length :=
    ⟨fun a => Nat.lt_irrefl _⟩
  have hantisymm : Std.Antisymm fun a b : List Str => a.length < b.length :=
    ⟨fun a b hab hba => absurd hab (Nat.lt_asymm hba)⟩
  refine List.Pairwise.eq_of_mem_iff ?_ (w.missingAncestors_sorted _) ?_
  · -- Of two cuts the later one has a longer path.
    unfold World.missingCuts
    rw [List.map_map, List.pairwise_map]
    refine (List.pairwise_lt_range.filter _).imp_of_mem ?_
    intro i j hi hj hlt
    simp only [List.mem_filter, List.mem_range, decide_eq_true_eq] at hi hj
    obtain ⟨c, b, hb, hc⟩ := h _ _ (congrArg _ (cut_iff.mp hi.2.1)) hi.2.2
    have hnext : rest[i + 1]? = some c := by
      rw [← List.head?_drop, hb]
      rfl
    have hfar : i + 1 < j := by
      refine Nat.lt_of_le_of_ne hlt ?_
      intro heq
      rw [heq, hj.2.1] at hnext
      exact hc (Option.some.inj hnext).symm
    obtain ⟨k, rfl⟩ := Nat.exists_eq_add_of_lt hfar
    have htake : rest.take (i + 1 + k + 1) = rest.take i ++ 47 :: c :: b.take k := by
      conv_lhs => rw [cut_iff.mp hi.2.1, hb]
      have hlength : (rest.take i).length = i := List.length_take_of_le (Nat.le_of_lt hi.1)
      rw [List.take_append, hlength, List.take_take, Nat.min_eq_right (by omega),
        show i + 1 + k + 1 - i = k + 2 by omega, List.take_succ_cons, List.take_succ_cons]
    simp only [Function.comp_apply]
    rw [htake, splitSegments_append, List.length_append]
    have hpos := List.length_pos_iff.mpr (splitSegments_ne_nil (b := b.take k) hc)
    omega
  · intro path
    refine ⟨?_, World.cut_of_missing⟩
    intro hmem
    obtain ⟨a, ha, rfl⟩ := List.mem_map.mp hmem
    obtain ⟨hnone, b, hrest⟩ := World.mem_missingCuts.mp ha
    obtain ⟨c, b, rfl, hc⟩ := h a b (congrArg _ hrest) hnone
    refine World.mem_missingAncestors.mpr ⟨mem_ancestors.mpr ⟨?_, ?_⟩, hnone⟩
    · intro hnil
      rw [hnil] at hnone
      cases hnone
    · obtain ⟨s, more, hmore⟩ := List.exists_cons_of_ne_nil (splitSegments_ne_nil (b := b) hc)
      exact ⟨s, more, by rw [hrest, splitSegments_append, hmore]⟩

/-- As many cuts as missing ancestors: the slashes are single. -/
theorem World.singleSlashes_of_length (h : (w.missingCuts rest rest.length).length =
    (w.missingAncestors (splitSegments rest)).length) :
    w.SingleSlashes (kGDriveScheme ++ rest) := by
  have hnodup : (w.missingAncestors (splitSegments rest)).Nodup := by
    refine (w.missingAncestors_sorted _).imp ?_
    intro a b hlt heq
    rw [heq] at hlt
    exact Nat.lt_irrefl _ hlt
  have hperm := (List.subperm_of_subset hnodup fun _ => World.cut_of_missing).perm_of_length_le
    (by rw [List.length_map, h])
  intro a b htarget hnone
  have hrest : rest = a ++ 47 :: b := List.append_cancel_left htarget
  have ha := World.mem_missingCuts.mpr ⟨hnone, b, hrest⟩
  have hmissing := hperm.mem_iff.mpr (List.mem_map_of_mem ha)
  obtain ⟨-, s, more, hsplit⟩ := mem_ancestors.mp (World.mem_missingAncestors.mp hmissing).1
  rw [hrest, splitSegments_append] at hsplit
  have hbehind := List.append_cancel_left hsplit
  cases b with
  | nil => cases hbehind
  | cons c b =>
      refine ⟨c, b, rfl, ?_⟩
      -- Two slashes cut out one path twice.
      intro hc
      have hsame : splitSegments (a ++ [47]) = splitSegments a := by
        rw [splitSegments_append]
        exact List.append_nil _
      have ha' : a ++ [47] ∈ w.missingCuts rest rest.length := by
        refine World.mem_missingCuts.mpr ⟨by rw [hsame, hnone], b, ?_⟩
        rw [hrest, hc, List.append_assoc]
        rfl
      have htwice := List.inj_on_of_nodup_map (hperm.nodup_iff.mp hnodup) ha' ha hsame
      exact absurd (congrArg List.length htwice) (by simp)

end Ancestors

-- =============================================================== the creation

/-- New folders at these paths, one each and in this order, and nothing else. -/
structure World.Grown (w : World) (paths : List (List Str)) (w' : World) : Prop where
  made : ∃ news, w'.nodes = w.nodes ++ news ∧
    List.Forall₂ (fun path n => w'.folderAt path = some n.file.id) paths news
  unique : w'.UniqueNames
  kept : ∀ {path q}, w.folderAt path = some q → w'.folderAt path = some q

section Creation

variable {pj : Picojson} {rounds : Nat} {o : Opener} {R : Rel Client World} {w w' : World}
  {c : PathCache}

theorem World.Grown.cons {w₁ : World} {p : Str} {file : DriveFileMeta} {done : List Str}
    {paths : List (List Str)} (h : w.MakesFolder p file w₁) (hfree : w.named p file.name = [])
    (hp : w.folderAt done = some p) (hrest : w₁.Grown paths w') :
    w.Grown ((done ++ [file.name]) :: paths) w' := by
  obtain ⟨news, hnodes, hnews⟩ := hrest.made
  refine ⟨⟨{ file, parent := p } :: news, ?_, .cons (hrest.kept (h.folderAt_new hfree hp)) hnews⟩, hrest.unique,
    fun hpath => hrest.kept (h.folderAt_mono hfree hpath)⟩
  rw [hnodes, h.nodes, List.append_assoc]
  rfl

theorem World.Grown.there {paths : List (List Str)} (h : w.Grown paths w') {path : List Str}
    (hpath : path ∈ paths) : w'.folderAt path ≠ none := by
  obtain ⟨news, -, hnews⟩ := h.made
  clear h
  induction hnews with
  | nil => cases hpath
  | cons hone _ ih =>
      rcases List.mem_cons.mp hpath with rfl | hpath
      · rw [hone]
        exact Option.some_ne_none _
      · exact ih hpath

/-- The missing folders, made from the top down: each lies in the one made
before it, where nothing is yet. -/
theorem wp_createAll
    (hR : ∀ w q r w', R w q r w' → treeRel pj (fun _ => False) w q r w') (hrounds : 1 ≤ rounds)
    (hroot : rootFolderFor o.auth = w.rootAlias) {texts done names : List Str} {p : Str}
    (htexts : List.Forall₂ (fun text path => parseGDriveUri text = .ok (.path path)) texts
      (pathsAlong done names))
    (hid : (done ++ names).head?.any ((str "id:").isPrefixOf ·) = false)
    (hp : w.folderAt done = some p) (hfree : ∀ s, names.head? = some s → w.named p s = [])
    (hw : w.UniqueNames) (h : Agrees w o.auth c) :
    Code.wp (fsEnv R) (createAll pj rounds o texts)
      (fun out _ w' => out = .ok () ∧ w.Grown (pathsAlong done names) w') c w := by
  induction names generalizing texts done p w c with
  | nil =>
      cases htexts
      exact ⟨rfl, ⟨[], (List.append_nil _).symm, .nil⟩, hw, id⟩
  | cons s names ih =>
      cases htexts with
      | cons hparse htexts =>
          rw [List.append_cons] at hid
          have hfirst : (done ++ [s]).head?.any ((str "id:").isPrefixOf ·) = false := by
            rw [List.head?_append_of_ne_nil _ (List.concat_ne_nil s done)] at hid
            exact hid
          unfold createAll
          rw [Code.wp_bind]
          refine Code.wp_mono (wp_createDirectory hR hrounds hroot hw hparse hfirst hp
            (hfree s rfl) h) ?_
          intro out c₁ w₁ ⟨hout, h₁, file, hname, hmade⟩
          subst hname
          rw [hout, Code.outcome_ok]
          have hnone := hfree file.name rfl
          refine Code.wp_mono (ih (hroot.trans hmade.creates.2.rootAlias.symm) htexts hid
            (hmade.folderAt_new hnone hp) ?_ (hmade.uniqueNames hnone hw) h₁) ?_
          · intro t _
            exact World.named_eq_nil hmade.children_new
          · intro out c' w' ⟨hout, hgrown⟩
            exact ⟨hout, hgrown.cons hmade hnone hp⟩

/-- However many are to be made, each is. -/
theorem wp_createAll_count
    (hR : ∀ w q r w', R w q r w' → treeRel pj (fun _ => False) w q r w') (texts : List Str) :
    Code.wp (.ofRel R fun _ => True) (createAll pj rounds o texts)
      (fun out _ w' => out = .ok () → w'.nodes.length = w.nodes.length + texts.length) c w := by
  induction texts generalizing w c with
  | nil => exact fun _ => rfl
  | cons directory texts ih =>
      unfold createAll
      rw [Code.wp_bind]
      refine Code.wp_mono (wp_createDirectory_one hR directory) ?_
      intro out c₁ w₁ hone
      cases out with
      | error e => exact nofun
      | ok _ =>
          obtain ⟨n, hn⟩ := hone rfl
          rw [Code.outcome_ok]
          refine Code.wp_mono ih ?_
          intro out c' w' hrest hout
          rw [hrest hout, hn]
          simp only [List.length_append, List.length_cons, List.length_nil]
          omega

/-- The missing ones are what lies beneath the deepest folder there is. -/
theorem World.missing_along {done : List Str} (names : List Str)
    (hdone : w.folderAt done ≠ none) :
    ∃ above below, done ++ names = above ++ below ∧ w.folderAt above ≠ none ∧
      (∀ s, below.head? = some s → w.folderAt (above ++ [s]) = none) ∧
      ((pathsAlong done names).filter fun a => w.folderAt a = none) = pathsAlong above below := by
  induction names generalizing done with
  | nil => exact ⟨done, [], rfl, hdone, nofun, rfl⟩
  | cons s names ih =>
      by_cases hnone : w.folderAt (done ++ [s]) = none
      · refine ⟨done, s :: names, rfl, hdone, ?_, ?_⟩
        · intro t ht
          cases ht
          exact hnone
        · rw [List.filter_eq_self]
          intro path hpath
          rw [decide_eq_true_eq]
          by_contra hthere
          refine World.folderAt_prefix ?_ hthere hnone
          rcases List.mem_cons.mp hpath with rfl | hpath
          · exact List.prefix_refl _
          · obtain ⟨b, c, -, -, rfl⟩ := mem_pathsAlong.mp hpath
            exact List.prefix_append _ _
      · obtain ⟨above, below, hsplit, habove, hbelow, hfilter⟩ := ih hnone
        refine ⟨above, below, ?_, habove, hbelow, ?_⟩
        · rw [← hsplit, List.append_cons]
        · rw [pathsAlong, List.filter_cons_of_neg (by simpa using hnone)]
          exact hfilter

end Creation

-- =================================================================== the result

/-- The missing ancestors have been made, once each, and nothing else. -/
structure EnsuredExactly (w : World) (segments : List Str) (r : Except Exn Unit) (w' : World) :
    Prop where
  returned : r = .ok ()
  there : ∀ path ∈ ancestors segments, w'.folderAt path ≠ none
  made : ∃ news, w'.nodes = w.nodes ++ news ∧
    List.Forall₂ (fun path n => w'.folderAt path = some n.file.id) (w.missingAncestors segments)
      news
  unique : w'.UniqueNames

section Result

variable {pj : Picojson} {rounds : Nat} {o : Opener} {R : Rel Client World} {w w' : World}
  {c : PathCache} {rest : Str} {segments : List Str}

theorem World.Grown.ensured (h : w.Grown (w.missingAncestors segments) w') :
    EnsuredExactly w segments (.ok ()) w' := by
  refine ⟨rfl, ?_, h.made, h.unique⟩
  intro path hpath
  cases hfolder : w.folderAt path with
  | none => exact h.there (World.mem_missingAncestors.mpr ⟨hpath, hfolder⟩)
  | some q =>
      rw [h.kept hfolder]
      exact Option.some_ne_none q

/-- Only folders stand where the ancestors do. -/
def World.AncestorsAreFolders (w : World) (segments : List Str) : Prop :=
  ∀ path ∈ ancestors segments, ∀ file, w.Names path file → file.isFolder = true

theorem forall₂_cuts (hparse : parseGDriveUri (kGDriveScheme ++ rest) = .ok (.path segments))
    (cuts : List Str) (hcuts : ∀ a ∈ cuts, ∃ b, rest = a ++ 47 :: b) :
    List.Forall₂ (fun text path => parseGDriveUri text = .ok (.path path))
      (cuts.map (kGDriveScheme ++ ·)) (cuts.map splitSegments) := by
  rw [List.forall₂_map_left_iff, List.forall₂_map_right_iff, List.forall₂_same]
  intro a ha
  obtain ⟨b, hrest⟩ := hcuts a ha
  rw [hrest] at hparse
  exact (parse_cut hparse).1

/-- With single slashes the missing ancestors are made. -/
theorem wp_ensureParentDirectories
    (hR : ∀ w q r w', R w q r w' → treeRel pj (fun _ => False) w q r w') (hrounds : 1 ≤ rounds)
    (hroot : rootFolderFor o.auth = w.rootAlias) (hsecret : o.hasSecret = true)
    (hw : w.UniqueNames)
    (hparse : parseGDriveUri (kGDriveScheme ++ rest) = .ok (.path segments))
    (hid : segments.head?.any ((str "id:").isPrefixOf ·) = false)
    (hfolders : w.AncestorsAreFolders segments)
    (hsingle : w.SingleSlashes (kGDriveScheme ++ rest)) (h : Agrees w o.auth c) :
    Code.wp (fsEnv R) (ensureParentDirectories pj rounds o (kGDriveScheme ++ rest))
      (fun out _ w' => EnsuredExactly w segments out w') c w := by
  obtain ⟨-, -, hsegments, -⟩ := parse_shape hparse
  rw [List.drop_left] at hsegments
  unfold ensureParentDirectories
  rw [List.length_append, Code.wp_bind]
  refine Code.wp_mono (wp_missingAbove hR hrounds hroot hsecret hw hparse _ [] h) ?_
  intro out c₁ w₁ ⟨hw₁, h₁, hout⟩
  subst hw₁
  have hmissing : ∀ path ∈ w₁.missingAncestors segments, ∀ file, ¬w₁.Names path file := by
    intro path hpath file hnames
    obtain ⟨hancestor, hnone⟩ := World.mem_missingAncestors.mp hpath
    rw [hnames.folder, if_pos (hfolders path hancestor file hnames)] at hnone
    cases hnone
  have hcuts := hsingle.cuts
  rw [← hsegments] at hcuts
  unfold CutsFound at hout
  split at hout
  · obtain ⟨above, below, hsplit, habove, hbelow, hfilter⟩ :=
      World.missing_along segments.dropLast
        (show w₁.folderAt [] ≠ none from Option.some_ne_none w₁.rootId)
    have halong : w₁.missingAncestors segments = pathsAlong above below := hfilter
    obtain ⟨p, hp⟩ := Option.ne_none_iff_exists'.mp habove
    have htexts := forall₂_cuts hparse (w₁.missingCuts rest rest.length)
      fun a ha => (World.mem_missingCuts.mp ha).2
    rw [hcuts, halong] at htexts
    rw [Code.outcome_ok, hout, List.nil_append, List.reverse_reverse]
    refine Code.wp_mono (wp_createAll hR hrounds hroot htexts ?_ hp ?_ hw h₁) ?_
    · rw [← hsplit, List.nil_append]
      cases segments with
      | nil => rfl
      | cons s more =>
          cases more with
          | nil => rfl
          | cons t more => exact hid
    · intro s hs
      obtain ⟨more, rfl⟩ := List.head?_eq_some_iff.mp hs
      rw [List.eq_nil_iff_forall_not_mem]
      intro file hfile
      refine hmissing (above ++ [s]) ?_ file (World.names_leaf hp (hw.named hfile))
      rw [halong]
      exact List.mem_cons_self
    · intro out c' w' ⟨hout, hgrown⟩
      rw [hout]
      rw [← halong] at hgrown
      exact hgrown.ensured
  · obtain ⟨a, b, hrest, file, hnames, hkind⟩ := hout
    have hnone : w₁.folderAt (splitSegments a) = none := by
      rw [hnames.folder, hkind]
      rfl
    have hmem : splitSegments a ∈ (w₁.missingCuts rest rest.length).map splitSegments :=
      List.mem_map_of_mem (World.mem_missingCuts.mpr ⟨hnone, b, hrest⟩)
    rw [hcuts] at hmem
    exact (hmissing _ hmem file hnames).elim

/-- Where all goes well, as many folders are made as there were missing cuts. -/
theorem wp_ensureParentDirectories_count
    (hR : ∀ w q r w', R w q r w' → treeRel pj (fun _ => False) w q r w') (hrounds : 1 ≤ rounds)
    (hroot : rootFolderFor o.auth = w.rootAlias) (hsecret : o.hasSecret = true)
    (hw : w.UniqueNames)
    (hparse : parseGDriveUri (kGDriveScheme ++ rest) = .ok (.path segments))
    (h : Agrees w o.auth c) :
    Code.wp (.ofRel R fun _ => True) (ensureParentDirectories pj rounds o (kGDriveScheme ++ rest))
      (fun out _ w' => out = .ok () →
        w'.nodes.length = w.nodes.length + (w.missingCuts rest rest.length).length) c w := by
  unfold ensureParentDirectories
  rw [List.length_append, Code.wp_bind]
  refine Code.wp_mono
    (Code.wp_of_total (wp_missingAbove hR hrounds hroot hsecret hw hparse _ [] h)) ?_
  intro out c₁ w₁ ⟨hw₁, _, hout⟩
  subst hw₁
  cases out with
  | error e => exact nofun
  | ok found =>
      rw [Code.outcome_ok, show found = _ from hout, List.nil_append, List.reverse_reverse]
      refine Code.wp_mono (wp_createAll_count hR _) ?_
      intro out c' w' hcount hout
      rw [hcount hout, List.length_map]

/-- `EnsureParentDirectories` makes the missing ancestors of its target, each
once, and nothing else, exactly where single slashes stand behind what is
missing. -/
theorem ensure_parents_exact {target : Str} {p' : Prog Client (Except Exn Unit × PathCache)}
    (hrounds : 1 ≤ rounds) (hroot : rootFolderFor o.auth = w.rootAlias)
    (hsecret : o.hasSecret = true) (hw : w.UniqueNames)
    (hparse : parseGDriveUri target = .ok (.path segments))
    (hid : segments.head?.any ((str "id:").isPrefixOf ·) = false)
    (hfolders : w.AncestorsAreFolders segments) (h : Agrees w o.auth c)
    (hrun : Reaches (treeRel pj fun _ => False) (ensureParentDirectories pj rounds o target c) w
      p' w') :
    (w.SingleSlashes target → p' ≠ .cut) ∧
      ∀ r c', p' = .ret (r, c') → (EnsuredExactly w segments r w' ↔ w.SingleSlashes target) := by
  obtain ⟨htarget, -, hsegments, -⟩ := parse_shape hparse
  generalize target.drop kGDriveScheme.length = rest at htarget hsegments
  subst htarget
  have hR : ∀ w q r w', treeRel pj (fun _ => False) w q r w' → treeRel pj (fun _ => False) w q r w' :=
    fun _ _ _ _ hr => hr
  refine ⟨?_, ?_⟩
  · intro hsingle hcut
    subst hcut
    exact Env.total_uncut (wp_ensureParentDirectories hR hrounds hroot hsecret hw hparse hid
      hfolders hsingle h) hrun
  · intro r c' hret
    subst hret
    constructor
    · intro hensured
      have hcount := Code.wp_returns (wp_ensureParentDirectories_count hR hrounds hroot hsecret hw
        hparse h) hrun hensured.returned
      obtain ⟨news, hnodes, hnews⟩ := hensured.made
      rw [hnodes, List.length_append, ← hnews.length_eq, hsegments] at hcount
      exact World.singleSlashes_of_length (by omega)
    · intro hsingle
      exact Code.wp_returns (Code.wp_of_total (wp_ensureParentDirectories hR hrounds hroot hsecret
        hw hparse hid hfolders hsingle h)) hrun

end Result

-- ============================================================ a folder made twice

section Twice

/-- A folder `a`. -/
def newA (id : Str) : DriveFileMeta := { id, name := str "a", mimeType := kFolderMimeType }

def flat (id : Str) : Nat := if id = str "R" then 0 else 1

/-- An empty tree, and the trees that one and two folders `a` make of it. -/
def madeTrees (n : Nat) : World :=
  if n = 0 then treeOf [] flat (by decide +kernel)
  else if n = 1 then
    treeOf [{ file := newA (str "A"), parent := str "R" }] flat (by decide +kernel)
  else
    treeOf [{ file := newA (str "A"), parent := str "R" },
      { file := newA (str "B"), parent := str "R" }] flat (by decide +kernel)

/-- What Drive says on the way. -/
def madeJson : Picojson :=
  tableJson
    [listingJson [], fileObject (madeTrees 0).rootFile, fileObject (newA (str "A")),
      fileObject (newA (str "B"))]

/-- The Drive that makes the next folder `a`. -/
def making : Nat → (q : CallReq) → Except Exn DriveResponse × Nat
  | 0, .upload [] parentId name contentType [] _ =>
      if parentId = str "R" ∧ name = str "a" ∧ contentType = kFolderMimeType then
        (.ok (reply (fileObject (newA (str "A")))), 1)
      else (lost, 0)
  | 1, .upload [] parentId name contentType [] _ =>
      if parentId = str "R" ∧ name = str "a" ∧ contentType = kFolderMimeType then
        (.ok (reply (fileObject (newA (str "B")))), 2)
      else (lost, 1)
  | n, q => (served madeJson (madeTrees n) q, n)

theorem making_truthful (n : Nat) (q : CallReq) (resp : DriveResponse)
    (h : (making n q).1 = .ok resp) :
    treeRel madeJson (fun _ => False) (madeTrees n) q (.ok resp) (madeTrees (making n q).2) := by
  unfold making at h ⊢
  split at h
  · split at h
    · rename_i heq
      obtain ⟨rfl, rfl, rfl⟩ := heq
      cases h
      rw [if_pos ⟨rfl, rfl, rfl⟩]
      exact .inl ⟨_, rfl, rfl, rfl, newA (str "A"), by decide +kernel, by decide +kernel,
        by decide +kernel, nofun, rfl, ⟨by decide, by decide, by decide +kernel⟩, rfl, rfl, rfl⟩
    · cases h
  · split at h
    · rename_i heq
      obtain ⟨rfl, rfl, rfl⟩ := heq
      cases h
      rw [if_pos ⟨rfl, rfl, rfl⟩]
      exact .inl ⟨_, rfl, rfl, rfl, newA (str "B"), by decide +kernel, by decide +kernel,
        by decide +kernel, nofun, rfl, ⟨by decide, by decide, by decide +kernel⟩, rfl, rfl, rfl⟩
    · cases h
  · exact answered_truthful h

/-- `EnsureParentDirectories` on the empty tree. -/
def ensureOf (target : Str) : Prog Client (Except Exn Unit × PathCache) :=
  ensureParentDirectories madeJson 1 me target {}

def succeeded : Prog Client (Except Exn Unit × PathCache) → Bool
  | .ret (.ok (), _) => true
  | _ => false

theorem eq_ret_of_succeeded {p : Prog Client (Except Exn Unit × PathCache)}
    (h : succeeded p = true) : ∃ c', p = .ret (.ok (), c') := by
  unfold succeeded at h
  split at h
  · exact ⟨_, rfl⟩
  · cases h

theorem reaches_ensureOf (target : Str) (n : Nat)
    (hanswered : answered making (ensureOf target) 0 = true)
    (hsucceeded : succeeded ((ensureOf target).play making 0).1 = true)
    (hplayed : ((ensureOf target).play making 0).2 = n) :
    ∃ c', Reaches (treeRel madeJson fun _ => False) (ensureOf target) (madeTrees 0)
      (.ret (.ok (), c')) (madeTrees n) := by
  have hrun := reaches_answered making_truthful hanswered
  obtain ⟨c', hret⟩ := eq_ret_of_succeeded hsucceeded
  rw [hret, hplayed] at hrun
  exact ⟨c', hrun⟩

theorem madeTrees_unique : (madeTrees 0).UniqueNames := fun _ _ => Nat.zero_le 1

theorem madeTrees_folders (segments : List Str) :
    (madeTrees 0).AncestorsAreFolders segments := by
  intro path _ file ⟨init, s, p, _, _, ⟨f, hf, _⟩, _⟩
  cases hf

/-- A second slash makes `a` a second time. -/
theorem ensure_parents_twice :
    parseGDriveUri (str "gdrive://a//b") = .ok (.path [str "a", str "b"]) ∧
      (madeTrees 0).UniqueNames ∧ (madeTrees 0).AncestorsAreFolders [str "a", str "b"] ∧
      ∃ c', Reaches (treeRel madeJson fun _ => False)
          (ensureParentDirectories madeJson 1 me (str "gdrive://a//b") {}) (madeTrees 0)
          (.ret (.ok (), c')) (madeTrees 2) ∧
        ¬EnsuredExactly (madeTrees 0) [str "a", str "b"] (.ok ()) (madeTrees 2) := by
  obtain ⟨c', hrun⟩ := reaches_ensureOf (str "gdrive://a//b") 2
    (by decide +kernel) (by decide +kernel) (by decide +kernel)
  refine ⟨by decide +kernel, madeTrees_unique, madeTrees_folders _, c', hrun, ?_⟩
  intro hensured
  have htwo : ((madeTrees 2).named (str "R") (str "a")).length = 2 := by decide +kernel
  have hone := hensured.unique (str "R") (str "a")
  omega

/-- One slash makes `a` once. -/
theorem ensure_parents_exact_once : ∃ c', Reaches (treeRel madeJson fun _ => False)
    (ensureParentDirectories madeJson 1 me (str "gdrive://a/b") {}) (madeTrees 0)
    (.ret (.ok (), c')) (madeTrees 1) ∧
      EnsuredExactly (madeTrees 0) [str "a", str "b"] (.ok ()) (madeTrees 1) := by
  obtain ⟨c', hrun⟩ := reaches_ensureOf (str "gdrive://a/b") 1
    (by decide +kernel) (by decide +kernel) (by decide +kernel)
  refine ⟨c', hrun, ?_⟩
  refine ((ensure_parents_exact le_rfl rfl rfl madeTrees_unique (by decide +kernel)
    (by decide +kernel) (madeTrees_folders _) cacheInv_empty hrun).2 _ c' rfl).mpr ?_
  intro a b htarget _
  have hrest : str "a/b" = a ++ 47 :: b :=
    List.append_cancel_left (show kGDriveScheme ++ str "a/b" = _ from htarget)
  have hslash : (str "a/b")[a.length]? = some 47 := by
    rw [hrest, List.getElem?_append_right le_rfl, Nat.sub_self, List.getElem?_cons_zero]
  have hone : a.length = 1 := by
    match hlength : a.length with
    | 0 => exact absurd (hlength ▸ hslash) (by decide)
    | 1 => rfl
    | 2 => exact absurd (hlength ▸ hslash) (by decide)
    | _ + 3 => exact absurd (hlength ▸ hslash) nofun
  have hb : str "b" = b := by
    obtain ⟨x, rfl⟩ := List.length_eq_one_iff.mp hone
    exact (List.cons.inj (List.cons.inj hrest).2).2
  rw [← hb]
  exact ⟨98, [], rfl, by decide⟩

end Twice

end GDrive
