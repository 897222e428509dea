/-
`gdrive://` URIs (gdrive_uri.hpp/.cpp): the path form and the id: form.

Only the leading position makes `id:` special, so the text of a path whose
first segment begins with `id:` is not the text of that path.
-/
import Mathlib.Data.List.TakeWhile
import GDrive.Base.Path

namespace GDrive

def kGDriveScheme : Str := str "gdrive://"

inductive GDriveUri
  /-- Resolved segment by segment; no segment at all is the root. -/
  | path (segments : List Str)
  | fileId (id : Str)
  deriving DecidableEq

def isGDriveUri (uri : Str) : Bool := kGDriveScheme.isPrefixOf uri

namespace GDriveUri

/-- The canonical text, which error messages show. -/
def toString : GDriveUri → Str
  | .fileId id => kGDriveScheme ++ str "id:" ++ id
  | .path segments => kGDriveScheme ++ [47].intercalate segments

/-- The text of all but the last segment. -/
def parentPath : GDriveUri → Str
  | .fileId _ => kGDriveScheme
  | .path segments => kGDriveScheme ++ [47].intercalate segments.dropLast

def fileName : GDriveUri → Str
  | .fileId _ => []
  | .path segments => segments.getLastD []

end GDriveUri

/-- The pieces between slashes; runs of slashes count as one. -/
def splitSegments (rest : Str) : List Str := (rest.splitOn 47).filter (!·.isEmpty)

/-- A segment that Drive has no meaning for. -/
def isDotSegment (segment : Str) : Bool := segment = str "." ∨ segment = str ".."

def dotSegmentError (segment uri : Str) : Str :=
  if segment = str "." then
    str "gdrive:// path segment \".\" is rejected: Drive has no concept of the current directory (in \""
      ++ uri ++ str "\")"
  else
    str "gdrive:// path segment \"..\" is rejected: Drive has no concept of parent traversal (in \""
      ++ uri ++ str "\")"

def parseGDriveUri (uri : Str) : Except Str GDriveUri :=
  if !isGDriveUri uri then .error (str "not a gdrive:// URI: \"" ++ uri ++ str "\"")
  else
    let rest := uri.drop kGDriveScheme.length
    if (str "id:").isPrefixOf rest then
      if 47 ∈ rest then
        .error (str "the gdrive://id: form addresses a single file and cannot have path segments")
      else if (rest.drop 3).isEmpty then
        .error (str "gdrive:// id: form requires a non-empty file id, got \"" ++ uri ++ str "\"")
      else .ok (.fileId (rest.drop 3))
    else
      match (splitSegments rest).find? isDotSegment with
      | some segment => .error (dotSegmentError segment uri)
      | none => .ok (.path (splitSegments rest))

/-- The key of a path in the path cache; nothing for the id: form. -/
def canonicalPathOf : GDriveUri → Str
  | .path segments => joinPath segments
  | .fileId _ => []

/-- `gdrive://id:<fileId>/**/*.<ext>`, which DuckDB makes of an id: address
that matched nothing. -/
def isFileIdFallbackGlobProbe (uri : Str) : Bool :=
  isGDriveUri uri &&
    match (uri.drop kGDriveScheme.length).splitOn 47 with
    | [id, stars, tail] =>
        (str "id:").isPrefixOf id && id.length != 3 && stars = str "**" &&
          (decide (2 < tail.length) && (str "*.").isPrefixOf tail)
    | _ => false

-- ================================================================ prefixes

def isAsciiBlank (c : UInt8) : Bool := c = 32 ∨ c = 9 ∨ c = 13 ∨ c = 10

def trimAscii (s : Str) : Str :=
  ((s.dropWhile isAsciiBlank).reverse.dropWhile isAsciiBlank).reverse

/-- A reversed prefix without its trailing slashes, one character at least. -/
def dropSlashes : Str → Str
  | 47 :: c :: rest => dropSlashes (c :: rest)
  | s => s

/-- Does the path lie at or under one of the comma-separated prefixes? -/
def pathMatchesAnyPrefix (path csvPrefixes : Str) : Bool :=
  !csvPrefixes.isEmpty && !path.isEmpty &&
    (csvPrefixes.splitOn 44).any fun entry =>
      let pre := (dropSlashes (trimAscii entry).reverse).reverse
      !pre.isEmpty && (path = pre || (pre ++ [47]).isPrefixOf path)

-- ============================================================= what parses

theorem mem_splitSegments {rest segment : Str} (h : segment ∈ splitSegments rest) :
    Segment segment := by
  unfold splitSegments at h
  rw [List.mem_filter] at h
  exact ⟨by simpa using h.2, no_slash_of_mem_splitOn h.1⟩

/-- The segments of a parsed path can each stand between slashes. -/
theorem segment_of_parse {uri : Str} {segments : List Str}
    (h : parseGDriveUri uri = .ok (.path segments)) : ∀ s ∈ segments, Segment s := by
  unfold parseGDriveUri at h
  split at h
  · cases h
  · simp only at h
    split at h
    · split at h
      · cases h
      · split at h <;> cases h
    · split at h
      · cases h
      · cases h
        exact fun s hs => mem_splitSegments hs

/-- What a path may hold after the scheme: anything but an id: form. -/
theorem parse_path {rest : Str} (h : (str "id:").isPrefixOf rest = false) :
    parseGDriveUri (kGDriveScheme ++ rest) =
      match (splitSegments rest).find? isDotSegment with
      | some segment => .error (dotSegmentError segment (kGDriveScheme ++ rest))
      | none => .ok (.path (splitSegments rest)) := by
  have hscheme : isGDriveUri (kGDriveScheme ++ rest) = true :=
    List.isPrefixOf_iff_prefix.mpr (List.prefix_append _ _)
  unfold parseGDriveUri
  rw [hscheme, Bool.not_true, if_neg Bool.false_ne_true]
  simp only [List.drop_left]
  rw [h, if_neg Bool.false_ne_true]

theorem splitSegments_joinPath {segments : List Str} (h : ∀ s ∈ segments, Segment s) :
    splitSegments (joinPath segments) = segments := by
  by_cases hnil : segments = []
  · rw [hnil]
    rfl
  · unfold splitSegments
    rw [splitOn_joinPath h hnil, List.filter_eq_self]
    intro s hs
    simpa using (h s hs).ne_nil

theorem splitSegments_append (a b : Str) :
    splitSegments (a ++ 47 :: b) = splitSegments a ++ splitSegments b := by
  unfold splitSegments
  rw [List.splitOn_append_cons_self, List.filter_append]

theorem splitSegments_extendPath (a b : Str) :
    splitSegments (extendPath a b) = splitSegments a ++ splitSegments b := by
  unfold extendPath
  split
  · rename_i hnil
    rw [List.isEmpty_iff.mp hnil]
    rfl
  · exact splitSegments_append a b

/-- A text is its first piece, behind the slashes it begins with, and what
follows that piece. -/
theorem splitSegments_eq (rest : Str) :
    splitSegments rest =
      if (rest.dropWhile (· == 47)).isEmpty then []
      else (rest.dropWhile (· == 47)).takeWhile (· != 47) ::
        splitSegments ((rest.dropWhile (· == 47)).dropWhile (· != 47)) := by
  induction rest with
  | nil => rfl
  | cons c rest ih =>
      by_cases hc : c = 47
      · rw [hc, List.dropWhile_cons_of_pos rfl, ← ih]
        exact splitSegments_append [] rest
      · have hstop : ((c == 47) = true) = False := by simpa using hc
        have htake : c :: rest = (c :: rest).takeWhile (· != 47) ++ (c :: rest).dropWhile (· != 47) :=
          List.takeWhile_append_dropWhile.symm
        have hpiece : 47 ∉ (c :: rest).takeWhile (· != 47) := by
          intro hmem
          simpa using List.mem_takeWhile_imp hmem
        have hne : (c :: rest).takeWhile (· != 47) ≠ [] := by
          rw [List.takeWhile_cons_of_pos (by simpa using hc)]
          exact List.cons_ne_nil _ _
        have hone : splitSegments ((c :: rest).takeWhile (· != 47)) =
            [(c :: rest).takeWhile (· != 47)] := by
          unfold splitSegments
          rw [List.splitOn_eq_singleton hpiece, List.filter_cons_of_pos (by simpa using hne)]
          rfl
        rw [List.dropWhile_cons_of_neg (by simpa using hc), if_neg (by simp)]
        cases hdrop : (c :: rest).dropWhile (· != 47) with
        | nil =>
            rw [hdrop, List.append_nil] at htake
            rw [← htake] at hone ⊢
            exact hone
        | cons d behind =>
            have hd : d = 47 := by
              have hhead := List.head?_dropWhile_not (· != (47 : UInt8)) (c :: rest)
              rw [hdrop] at hhead
              simpa using hhead
            rw [hdrop, hd] at htake
            rw [hd]
            conv_lhs => rw [htake]
            rw [splitSegments_append, hone]
            exact congrArg _ (splitSegments_append [] behind).symm

-- ============================================================ the round trip

/-- A word without a slash begins a text where it begins its first piece. -/
theorem prefix_of_no_slash {word a b : Str} (hword : 47 ∉ word) :
    word <+: a ++ 47 :: b ↔ word <+: a := by
  constructor
  · intro h
    have hslash : a ++ [47] <+: a ++ 47 :: b := ⟨b, by simp⟩
    rcases List.prefix_or_prefix_of_prefix h hslash with h | h
    · rcases List.prefix_concat_iff.mp h with h | h
      · exact absurd (by simp [h]) hword
      · exact h
    · exact absurd (h.subset (by simp)) hword
  · intro h
    exact h.trans (List.prefix_append _ _)

/-- A printed path reads as an id: form where its first segment begins like
one. -/
theorem id_intercalate (segments : List Str) :
    (str "id:").isPrefixOf ([47].intercalate segments) =
      (segments.head?.any ((str "id:").isPrefixOf ·)) := by
  match segments with
  | [] => rfl
  | [s] =>
      rw [List.intercalate_singleton]
      rfl
  | s :: s' :: rest =>
      rw [List.intercalate_cons_cons, List.append_assoc, List.head?_cons, Option.any_some,
        Bool.eq_iff_iff, List.isPrefixOf_iff_prefix, List.isPrefixOf_iff_prefix]
      exact prefix_of_no_slash (by decide)

/-- What the segments of a parsed path are, printed. -/
theorem parse_intercalate {segments : List Str} (h : ∀ s ∈ segments, Segment s)
    (hdots : ∀ s ∈ segments, isDotSegment s = false)
    (hid : segments.head?.any ((str "id:").isPrefixOf ·) = false) :
    parseGDriveUri (kGDriveScheme ++ [47].intercalate segments) = .ok (.path segments) := by
  have hnone : segments.find? isDotSegment = none := by
    rw [List.find?_eq_none]
    intro s hs
    rw [hdots s hs]
    exact Bool.false_ne_true
  rw [parse_path (by rw [id_intercalate, hid]), intercalate_eq_joinPath h, splitSegments_joinPath h,
    hnone]

theorem parse_fileId {id : Str} (hne : id ≠ []) (hslash : 47 ∉ id) :
    parseGDriveUri (kGDriveScheme ++ str "id:" ++ id) = .ok (.fileId id) := by
  have hscheme : isGDriveUri (kGDriveScheme ++ str "id:" ++ id) = true := by
    unfold isGDriveUri
    rw [List.isPrefixOf_iff_prefix, List.append_assoc]
    exact List.prefix_append _ _
  have hrest : (kGDriveScheme ++ str "id:" ++ id).drop kGDriveScheme.length = str "id:" ++ id := by
    rw [List.append_assoc, List.drop_left]
  have hid : (str "id:").isPrefixOf (str "id:" ++ id) = true :=
    List.isPrefixOf_iff_prefix.mpr (List.prefix_append _ _)
  have hnot : 47 ∉ str "id:" ++ id := by
    rw [List.mem_append, not_or]
    exact ⟨by decide, hslash⟩
  have hdrop : (str "id:" ++ id).drop 3 = id := rfl
  unfold parseGDriveUri
  rw [hscheme, Bool.not_true, if_neg Bool.false_ne_true]
  simp only [hrest]
  rw [if_pos hid, if_neg hnot, hdrop, if_neg (by simpa using hne)]

/-- What may stand behind the scheme of a URI. -/
def GDriveUri.SpelledBy (rest : Str) : GDriveUri → Prop
  | .path segments =>
      (str "id:").isPrefixOf rest = false ∧ segments = splitSegments rest ∧
        ∀ s ∈ segments, isDotSegment s = false
  | .fileId id => rest = str "id:" ++ id ∧ id ≠ [] ∧ 47 ∉ id

theorem parse_shape {path : Str} {uri : GDriveUri} (h : parseGDriveUri path = .ok uri) :
    path = kGDriveScheme ++ path.drop kGDriveScheme.length ∧
      uri.SpelledBy (path.drop kGDriveScheme.length) := by
  unfold parseGDriveUri at h
  split at h
  · cases h
  · rename_i hscheme
    rw [Bool.not_eq_true, Bool.not_eq_false'] at hscheme
    refine ⟨List.prefix_append_drop (List.isPrefixOf_iff_prefix.mp hscheme), ?_⟩
    simp only at h
    split at h
    · rename_i hid
      obtain ⟨rest, hrest⟩ := List.isPrefixOf_iff_prefix.mp hid
      split at h
      · cases h
      · rename_i hslash
        split at h
        · cases h
        · rename_i hempty
          cases h
          rw [← hrest] at hempty hslash ⊢
          refine ⟨rfl, ?_, ?_⟩
          · intro hnil
            exact hempty (List.isEmpty_iff.mpr hnil)
          · intro hmem
            exact hslash (List.mem_append_right _ hmem)
    · rename_i hid
      split at h
      · cases h
      · rename_i hdots
        cases h
        rw [Bool.not_eq_true] at hid
        refine ⟨hid, rfl, ?_⟩
        intro s hs
        simpa using List.find?_eq_none.mp hdots s hs

/-- Does what is parsed print as a text that parses to it, and the path of
its parent as the segments before its last? -/
def GDriveUri.RoundTrips (uri : GDriveUri) : Prop :=
  parseGDriveUri uri.toString = .ok uri ∧
    ∀ segments, uri = .path segments → segments ≠ [] →
      ∃ parents, parseGDriveUri uri.parentPath = .ok (.path parents) ∧
        parents ++ [uri.fileName] = segments

/-- Slashes, and then `id:`: the text is a path, whose first segment would be
an id: form if it stood where the slashes stand. -/
def SlashedId (path : Str) : Prop :=
  ∃ rest, path = kGDriveScheme ++ 47 :: rest ∧ str "id:" <+: rest.dropWhile (· == 47)

theorem slashedId_iff {path : Str} {segments : List Str}
    (h : parseGDriveUri path = .ok (.path segments)) :
    SlashedId path ↔ segments.head?.any ((str "id:").isPrefixOf ·) = true := by
  obtain ⟨hpath, hid, rfl, -⟩ := parse_shape h
  generalize path.drop kGDriveScheme.length = rest at hpath hid
  have hbegins : ∀ y : Str, str "id:" <+: y ↔ str "id:" <+: y.takeWhile (· != 47) := by
    intro y
    constructor
    · intro ⟨z, hz⟩
      rw [← hz, List.takeWhile_append_of_pos (by decide +kernel)]
      exact List.prefix_append _ _
    · intro hy
      exact hy.trans (List.takeWhile_prefix _)
  have hhead : (splitSegments rest).head?.any ((str "id:").isPrefixOf ·) = true ↔
      str "id:" <+: rest.dropWhile (· == 47) := by
    rw [splitSegments_eq]
    split
    · rename_i hempty
      rw [List.isEmpty_iff.mp hempty]
      decide
    · rw [List.head?_cons, Option.any_some, List.isPrefixOf_iff_prefix]
      exact (hbegins _).symm
  rw [hhead]
  constructor
  · intro ⟨rest', hrest', h⟩
    have heq : rest = 47 :: rest' := List.append_cancel_left (hpath.symm.trans hrest')
    rw [heq, List.dropWhile_cons_of_pos rfl]
    exact h
  · intro h
    cases rest with
    | nil => exact absurd h (by decide)
    | cons c rest =>
        by_cases hc : c = 47
        · rw [hc, List.dropWhile_cons_of_pos rfl] at h
          rw [hc] at hpath
          exact ⟨rest, hpath, h⟩
        · rw [List.dropWhile_cons_of_neg (by simpa using hc)] at h
          rw [List.isPrefixOf_iff_prefix.mpr h] at hid
          cases hid

/-- The last segment is the file's name. -/
theorem dropLast_append_fileName {segments : List Str} (hne : segments ≠ []) :
    segments.dropLast ++ [(GDriveUri.path segments).fileName] = segments := by
  show segments.dropLast ++ [segments.getLastD []] = segments
  rw [List.getLastD_eq_getLast?, List.getLast?_eq_getLast_of_ne_nil hne, Option.getD_some,
    List.dropLast_append_getLast hne]

/-- The parent's text is read as the parent's path where the first segment is
no id: form. -/
theorem parse_parentPath {path : Str} {segments : List Str}
    (h : parseGDriveUri path = .ok (.path segments))
    (hid : segments.head?.any ((str "id:").isPrefixOf ·) = false) :
    parseGDriveUri (GDriveUri.path segments).parentPath = .ok (.path segments.dropLast) := by
  obtain ⟨-, -, -, hdots⟩ := parse_shape h
  refine parse_intercalate ?_ ?_ ?_
  · exact fun s hs => segment_of_parse h s (List.dropLast_subset _ hs)
  · exact fun s hs => hdots s (List.dropLast_subset _ hs)
  · cases segments with
    | nil => rfl
    | cons s rest =>
        cases rest with
        | nil => rfl
        | cons s' rest => exact hid

/-- What is parsed is printed and parsed again as it was, unless slashes stand
before an `id:` at the beginning of a path. -/
theorem uri_round_trip {path : Str} {uri : GDriveUri} (h : parseGDriveUri path = .ok uri) :
    uri.RoundTrips ↔ ¬SlashedId path := by
  match uri with
  | .fileId id =>
      obtain ⟨hpath, hrest, hne, hslash⟩ := parse_shape h
      have hslashed : ¬SlashedId path := by
        intro ⟨rest, hrest', _⟩
        rw [hrest', List.drop_left] at hrest
        exact absurd (List.cons.inj hrest).1 (by decide)
      exact ⟨fun _ => hslashed, fun _ => ⟨parse_fileId hne hslash, nofun⟩⟩
  | .path segments =>
      have hsegments := segment_of_parse h
      obtain ⟨-, -, -, hdots⟩ := parse_shape h
      rw [slashedId_iff h, Bool.not_eq_true]
      constructor
      · intro ⟨hprinted, _⟩
        cases hid : segments.head?.any ((str "id:").isPrefixOf ·) with
        | false => rfl
        | true =>
            -- The printed text is an id: form, or none at all.
            obtain ⟨-, hnot, -⟩ := parse_shape hprinted
            show true = false
            rw [← hid, ← id_intercalate, ← hnot]
            show _ = (str "id:").isPrefixOf ((kGDriveScheme ++ [47].intercalate segments).drop _)
            rw [List.drop_left]
      · intro hid
        refine ⟨parse_intercalate hsegments hdots hid, ?_⟩
        intro segments' heq hne
        cases heq
        exact ⟨segments.dropLast, parse_parentPath h hid, dropLast_append_fileName hne⟩

/-- A path is printed and parsed again. -/
theorem uri_round_trip_path :
    (GDriveUri.path [str "a", str "id:b"]).RoundTrips ↔ ¬SlashedId (str "gdrive:///a//id:b/") :=
  uri_round_trip (by decide +kernel)

/-- The path `id:a` is printed as the file id `a`. -/
theorem uri_round_trip_lost : ∃ uri, parseGDriveUri (str "gdrive:///id:a") = .ok uri ∧
    ¬uri.RoundTrips := by
  refine ⟨.path [str "id:a"], by decide +kernel, ?_⟩
  intro ⟨hprinted, _⟩
  have hid : parseGDriveUri (GDriveUri.path [str "id:a"]).toString = .ok (.fileId (str "a")) := by
    decide +kernel
  rw [hid] at hprinted
  cases hprinted

end GDrive
