/-
`gdrive_immutable_prefixes` (gdrive_uri.cpp): which paths lie at or under an
entry of the list.

# Two meanings

By its contract an entry is a path, and it covers the paths whose segments
begin with its own (`NamesAbove`). The code compares texts. A text that begins
another up to a slash has the same pieces between its slashes, the empty ones
included (`splitOn_prefix_iff`), so the code asks for more than the contract:
the slashes must be written alike (`SpelledAlike`).

# The scheme's own slashes

It also asks for less. The slashes at the end of an entry are dropped, those of
the scheme too, and what is left of the bare scheme begins every path
(`matchesEntry_iff`). So the two agree where an entry both covers the path and
is spelled as the path is, or where the two slips cancel out
(`pathMatchesAnyPrefix_agrees_iff`).
-/
import Mathlib.Data.List.DropRight
import GDrive.Fs.Uri

namespace GDrive

-- ============================================================== pieces of a text

section Pieces

variable {α : Type} {sep : List α}

theorem intercalate_append {xs ys : List (List α)} (hx : xs ≠ []) (hy : ys ≠ []) :
    sep.intercalate (xs ++ ys) = sep.intercalate xs ++ (sep ++ sep.intercalate ys) := by
  induction xs with
  | nil => exact absurd rfl hx
  | cons x xs ih =>
      by_cases hnil : xs = []
      · rw [hnil, List.singleton_append, List.intercalate_cons_of_ne_nil hy,
          List.intercalate_singleton, List.append_assoc]
      · have hnil' : xs ++ ys ≠ [] := List.append_ne_nil_of_left_ne_nil hnil ys
        rw [List.cons_append, List.intercalate_cons_of_ne_nil hnil',
          List.intercalate_cons_of_ne_nil hnil, ih hnil]
        simp only [List.append_assoc]

theorem rdropWhile_append_replicate {p : α → Bool} {x : α} (hx : p x = true) (l : List α)
    (k : Nat) : (l ++ List.replicate k x).rdropWhile p = l.rdropWhile p := by
  induction k with
  | zero => rw [List.replicate_zero, List.append_nil]
  | succ k ih =>
      rw [List.replicate_succ', ← List.append_assoc, List.rdropWhile_concat_pos p _ x hx, ih]

variable [BEq α] {c : α}

/-- A text that does not end in a separator does not end in an empty piece. -/
theorem splitOn_concat {a : List α} {d : α} (hd : (d == c) = false) :
    ∃ pieces piece, (a ++ [d]).splitOn c = pieces ++ [piece] ∧ piece ≠ [] := by
  induction a with
  | nil =>
      refine ⟨[], [d], ?_, List.cons_ne_nil _ _⟩
      apply List.splitOn_eq_singleton_of_beq_eq_false
      intro x hx
      rw [List.mem_singleton.mp hx]
      exact hd
  | cons x a ih =>
      obtain ⟨pieces, piece, hsplit, hne⟩ := ih
      rw [List.cons_append, List.splitOn_cons_eq_if_modifyHead, hsplit]
      split
      · exact ⟨[] :: pieces, piece, rfl, hne⟩
      · cases pieces with
        | nil => exact ⟨[], x :: piece, rfl, List.cons_ne_nil _ _⟩
        | cons first pieces => exact ⟨(x :: first) :: pieces, piece, rfl, hne⟩

variable [LawfulBEq α]

/-- The pieces of a text begin those of another where the text does, up to a
separator. -/
theorem splitOn_prefix_iff {a b : List α} :
    a.splitOn c <+: b.splitOn c ↔ b = a ∨ a ++ [c] <+: b := by
  constructor
  · rintro ⟨rest, hrest⟩
    have hb : [c].intercalate (b.splitOn c) = b := List.intercalate_splitOn c
    have ha : [c].intercalate (a.splitOn c) = a := List.intercalate_splitOn c
    by_cases hnil : rest = []
    · rw [← hrest, hnil, List.append_nil, ha] at hb
      exact .inl hb.symm
    · rw [← hrest, intercalate_append (List.splitOn_ne_nil c a) hnil, ha, ← List.append_assoc] at hb
      exact .inr ⟨_, hb⟩
  · rintro (rfl | ⟨t, rfl⟩)
    · exact List.prefix_refl _
    · rw [List.append_assoc, List.singleton_append, List.splitOn_append_cons_self]
      exact List.prefix_append _ _

/-- Each separator at the end adds an empty piece. -/
theorem splitOn_append_replicate (a : List α) (k : Nat) :
    (a ++ List.replicate k c).splitOn c = a.splitOn c ++ List.replicate k [] := by
  induction k generalizing a with
  | zero => simp
  | succ k ih =>
      have hsplit := ih []
      rw [List.nil_append, List.splitOn_nil, List.singleton_append] at hsplit
      rw [List.replicate_succ, List.splitOn_append_cons_self, hsplit, ← List.replicate_succ]

end Pieces

-- ============================================================ trailing slashes

/-- An entry without its trailing slashes, of which one stays where there is
nothing else. -/
def stripSlashes (entry : Str) : Str := (dropSlashes entry.reverse).reverse

theorem dropSlashes_cons {c : UInt8} (hc : c ≠ 47) (rest : Str) :
    dropSlashes (c :: rest) = c :: rest := by
  unfold dropSlashes
  split
  · rename_i heq
    exact absurd (List.cons.inj heq).1 hc
  · rfl

theorem stripSlashes_append {a : Str} {c : UInt8} (hc : c ≠ 47) (k : Nat) :
    stripSlashes (a ++ c :: List.replicate k 47) = a ++ [c] := by
  have hdrop : ∀ k, dropSlashes (List.replicate k 47 ++ c :: a.reverse) = c :: a.reverse := by
    intro k
    induction k with
    | zero => exact dropSlashes_cons hc _
    | succ k ih =>
        cases k with
        | zero =>
            show dropSlashes (c :: a.reverse) = _
            exact dropSlashes_cons hc _
        | succ k => exact ih
  unfold stripSlashes
  rw [List.reverse_append, List.reverse_cons, List.reverse_replicate, List.append_assoc,
    List.singleton_append, hdrop, List.reverse_cons, List.reverse_reverse]

theorem stripSlashes_replicate (k : Nat) :
    stripSlashes (List.replicate k 47) = [] ∨ stripSlashes (List.replicate k 47) = [47] := by
  have hdrop : ∀ k, dropSlashes (List.replicate (k + 1) 47) = [47] := by
    intro k
    induction k with
    | zero => rfl
    | succ k ih => exact ih
  unfold stripSlashes
  rw [List.reverse_replicate]
  cases k with
  | zero => exact .inl rfl
  | succ k =>
      rw [hdrop]
      exact .inr rfl

/-- A text is slashes alone, or ends in a last letter that is none, and
slashes. -/
theorem trailing_slashes (text : Str) :
    (∃ k, text = List.replicate k 47) ∨
      ∃ a c k, c ≠ 47 ∧ text = a ++ c :: List.replicate k 47 := by
  induction text using List.reverseRecOn with
  | nil => exact .inl ⟨0, rfl⟩
  | append_singleton text d ih =>
      by_cases hd : d = 47
      · rw [hd]
        rcases ih with ⟨k, rfl⟩ | ⟨a, c, k, hc, rfl⟩
        · exact .inl ⟨k + 1, List.replicate_succ'.symm⟩
        · refine .inr ⟨a, c, k + 1, hc, ?_⟩
          rw [List.append_assoc, List.cons_append, ← List.replicate_succ']
      · exact .inr ⟨text, d, 0, hd, rfl⟩

-- ==================================================================== one entry

/-- The entry is a path, whose segments the path's own begin with. -/
def NamesAbove (entry : Str) (segments : List Str) : Prop :=
  ∃ named, parseGDriveUri entry = .ok (.path named) ∧ named <+: segments

/-- What stands between the slashes behind the scheme; where slashes follow
each other, nothing. -/
def pieces (text : Str) : List Str := (text.drop kGDriveScheme.length).splitOn 47

/-- The entry's slashes are written as the path's are, those at its end
apart. -/
def SpelledAlike (entry path : Str) : Prop := (pieces entry).rdropWhile List.isEmpty <+: pieces path

/-- The scheme without all of its slashes. -/
def TruncatedScheme (entry : Str) : Prop := entry = str "gdrive:" ∨ entry = str "gdrive:/"

/-- What the loop asks of one entry. -/
def MatchesEntry (entry path : Str) : Prop :=
  stripSlashes entry ≠ [] ∧ (path = stripSlashes entry ∨ stripSlashes entry ++ [47] <+: path)

theorem pieces_scheme (rest : Str) : pieces (kGDriveScheme ++ rest) = rest.splitOn 47 := by
  unfold pieces
  rw [List.drop_left]

theorem splitSegments_replicate (a : Str) (k : Nat) :
    splitSegments (a ++ List.replicate k 47) = splitSegments a := by
  unfold splitSegments
  rw [splitOn_append_replicate, List.filter_append, List.filter_replicate_of_neg (by simp),
    List.append_nil]

/-- The scheme and slashes: the root, which the code takes for the text before
the slashes. -/
theorem matchesEntry_root (rest : Str) (segments : List Str) (k : Nat) :
    MatchesEntry (kGDriveScheme ++ List.replicate k 47) (kGDriveScheme ++ rest) ∧
      NamesAbove (kGDriveScheme ++ List.replicate k 47) segments ∧
      SpelledAlike (kGDriveScheme ++ List.replicate k 47) (kGDriveScheme ++ rest) := by
  have hid : (str "id:").isPrefixOf (List.replicate k 47) = false := by
    cases k with
    | zero => rfl
    | succ k => rfl
  have hnone : splitSegments (List.replicate k 47) = [] := splitSegments_replicate [] k
  refine ⟨?_, ⟨[], ?_, List.nil_prefix⟩, ?_⟩
  · have hstrip : stripSlashes (kGDriveScheme ++ List.replicate k 47) = str "gdrive" ++ [58] :=
      stripSlashes_append (a := str "gdrive") (c := 58) (by decide) (k + 2)
    unfold MatchesEntry
    rw [hstrip]
    refine ⟨by decide, .inr ⟨47 :: rest, rfl⟩⟩
  · rw [parse_path hid, hnone]
    rfl
  · unfold SpelledAlike
    rw [pieces_scheme, show List.replicate k (47 : UInt8) = [] ++ List.replicate k 47 from rfl,
      splitOn_append_replicate, List.splitOn_nil, List.singleton_append, ← List.replicate_succ]
    have hempty : ([] ++ List.replicate (k + 1) ([] : Str)).rdropWhile List.isEmpty = [] :=
      rdropWhile_append_replicate rfl [] (k + 1)
    rw [← List.nil_append (List.replicate (k + 1) _), hempty]
    exact List.nil_prefix

/-- An entry behind the scheme that is more than slashes. -/
theorem matchesEntry_path {path a : Str} {c : UInt8} {segments : List Str} {k : Nat} (hc : c ≠ 47)
    (h : parseGDriveUri path = .ok (.path segments)) :
    (MatchesEntry (kGDriveScheme ++ (a ++ c :: List.replicate k 47)) path ↔
      SpelledAlike (kGDriveScheme ++ (a ++ c :: List.replicate k 47)) path) ∧
      (SpelledAlike (kGDriveScheme ++ (a ++ c :: List.replicate k 47)) path →
        NamesAbove (kGDriveScheme ++ (a ++ c :: List.replicate k 47)) segments) := by
  obtain ⟨hpath, hid, rfl, hdots⟩ := parse_shape h
  rw [hpath]
  generalize path.drop kGDriveScheme.length = rest at *
  have hentry : a ++ c :: List.replicate k 47 = a ++ [c] ++ List.replicate k 47 := by simp
  have hstrip : stripSlashes (kGDriveScheme ++ (a ++ c :: List.replicate k 47)) =
      kGDriveScheme ++ (a ++ [c]) := by
    rw [← List.append_assoc, stripSlashes_append hc, List.append_assoc]
  have halike : SpelledAlike (kGDriveScheme ++ (a ++ c :: List.replicate k 47))
      (kGDriveScheme ++ rest) ↔ (a ++ [c]).splitOn 47 <+: rest.splitOn 47 := by
    have hslash : (c == 47) = false := by simpa using hc
    obtain ⟨init, last, hsplit, hlast⟩ := splitOn_concat (a := a) hslash
    unfold SpelledAlike
    rw [pieces_scheme, pieces_scheme, hentry, splitOn_append_replicate,
      rdropWhile_append_replicate rfl, hsplit,
      List.rdropWhile_concat_neg List.isEmpty init last (by simpa using hlast)]
  refine ⟨?_, ?_⟩
  · rw [halike, splitOn_prefix_iff]
    unfold MatchesEntry
    rw [hstrip, List.append_assoc, List.prefix_append_right_inj, List.append_cancel_left_eq]
    exact and_iff_right (by simp)
  · rw [halike]
    intro hpre
    have hsegments : splitSegments (a ++ [c]) <+: splitSegments rest := hpre.filter _
    have hnoid : (str "id:").isPrefixOf (a ++ c :: List.replicate k 47) = false := by
      rw [Bool.eq_false_iff, ne_eq, List.isPrefixOf_iff_prefix] at hid ⊢
      intro hword
      have hword' : str "id:" <+: a ++ [c] := by
        rw [hentry] at hword
        cases k with
        | zero => rwa [List.replicate_zero, List.append_nil] at hword
        | succ k => exact (prefix_of_no_slash (by decide)).mp hword
      rcases splitOn_prefix_iff.mp hpre with heq | hbehind
      · exact hid (heq ▸ hword')
      · exact hid (hword'.trans ((List.prefix_append _ _).trans hbehind))
    refine ⟨splitSegments (a ++ [c]), ?_, hsegments⟩
    rw [parse_path hnoid, hentry, splitSegments_replicate]
    have hnone : (splitSegments (a ++ [c])).find? isDotSegment = none := by
      rw [List.find?_eq_none]
      intro s hs
      rw [hdots s (hsegments.subset hs)]
      exact Bool.false_ne_true
    rw [hnone]

/-- Up to the scheme's first slash there is one text. -/
theorem truncated_of_slash {a : Str} {c : UInt8} (hc : c ≠ 47)
    (h : a ++ [c] ++ [47] <+: kGDriveScheme) : a ++ [c] = str "gdrive:" := by
  have hall : ∀ p ∈ kGDriveScheme.inits, p.getLast? = some 47 →
      p.dropLast = str "gdrive:" ∨ p.dropLast.getLast? = some 47 := by decide
  have hmem := (List.mem_inits _ _).mpr h
  rcases hall _ hmem List.getLast?_concat with hbare | hslash
  · rwa [List.dropLast_concat] at hbare
  · rw [List.dropLast_concat, List.getLast?_concat] at hslash
    exact absurd (Option.some.inj hslash) hc

/-- An entry that does not begin with the scheme. -/
theorem matchesEntry_other {entry rest : Str} (hscheme : ¬kGDriveScheme <+: entry) :
    MatchesEntry entry (kGDriveScheme ++ rest) ↔ TruncatedScheme entry := by
  constructor
  · rintro ⟨hne, hmatch⟩
    rcases trailing_slashes entry with ⟨k, rfl⟩ | ⟨a, c, k, hc, rfl⟩
    · rcases stripSlashes_replicate k with hstrip | hstrip
      · exact absurd hstrip hne
      · rw [hstrip] at hmatch
        rcases hmatch with heq | ⟨t, ht⟩
        · cases heq
        · cases ht
    · rw [stripSlashes_append hc] at hmatch
      have hentry : a ++ [c] <+: a ++ c :: List.replicate k 47 := ⟨List.replicate k 47, by simp⟩
      have hbehind : a ++ [c] ++ [47] <+: kGDriveScheme ++ rest := by
        rcases hmatch with heq | hbehind
        · have hwhole : kGDriveScheme <+: a ++ [c] := heq ▸ List.prefix_append _ rest
          exact absurd (hwhole.trans hentry) hscheme
        · exact hbehind
      have hshort : a ++ [c] ++ [47] <+: kGDriveScheme := by
        have hpath : kGDriveScheme <+: kGDriveScheme ++ rest := List.prefix_append _ _
        rcases List.prefix_or_prefix_of_prefix hbehind hpath with h | h
        · exact h
        · rcases List.prefix_concat_iff.mp h with heq | h
          · rw [heq]
          · exact absurd (h.trans hentry) hscheme
      have hbare := truncated_of_slash hc hshort
      have hbareEntry : a ++ c :: List.replicate k 47 = str "gdrive:" ++ List.replicate k 47 := by
        rw [← hbare, List.append_assoc]
        rfl
      rw [hbareEntry] at hscheme ⊢
      rcases k with _ | _ | k
      · exact .inl rfl
      · exact .inr rfl
      · exact absurd ⟨List.replicate k 47, rfl⟩ hscheme
  · rintro (rfl | rfl)
    · exact ⟨by decide, .inr ⟨47 :: rest, rfl⟩⟩
    · exact ⟨by decide, .inr ⟨47 :: rest, rfl⟩⟩

/-- One entry: the code asks for the same slashes, and takes the truncated
scheme for every path. -/
theorem matchesEntry_iff {path : Str} {segments : List Str}
    (h : parseGDriveUri path = .ok (.path segments)) (entry : Str) :
    MatchesEntry entry path ↔
      (NamesAbove entry segments ∧ SpelledAlike entry path) ∨ TruncatedScheme entry := by
  obtain ⟨hpath, -⟩ := parse_shape h
  by_cases hscheme : kGDriveScheme <+: entry
  · have hwhole : ¬TruncatedScheme entry := by
      rintro (rfl | rfl)
      · exact absurd hscheme (by decide)
      · exact absurd hscheme (by decide)
    rw [or_iff_left hwhole]
    obtain ⟨rest, rfl⟩ := hscheme
    rcases trailing_slashes rest with ⟨k, rfl⟩ | ⟨a, c, k, hc, rfl⟩
    · have hroot := matchesEntry_root (path.drop kGDriveScheme.length) segments k
      rw [← hpath] at hroot
      exact iff_of_true hroot.1 hroot.2
    · obtain ⟨halike, hnames⟩ := matchesEntry_path (a := a) (k := k) hc h
      rw [halike]
      exact ⟨fun hsame => ⟨hnames hsame, hsame⟩, fun hboth => hboth.2⟩
  · have hnames : ¬NamesAbove entry segments := by
      rintro ⟨named, hnamed, -⟩
      exact hscheme ⟨_, (parse_shape hnamed).1.symm⟩
    rw [hpath, matchesEntry_other hscheme, or_iff_right fun hboth => hnames hboth.1]

-- ==================================================================== the list

/-- The entries of the list, without the blanks around them. -/
def prefixEntries (csvPrefixes : Str) : List Str := (csvPrefixes.splitOn 44).map trimAscii

theorem pathMatchesAnyPrefix_iff {path : Str} (hne : path ≠ []) (csvPrefixes : Str) :
    pathMatchesAnyPrefix path csvPrefixes = true ↔
      ∃ entry ∈ prefixEntries csvPrefixes, MatchesEntry entry path := by
  unfold pathMatchesAnyPrefix prefixEntries
  simp only [Bool.and_eq_true, Bool.not_eq_true', List.any_eq_true, List.mem_map,
    exists_exists_and_eq_and, List.isEmpty_eq_false_iff, Bool.or_eq_true, decide_eq_true_eq,
    List.isPrefixOf_iff_prefix]
  constructor
  · rintro ⟨-, entry, hentry, hmatch⟩
    exact ⟨entry, hentry, hmatch⟩
  · rintro ⟨entry, hentry, hmatch⟩
    refine ⟨⟨?_, hne⟩, entry, hentry, hmatch⟩
    rintro rfl
    obtain rfl : entry = [] := by simpa using hentry
    exact hmatch.1 rfl

/-- The code does what the contract says exactly where an entry that covers the
path is spelled as the path is, or entries that cover it are there exactly
where the truncated scheme is. -/
theorem pathMatchesAnyPrefix_agrees_iff {path : Str} {segments : List Str}
    (h : parseGDriveUri path = .ok (.path segments)) (csvPrefixes : Str) :
    (pathMatchesAnyPrefix path csvPrefixes = true ↔
        ∃ entry ∈ prefixEntries csvPrefixes, NamesAbove entry segments) ↔
      (∃ entry ∈ prefixEntries csvPrefixes, NamesAbove entry segments ∧ SpelledAlike entry path) ∨
        ((∃ entry ∈ prefixEntries csvPrefixes, NamesAbove entry segments) ↔
          ∃ entry ∈ prefixEntries csvPrefixes, TruncatedScheme entry) := by
  have hne : path ≠ [] := by
    rintro rfl
    cases (parse_shape h).1
  rw [pathMatchesAnyPrefix_iff hne]
  simp only [matchesEntry_iff h]
  by_cases hboth : ∃ entry ∈ prefixEntries csvPrefixes,
      NamesAbove entry segments ∧ SpelledAlike entry path
  · obtain ⟨entry, hentry, hnames, hsame⟩ := hboth
    apply iff_of_true
    · exact iff_of_true ⟨entry, hentry, .inl ⟨hnames, hsame⟩⟩ ⟨entry, hentry, hnames⟩
    · exact .inl ⟨entry, hentry, hnames, hsame⟩
  · rw [or_iff_right hboth]
    have hmatched : (∃ entry ∈ prefixEntries csvPrefixes,
        (NamesAbove entry segments ∧ SpelledAlike entry path) ∨ TruncatedScheme entry) ↔
          ∃ entry ∈ prefixEntries csvPrefixes, TruncatedScheme entry := by
      constructor
      · rintro ⟨entry, hentry, hcovers | htruncated⟩
        · exact absurd ⟨entry, hentry, hcovers⟩ hboth
        · exact ⟨entry, hentry, htruncated⟩
      · rintro ⟨entry, hentry, htruncated⟩
        exact ⟨entry, hentry, .inr htruncated⟩
    rw [hmatched]
    exact iff_comm

/-- The folder of a file, written as the path writes it. -/
theorem pathMatchesAnyPrefix_agrees_case :
    pathMatchesAnyPrefix (str "gdrive://lake//x") (str " gdrive://lake/ ,b") = true ↔
      ∃ entry ∈ prefixEntries (str " gdrive://lake/ ,b"),
        NamesAbove entry [str "lake", str "x"] := by
  have hparse : parseGDriveUri (str "gdrive://lake//x") = .ok (.path [str "lake", str "x"]) := by
    decide +kernel
  apply (pathMatchesAnyPrefix_agrees_iff hparse _).mpr
  refine .inl ⟨str "gdrive://lake/", by decide +kernel, ⟨[str "lake"], ?_, ?_⟩, ?_⟩
  · decide +kernel
  · exact ⟨[str "x"], rfl⟩
  · unfold SpelledAlike
    decide +kernel

/-- What is left of the scheme, for a file that no entry names. -/
theorem truncated_scheme_covers :
    ¬∀ path segments csvPrefixes, parseGDriveUri path = .ok (.path segments) →
      (pathMatchesAnyPrefix path csvPrefixes = true ↔
        ∃ entry ∈ prefixEntries csvPrefixes, NamesAbove entry segments) := by
  intro h
  have hlake := h (str "gdrive://lake/x") [str "lake", str "x"] (str "gdrive:") (by decide +kernel)
  obtain ⟨entry, hentry, named, hnamed, -⟩ := hlake.mp (by decide +kernel)
  have hbare : entry = str "gdrive:" := by
    have hlist : prefixEntries (str "gdrive:") = [str "gdrive:"] := by decide +kernel
    rw [hlist] at hentry
    exact List.mem_singleton.mp hentry
  rw [hbare] at hnamed
  have hscheme : isGDriveUri (str "gdrive:") = false := by decide +kernel
  unfold parseGDriveUri at hnamed
  rw [hscheme] at hnamed
  cases hnamed

end GDrive
