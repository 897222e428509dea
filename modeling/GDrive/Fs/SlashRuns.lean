/-
Texts that differ in their runs of slashes only.

`ParseGDriveUri` takes a run for one slash and drops one at either end.
`SlashRuns` follows two such texts side by side, run by run, so that what looks
at braces and commas alone finds the same in both: their expansions are again
such texts (`uncapped_slashRuns`).
-/
import GDrive.Fs.GlobBraces
import GDrive.Fs.Uri

namespace GDrive

/-- A run of slashes. -/
abbrev slashes (n : Nat) : Str := List.replicate n 47

/-- Texts with the same pieces between their runs of slashes, from the first
piece on; where `loose`, one may end in a run and the other not. -/
inductive SlashRuns (loose : Bool) : Str → Str → Prop
  | nil : SlashRuns loose [] []
  | ends (m n : Nat) : loose = true → SlashRuns loose (slashes m) (slashes n)
  | char {c : UInt8} {a b : Str} : c ≠ 47 → SlashRuns loose a b → SlashRuns loose (c :: a) (c :: b)
  | run {a b : Str} (m n : Nat) : SlashRuns loose a b →
      SlashRuns loose (slashes (m + 1) ++ a) (slashes (n + 1) ++ b)

/-- Such texts behind a run that one of them may not have. -/
def LeadRuns (a b : Str) : Prop :=
  ∃ m n x y, a = slashes m ++ x ∧ b = slashes n ++ y ∧ SlashRuns false x y

section Runs

variable {loose : Bool} {a b c d : Str}

theorem SlashRuns.append (h : SlashRuns false a b) (h' : SlashRuns loose c d) :
    SlashRuns loose (a ++ c) (b ++ d) := by
  induction h with
  | nil => exact h'
  | ends m n hloose => cases hloose
  | char hc _ ih => exact .char hc ih
  | run m n _ ih =>
      rw [List.append_assoc, List.append_assoc]
      exact .run m n ih

theorem SlashRuns.slashes (m n : Nat) : SlashRuns false (slashes (m + 1)) (slashes (n + 1)) := by
  have h : SlashRuns false (GDrive.slashes (m + 1) ++ []) (GDrive.slashes (n + 1) ++ []) :=
    .run m n .nil
  rwa [List.append_nil, List.append_nil] at h

theorem LeadRuns.append (h : LeadRuns a b) (h' : SlashRuns false c d) : LeadRuns (a ++ c) (b ++ d) := by
  obtain ⟨m, n, x, y, rfl, rfl, hxy⟩ := h
  exact ⟨m, n, x ++ c, y ++ d, List.append_assoc _ _ _, List.append_assoc _ _ _, hxy.append h'⟩

theorem LeadRuns.refl_slashes (m n : Nat) : LeadRuns (slashes m) (slashes n) :=
  ⟨m, n, [], [], (List.append_nil _).symm, (List.append_nil _).symm, .nil⟩

theorem SlashRuns.symm (h : SlashRuns loose a b) : SlashRuns loose b a := by
  induction h with
  | nil => exact .nil
  | ends m n hloose => exact .ends n m hloose
  | char hc _ ih => exact .char hc ih
  | run m n _ ih => exact .run n m ih

/-- Slashes at the beginning make no piece. -/
theorem splitSegments_slashes (n : Nat) (a : Str) :
    splitSegments (slashes n ++ a) = splitSegments a := by
  induction n with
  | zero => rfl
  | succ n ih =>
      rw [← ih]
      show splitSegments ([] ++ 47 :: (slashes n ++ a)) = _
      rw [splitSegments_append]
      rfl

/-- A run parts what is before it from what is behind it. -/
theorem splitSegments_run (w : Str) (n : Nat) (a : Str) :
    splitSegments (w ++ (slashes (n + 1) ++ a)) = splitSegments w ++ splitSegments a := by
  show splitSegments (w ++ 47 :: (slashes n ++ a)) = _
  rw [splitSegments_append, splitSegments_slashes]

theorem splitSegments_end (w : Str) (n : Nat) : splitSegments (w ++ slashes n) = splitSegments w := by
  cases n with
  | zero =>
      show splitSegments (w ++ []) = _
      rw [List.append_nil]
  | succ n =>
      have hrun := splitSegments_run w n []
      rw [List.append_nil, show splitSegments [] = [] from rfl, List.append_nil] at hrun
      exact hrun

/-- The pieces are the same, whatever the first one begins with. -/
theorem SlashRuns.pieces (h : SlashRuns loose a b) (w : Str) :
    splitSegments (w ++ a) = splitSegments (w ++ b) := by
  induction h generalizing w with
  | nil => rfl
  | ends m n _ => rw [splitSegments_end, splitSegments_end]
  | @char c a b _ _ ih =>
      rw [List.append_cons, List.append_cons w c b]
      exact ih (w ++ [c])
  | @run a b m n _ ih =>
      have hpieces := ih []
      rw [List.nil_append, List.nil_append] at hpieces
      rw [splitSegments_run, splitSegments_run, hpieces]

/-- A text without slashes before both. -/
theorem SlashRuns.word {w : Str} (hw : 47 ∉ w) (h : SlashRuns loose a b) :
    SlashRuns loose (w ++ a) (w ++ b) := by
  induction w with
  | nil => exact h
  | cons c w ih =>
      rw [List.mem_cons, not_or] at hw
      exact .char (fun hc => hw.1 hc.symm) (ih hw.2)

end Runs

-- =========================================================== the same pieces

/-- What is behind the slashes a text begins with. -/
abbrev dropLead (a : Str) : Str := a.dropWhile (· == 47)

theorem lead_eq (a : Str) : ∃ n, a = slashes n ++ dropLead a := by
  refine ⟨(a.takeWhile (· == 47)).length, ?_⟩
  have hall : ∀ c ∈ a.takeWhile (· == 47), c = 47 := by
    intro c hc
    simpa using List.mem_takeWhile_imp hc
  calc a = a.takeWhile (· == 47) ++ dropLead a := List.takeWhile_append_dropWhile.symm
    _ = slashes (a.takeWhile (· == 47)).length ++ dropLead a :=
        congrArg (· ++ dropLead a) (List.eq_replicate_of_mem hall)

/-- A run there is, unless nothing follows. -/
theorem lead_pos {a : Str} (h : ∀ c rest, a = c :: rest → c = 47) (hne : dropLead a ≠ []) :
    ∃ n, a = slashes (n + 1) ++ dropLead a := by
  obtain ⟨n, hn⟩ := lead_eq a
  cases n with
  | succ n => exact ⟨n, hn⟩
  | zero =>
      exfalso
      obtain ⟨c, rest, hcons⟩ := List.exists_cons_of_ne_nil hne
      have ha : a = c :: rest := by
        rw [hn, hcons]
        rfl
      have hc := h c rest ha
      rw [ha, hc] at hcons
      have hlength := congrArg List.length hcons
      rw [dropLead, List.dropWhile_cons_of_pos (by rfl)] at hlength
      have hle := List.length_dropWhile_le (· == 47) rest
      simp only [List.length_cons] at hlength
      omega

theorem splitSegments_eq_nil {a : Str} : splitSegments a = [] ↔ dropLead a = [] := by
  rw [splitSegments_eq]
  by_cases ha : dropLead a = []
  · rw [if_pos (by simpa using ha)]
    exact iff_of_true rfl ha
  · rw [if_neg (by simpa using ha)]
    exact iff_of_false (List.cons_ne_nil _ _) ha

/-- A text that has pieces is its first one and what follows it. -/
theorem pieces_cons {a : Str} (ha : dropLead a ≠ []) :
    ∃ w more, dropLead a = w ++ more ∧ 47 ∉ w ∧ (∀ c rest, more = c :: rest → c = 47) ∧
      more.length < a.length ∧ splitSegments a = w :: splitSegments more := by
  refine ⟨(dropLead a).takeWhile (· != 47), (dropLead a).dropWhile (· != 47),
    List.takeWhile_append_dropWhile.symm, ?_, ?_, ?_, ?_⟩
  · intro hslash
    have hno := List.mem_takeWhile_imp hslash
    simp at hno
  · intro c rest hmore
    have hne : (dropLead a).dropWhile (· != 47) ≠ [] := by
      rw [hmore]
      exact List.cons_ne_nil _ _
    have hhead := List.head_dropWhile_not (· != 47) hne
    simpa [hmore] using hhead
  · obtain ⟨c, rest, hcons⟩ := List.exists_cons_of_ne_nil ha
    have hc : (c != 47) = true := by
      have hhead := List.head_dropWhile_not (· == 47) ha
      simpa [hcons] using hhead
    have hwhole := List.length_dropWhile_le (· == 47) a
    rw [hcons, List.dropWhile_cons_of_pos (p := (· != 47)) hc]
    have hle := List.length_dropWhile_le (· != 47) rest
    rw [show a.dropWhile (· == 47) = c :: rest from hcons, List.length_cons] at hwhole
    omega
  · rw [splitSegments_eq, if_neg (by simpa using ha)]

/-- Texts with the same pieces differ in their runs of slashes. -/
theorem slashRuns_of_pieces {a b : Str} (h : splitSegments a = splitSegments b) :
    SlashRuns true (dropLead a) (dropLead b) := by
  induction hn : a.length using Nat.strong_induction_on generalizing a b with
  | _ n ih =>
      by_cases ha : dropLead a = []
      · have hb : dropLead b = [] := by
          rw [← splitSegments_eq_nil, ← h, splitSegments_eq_nil]
          exact ha
        rw [ha, hb]
        exact .nil
      · have hb : dropLead b ≠ [] := by
          rw [Ne, ← splitSegments_eq_nil, ← h, splitSegments_eq_nil]
          exact ha
        obtain ⟨w, more, hx, hw, hstart, hlt, hpieces⟩ := pieces_cons ha
        obtain ⟨w', more', hy, -, hstart', -, hpieces'⟩ := pieces_cons hb
        rw [hpieces, hpieces', List.cons.injEq] at h
        obtain ⟨rfl, hmore⟩ := h
        rw [hx, hy]
        refine .word hw ?_
        -- Behind the first piece there is a run in both, or nothing more.
        by_cases hend : dropLead more = []
        · have hend' : dropLead more' = [] := by
            rw [← splitSegments_eq_nil, ← hmore, splitSegments_eq_nil]
            exact hend
          obtain ⟨k, hk⟩ := lead_eq more
          obtain ⟨l, hl⟩ := lead_eq more'
          rw [hk, hl, hend, hend', List.append_nil, List.append_nil]
          exact .ends k l rfl
        · have hend' : dropLead more' ≠ [] := by
            rw [Ne, ← splitSegments_eq_nil, ← hmore, splitSegments_eq_nil]
            exact hend
          obtain ⟨k, hk⟩ := lead_pos hstart hend
          obtain ⟨l, hl⟩ := lead_pos hstart' hend'
          rw [hk, hl]
          exact .run k l (ih _ (by omega) hmore rfl)

-- ================================================================ the braces

section Braces

variable {P : Str → Str → Prop} {loose : Bool} {a b pre pre' inner inner' : Str}

/-- Groups found in such texts. -/
def FoundAlike (P : Str → Str → Prop) (loose : Bool) :
    Option (Str × Str × Str) → Option (Str × Str × Str) → Prop
  | none, none => True
  | some (pre, inner, suffix), some (pre', inner', suffix') =>
      P pre pre' ∧ SlashRuns false inner inner' ∧ SlashRuns loose suffix suffix'
  | _, _ => False

theorem append_slashes_succ (w : Str) (n : Nat) : w ++ slashes (n + 1) = w ++ [47] ++ slashes n :=
  List.append_cons w 47 (slashes n)

/-- A run is no brace. -/
theorem findBraces_slashes (n : Nat) (rest : Str) (depth : Nat) (pre inner : Str) :
    findBraces (slashes n ++ rest) depth pre inner =
      if depth = 0 then findBraces rest 0 (pre ++ slashes n) inner
      else findBraces rest depth pre (inner ++ slashes n) := by
  induction n generalizing pre inner with
  | zero =>
      show findBraces rest depth pre inner =
        if depth = 0 then findBraces rest 0 (pre ++ []) inner
        else findBraces rest depth pre (inner ++ [])
      rw [List.append_nil, List.append_nil]
      split
      · rename_i hdepth
        rw [hdepth]
      · rfl
  | succ n ih =>
      rw [append_slashes_succ, append_slashes_succ]
      cases depth with
      | zero => exact ih (pre ++ [47]) inner
      | succ depth =>
          have hstep : findBraces (slashes (n + 1) ++ rest) (depth + 1) pre inner =
              findBraces (slashes n ++ rest) (depth + 1) pre (inner ++ [47]) := by
            cases depth <;> rfl
          rw [hstep]
          exact ih pre (inner ++ [47])

/-- The same group is found. -/
theorem findBraces_alike
    (hP : ∀ {p p' x x' : Str}, P p p' → SlashRuns false x x' → P (p ++ x) (p' ++ x'))
    (h : SlashRuns loose a b) (depth : Nat) (hpre : P pre pre')
    (hinner : SlashRuns false inner inner') :
    FoundAlike P loose (findBraces a depth pre inner) (findBraces b depth pre' inner') := by
  induction h generalizing depth pre pre' inner inner' with
  | nil => exact trivial
  | ends m n _ =>
      have hnone : ∀ (k : Nat) (p i : Str), findBraces (slashes k) depth p i = none := by
        intro k p i
        have hslashes := findBraces_slashes k [] depth p i
        rw [List.append_nil] at hslashes
        rw [hslashes]
        split <;> rfl
      rw [hnone, hnone]
      exact trivial
  | @char c a b hc hab ih =>
      have hone : SlashRuns false [c] [c] := .char hc .nil
      cases depth with
      | zero =>
          by_cases hopen : c = 123
          · subst hopen
            exact ih 1 hpre .nil
          · rw [findBraces, findBraces]
            · exact ih 0 (hP hpre hone) hinner
            · exact hopen
            · exact hopen
      | succ depth =>
          by_cases hopen : c = 123
          · subst hopen
            exact ih (depth + 2) hpre (hinner.append hone)
          · by_cases hclose : c = 125
            · subst hclose
              cases depth with
              | zero => exact ⟨hpre, hinner, hab⟩
              | succ depth => exact ih (depth + 1) hpre (hinner.append hone)
            · have hstep : ∀ (x p i : Str), findBraces (c :: x) (depth + 1) p i =
                  findBraces x (depth + 1) p (i ++ [c]) := by
                intro x p i
                rw [findBraces]
                · exact hopen
                · exact fun hc _ => hclose hc
                · exact fun _ hc _ => hclose hc
              rw [hstep, hstep]
              exact ih (depth + 1) hpre (hinner.append hone)
  | @run a b m n _ ih =>
      rw [findBraces_slashes, findBraces_slashes]
      split
      · exact ih 0 (hP hpre (.slashes m n)) hinner
      · exact ih depth hpre (hinner.append (.slashes m n))

theorem splitAlternatives_slashes (n : Nat) (rest : Str) (depth : Int) (current : Str) :
    splitAlternatives (slashes n ++ rest) depth current =
      splitAlternatives rest depth (current ++ slashes n) := by
  induction n generalizing current with
  | zero =>
      show splitAlternatives rest depth current = splitAlternatives rest depth (current ++ [])
      rw [List.append_nil]
  | succ n ih =>
      have hstep : splitAlternatives (slashes (n + 1) ++ rest) depth current =
          splitAlternatives (slashes n ++ rest) depth (current ++ [47]) := by
        show splitAlternatives (47 :: (slashes n ++ rest)) depth current = _
        rw [splitAlternatives]
        · decide
        · decide
        · exact fun _ hc => absurd hc (by decide)
      rw [hstep, ih, append_slashes_succ]

/-- The same alternatives. -/
theorem splitAlternatives_alike {current current' : Str} (h : SlashRuns false a b) (depth : Int)
    (hcurrent : SlashRuns false current current') :
    ∀ x ∈ splitAlternatives a depth current,
      ∃ y ∈ splitAlternatives b depth current', SlashRuns false x y := by
  induction h generalizing depth current current' with
  | nil =>
      intro x hx
      rw [List.mem_singleton.mp hx]
      exact ⟨current', List.mem_singleton.mpr rfl, hcurrent⟩
  | ends m n hloose => cases hloose
  | @char c a b hc _ ih =>
      have hone : SlashRuns false [c] [c] := .char hc .nil
      by_cases hopen : c = 123
      · subst hopen
        exact ih (depth + 1) (hcurrent.append hone)
      · by_cases hclose : c = 125
        · subst hclose
          exact ih (depth - 1) (hcurrent.append hone)
        · by_cases hcomma : c = 44 ∧ depth = 0
          · obtain ⟨rfl, rfl⟩ := hcomma
            intro x hx
            rcases List.mem_cons.mp hx with rfl | hx
            · exact ⟨current', List.mem_cons_self, hcurrent⟩
            · obtain ⟨y, hy, hxy⟩ := ih 0 .nil x hx
              exact ⟨y, List.mem_cons_of_mem _ hy, hxy⟩
          · have hstep : ∀ x i : Str, splitAlternatives (c :: x) depth i =
                splitAlternatives x depth (i ++ [c]) := by
              intro x i
              rw [splitAlternatives]
              · exact hopen
              · exact hclose
              · exact fun hdepth hc => hcomma ⟨hc, hdepth⟩
            rw [hstep, hstep]
            exact ih depth (hcurrent.append hone)
  | @run a b m n _ ih =>
      rw [splitAlternatives_slashes, splitAlternatives_slashes]
      exact ih depth (hcurrent.append (.slashes m n))

/-- What is put together of alike parts is alike. -/
theorem FoundAlike.expansion {Q : Str → Str → Prop}
    (h : FoundAlike P loose (findBraces a 0 [] []) (findBraces b 0 [] [])) (hleaf : Q a b)
    (hQ : ∀ {p p' x x' : Str}, P p p' → SlashRuns loose x x' → Q (p ++ x) (p' ++ x'))
    (hparts : ∀ {loose : Bool} {x y : Str}, x.length < a.length → SlashRuns loose x y →
      ∀ e ∈ uncapped x, ∃ e' ∈ uncapped y, SlashRuns loose e e') {e : Str} (he : e ∈ uncapped a) :
    ∃ e' ∈ uncapped b, Q e e' := by
  unfold FoundAlike at h
  split at h
  · rename_i hfind hfind'
    rw [uncapped_leaf hfind, List.mem_singleton] at he
    refine ⟨b, ?_, ?_⟩
    · rw [uncapped_leaf hfind']
      exact List.mem_singleton.mpr rfl
    · rw [he]
      exact hleaf
  · rename_i pre inner suffix pre' inner' suffix' hfind hfind'
    obtain ⟨hpre, hinner, hsuffix⟩ := h
    obtain ⟨alternative, halternative, x, hx, s, hs, rfl⟩ := (mem_uncapped_group hfind).mp he
    obtain ⟨alternative', halternative', hsame⟩ :=
      splitAlternatives_alike hinner 0 .nil alternative halternative
    obtain ⟨x', hx', hxx⟩ := hparts (alternative_lt hfind halternative) hsame x hx
    obtain ⟨s', hs', hss⟩ := hparts (suffix_lt hfind) hsuffix s hs
    refine ⟨pre' ++ x' ++ s', ?_, ?_⟩
    · exact (mem_uncapped_group hfind').mpr ⟨alternative', halternative', x', hx', s', hs', rfl⟩
    · rw [List.append_assoc, List.append_assoc]
      exact hQ hpre (hxx.append hss)
  · exact h.elim

/-- Texts that differ in their runs of slashes expand to such texts. -/
theorem uncapped_slashRuns (h : SlashRuns loose a b) {e : Str} (he : e ∈ uncapped a) :
    ∃ e' ∈ uncapped b, SlashRuns loose e e' := by
  induction hn : a.length using Nat.strong_induction_on generalizing loose a b e with
  | _ n ih =>
      refine (findBraces_alike SlashRuns.append h 0 .nil .nil).expansion h SlashRuns.append ?_ he
      intro loose x y hlt hxy e he
      exact ih _ (by omega) hxy he rfl

/-- Texts with the same pieces expand to texts with the same pieces. -/
theorem pieces_uncapped (h : splitSegments a = splitSegments b) {e : Str} (he : e ∈ uncapped a) :
    ∃ e' ∈ uncapped b, splitSegments e = splitSegments e' := by
  obtain ⟨m, hm⟩ := lead_eq a
  obtain ⟨n, hn⟩ := lead_eq b
  have hfound : FoundAlike LeadRuns true (findBraces a 0 [] []) (findBraces b 0 [] []) := by
    rw [hm, hn, findBraces_slashes, findBraces_slashes, if_pos rfl, if_pos rfl]
    exact findBraces_alike LeadRuns.append (slashRuns_of_pieces h) 0 (.refl_slashes m n) .nil
  refine hfound.expansion (Q := fun e e' => splitSegments e = splitSegments e') h ?_ ?_ he
  · intro p p' x x' ⟨k, l, y, y', hp, hp', hyy⟩ hxx
    rw [hp, hp', List.append_assoc, List.append_assoc, splitSegments_slashes, splitSegments_slashes]
    exact (hyy.append hxx).pieces []
  · intro loose x y _ hxy e he
    exact uncapped_slashRuns hxy he

/-- Where no bound rejects either. -/
theorem pieces_expandBraces (h : splitSegments a = splitSegments b) (hb : expandBraces b ≠ [])
    {e : Str} (he : e ∈ expandBraces a) :
    ∃ e' ∈ expandBraces b, splitSegments e = splitSegments e' := by
  have hwithin : ∀ {t : Str}, expandBraces t ≠ [] → expandBraces t = uncapped t := by
    intro t ht
    by_cases hbounds : WithinBounds t
    · exact expandBraces_within hbounds
    · exact absurd (expandBraces_beyond hbounds) ht
  rw [hwithin (List.ne_nil_of_mem he)] at he
  rw [hwithin hb]
  exact pieces_uncapped h he

end Braces

end GDrive
