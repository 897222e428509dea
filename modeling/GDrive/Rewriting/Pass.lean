/-
In-place rewriting of a text: find a match, keep a part of what follows,
put a mark in the place of another part, and go on behind it.

# The loop

A `Pass` says where a match starts and how a match is cut into what is
kept, what is dropped and what is left to scan. `run` is the loop, as many
rounds as there is fuel for; every round shortens what is left, so a round
for each letter is enough (`run_ends`), and `apply` is what it comes to.
`restart` is the loop that searches from the beginning every time.

# What a pass cannot do

A mark never joins what stands around it into a word that has one of its
ends' letters in it. So a pass makes no new occurrence of such a word
(`apply_avoids`), and one that drops every match leaves none
(`apply_clears`).
-/
import Mathlib.Data.List.Infix

namespace Rewriting

variable {α : Type}

-- ====================================================================== search

/-- The text before and from the first place where `starts` holds. -/
def splitAtFirst (starts : List α → Bool) : List α → Option (List α × List α)
  | [] => none
  | c :: rest =>
      if starts (c :: rest) then some ([], c :: rest)
      else (splitAtFirst starts rest).map fun r => (c :: r.1, r.2)

variable {starts : List α → Bool} {s u h : List α}

theorem splitAtFirst_cons_of_starts {c : α} (hc : starts (c :: s) = true) :
    splitAtFirst starts (c :: s) = some ([], c :: s) := by
  rw [splitAtFirst, if_pos hc]

theorem splitAtFirst_cons_of_not {c : α} (hc : starts (c :: s) = false) :
    splitAtFirst starts (c :: s) = (splitAtFirst starts s).map fun r => (c :: r.1, r.2) := by
  rw [splitAtFirst, hc, if_neg Bool.false_ne_true]

theorem splitAtFirst_eq_some (hs : splitAtFirst starts s = some (u, h)) :
    s = u ++ h ∧ starts h = true ∧ h ≠ [] ∧ ∀ a b, u = a ++ b → b ≠ [] → starts (b ++ h) = false := by
  induction s generalizing u with
  | nil => cases hs
  | cons c s ih =>
      cases hc : starts (c :: s) with
      | true =>
          rw [splitAtFirst_cons_of_starts hc] at hs
          cases hs
          refine ⟨rfl, hc, List.cons_ne_nil _ _, ?_⟩
          intro a b hab hb
          exact absurd (List.append_eq_nil_iff.mp hab.symm).2 hb
      | false =>
          rw [splitAtFirst_cons_of_not hc, Option.map_eq_some_iff] at hs
          obtain ⟨⟨u', h'⟩, hrest, heq⟩ := hs
          cases heq
          obtain ⟨rfl, hstart, hne, hfirst⟩ := ih hrest
          refine ⟨rfl, hstart, hne, ?_⟩
          intro a b hab hb
          cases a with
          | nil =>
              rw [List.nil_append] at hab
              rw [← hab]
              exact hc
          | cons x a =>
              have htail : u' = a ++ b := List.tail_eq_of_cons_eq hab
              exact hfirst a b htail hb

theorem splitAtFirst_eq_none (hs : splitAtFirst starts s = none) {a b : List α} (hab : s = a ++ b)
    (hb : b ≠ []) : starts b = false := by
  induction s generalizing a with
  | nil => exact absurd (List.append_eq_nil_iff.mp hab.symm).2 hb
  | cons c s ih =>
      cases hc : starts (c :: s) with
      | true =>
          rw [splitAtFirst_cons_of_starts hc] at hs
          cases hs
      | false =>
          rw [splitAtFirst_cons_of_not hc, Option.map_eq_none_iff] at hs
          cases a with
          | nil =>
              rw [List.nil_append] at hab
              rw [← hab]
              exact hc
          | cons x a => exact ih hs (List.tail_eq_of_cons_eq hab)

/-- A search goes past a beginning in which nothing starts. -/
theorem splitAtFirst_append (hu : ∀ a b, u = a ++ b → b ≠ [] → starts (b ++ s) = false) :
    splitAtFirst starts (u ++ s) = (splitAtFirst starts s).map fun r => (u ++ r.1, r.2) := by
  induction u with
  | nil => simp
  | cons c u ih =>
      have hc : starts (c :: (u ++ s)) = false := hu [] (c :: u) rfl (List.cons_ne_nil _ _)
      rw [List.cons_append, splitAtFirst_cons_of_not hc, ih, Option.map_map]
      · rfl
      · intro a b hab
        exact hu (c :: a) b (by rw [hab]; rfl)

-- ====================================================================== passes

/-- What a round does at a match: keep, drop, go on. -/
structure Cut (α : Type) where
  kept : List α
  dropped : List α
  rest : List α

/-- One rewriting loop. `cut` sees the letter before the match and the text
from the match on. -/
structure Pass (α : Type) where
  starts : List α → Bool
  cut : Option α → List α → Cut α
  cut_eq : ∀ l h, starts h = true → (cut l h).kept ++ (cut l h).dropped ++ (cut l h).rest = h
  progress : ∀ l h, starts h = true → (cut l h).rest.length < h.length

/-- The last letter of a text that stands behind `l`. -/
def lastOf (l : Option α) (s : List α) : Option α := s.getLast?.or l

/-- The mark, where something was dropped. -/
def Cut.mark (mark : List α) (c : Cut α) : List α := if c.dropped.isEmpty then [] else mark

namespace Pass

variable (p : Pass α) (mark : List α)

/-- What a round leaves behind. -/
def round (l : Option α) (u h : List α) : List α :=
  u ++ (p.cut (lastOf l u) h).kept ++ (p.cut (lastOf l u) h).mark mark

/-- The loop: a round for each unit of fuel. -/
def run : (fuel : Nat) → Option α → List α → Option (List α)
  | 0, _, _ => none
  | fuel + 1, l, s =>
      match splitAtFirst p.starts s with
      | none => some s
      | some (u, h) =>
          (run fuel (lastOf l (p.round mark l u h)) (p.cut (lastOf l u) h).rest).map
            (p.round mark l u h ++ ·)

/-- The loop that searches from the beginning in every round. -/
def restart : (fuel : Nat) → List α → Option (List α)
  | 0, _ => none
  | fuel + 1, s =>
      match splitAtFirst p.starts s with
      | none => some s
      | some (u, h) => restart fuel (p.round mark none u h ++ (p.cut (lastOf none u) h).rest)

/-- What the loop comes to. -/
def apply (l : Option α) (s : List α) : List α := (p.run mark (s.length + 1) l s).getD s

variable {p mark} {l : Option α} {s u h : List α}

/-- A round shortens what is left. -/
theorem rest_lt (hs : splitAtFirst p.starts s = some (u, h)) (l : Option α) :
    (p.cut l h).rest.length < s.length := by
  obtain ⟨rfl, hstart, -, -⟩ := splitAtFirst_eq_some hs
  have hlt := p.progress l h hstart
  rw [List.length_append]
  omega

/-- More fuel than letters is enough, and it does not matter how much. -/
theorem run_of_lt {fuel fuel' : Nat} (hf : s.length < fuel) (hf' : s.length < fuel') :
    ∃ out, p.run mark fuel l s = some out ∧ p.run mark fuel' l s = some out := by
  induction fuel generalizing fuel' l s with
  | zero => omega
  | succ fuel ih =>
      obtain ⟨fuel', rfl⟩ := Nat.exists_eq_add_of_lt (Nat.zero_lt_of_lt hf')
      unfold run
      split
      · exact ⟨s, rfl, rfl⟩
      · rename_i u h hs
        have hlt := p.rest_lt hs (lastOf l u)
        have hrest : (p.cut (lastOf l u) h).rest.length < 0 + fuel' := by omega
        obtain ⟨out, hout, hout'⟩ := ih (l := lastOf l (p.round mark l u h)) (by omega) hrest
        exact ⟨p.round mark l u h ++ out, by rw [hout]; rfl, by rw [hout']; rfl⟩

theorem run_eq {fuel : Nat} (hf : s.length < fuel) : p.run mark fuel l s = some (p.apply mark l s) := by
  obtain ⟨out, hout, hout'⟩ : ∃ out, p.run mark fuel l s = some out ∧
      p.run mark (s.length + 1) l s = some out := p.run_of_lt hf (Nat.lt_succ_self s.length)
  rw [apply, hout', hout]
  rfl

/-- Where the loop ends it has come to `apply`. -/
theorem apply_of_run {fuel : Nat} {out : List α} (h : p.run mark fuel l s = some out) :
    out = p.apply mark l s := by
  induction fuel generalizing l s out with
  | zero => cases h
  | succ fuel ih =>
      rw [run] at h
      have hlarge : p.run mark (s.length + 1) l s = some (p.apply mark l s) :=
        run_eq (Nat.lt_succ_self s.length)
      rw [run] at hlarge
      split at h
      · rename_i hs
        rw [hs] at hlarge
        cases h
        exact Option.some.inj hlarge
      · rename_i u' h' hs
        rw [hs] at hlarge
        simp only [Option.map_eq_some_iff] at h hlarge
        obtain ⟨out', hout', rfl⟩ := h
        obtain ⟨out'', hout'', heq⟩ := hlarge
        rw [ih hout', ← heq]
        have hlt := p.rest_lt hs (lastOf l u')
        rw [run_eq (by omega)] at hout''
        rw [Option.some.inj hout'']

theorem apply_of_none (hs : splitAtFirst p.starts s = none) : p.apply mark l s = s := by
  have hrun : p.run mark 1 l s = some s := by rw [run, hs]
  exact (apply_of_run hrun).symm

theorem apply_of_some (hs : splitAtFirst p.starts s = some (u, h)) :
    p.apply mark l s = p.round mark l u h ++
      p.apply mark (lastOf l (p.round mark l u h)) (p.cut (lastOf l u) h).rest := by
  have hlt := p.rest_lt hs (lastOf l u)
  have hrun : p.run mark (s.length + 1) l s = some (p.round mark l u h ++
      p.apply mark (lastOf l (p.round mark l u h)) (p.cut (lastOf l u) h).rest) := by
    rw [run, hs]
    simp only
    rw [run_eq (by omega)]
    rfl
  exact (apply_of_run hrun).symm

end Pass

/-- With enough fuel, and whatever more, it comes to `out`. -/
def Ends {β : Type} (f : Nat → Option β) (out : β) : Prop := ∃ n, ∀ fuel, n ≤ fuel → f fuel = some out

theorem Ends.bind {β γ : Type} {f : Nat → Option β} {g : Nat → β → Option γ} {b : β} {c : γ}
    (hf : Ends f b) (hg : Ends (g · b) c) : Ends (fun fuel => (f fuel).bind (g fuel)) c := by
  obtain ⟨n, hn⟩ := hf
  obtain ⟨m, hm⟩ := hg
  refine ⟨max n m, ?_⟩
  intro fuel hfuel
  show (f fuel).bind (g fuel) = some c
  rw [hn fuel (by omega), Option.bind_some]
  exact hm fuel (by omega)

/-- It comes to one thing only. -/
theorem Ends.unique {β : Type} {f : Nat → Option β} {a b : β} (ha : Ends f a) (hb : Ends f b) :
    a = b := by
  obtain ⟨n, hn⟩ := ha
  obtain ⟨m, hm⟩ := hb
  have hsame := (hn (max n m) (by omega)).symm.trans (hm (max n m) (by omega))
  exact Option.some.inj hsame

theorem Pass.run_ends (p : Pass α) (mark : List α) (l : Option α) (s : List α) :
    Ends (p.run mark · l s) (p.apply mark l s) :=
  ⟨s.length + 1, fun _ hfuel => p.run_eq (by omega)⟩

-- ======================================================================= words

/-- A word that lacks a letter stands on one side of it. -/
theorem infix_of_letter {m x y : List α} {c : α} (hc : c ∉ m) (h : m <:+: x ++ c :: y) :
    m <:+: x ∨ m <:+: y := by
  obtain ⟨a, b, hab⟩ := h
  rw [List.append_assoc] at hab
  rcases List.append_eq_append_iff.mp hab with ⟨e, rfl, hrest⟩ | ⟨e, rfl, hrest⟩
  · rcases List.append_eq_append_iff.mp hrest with ⟨e', rfl, -⟩ | ⟨e', rfl, hrest'⟩
    · exact .inl ⟨a, e', by simp⟩
    · cases e' with
      | nil => exact .inl ⟨a, [], by simp⟩
      | cons x e' =>
          obtain rfl : c = x := (List.cons.inj hrest').1
          exact absurd (List.mem_append_right _ List.mem_cons_self) hc
  · cases e with
    | nil =>
        cases m with
        | nil => exact .inl (List.nil_infix)
        | cons x m =>
            obtain rfl : x = c := (List.cons.inj hrest).1.symm
            exact absurd List.mem_cons_self hc
    | cons x e => exact .inr ⟨e, b, by rw [List.append_assoc]; exact (List.cons.inj hrest).2.symm⟩

/-- No occurrence of the word `m` reaches into the mark. -/
def Separates (mark m : List α) : Prop :=
  ∀ x y, m <:+: x ++ mark ++ y → m <:+: x ∨ m <:+: y

/-- A mark between two letters that the word lacks. -/
theorem separates_of_ends {m inner : List α} {c d : α} (hc : c ∉ m) (hd : d ∉ m)
    (hinner : ¬m <:+: inner) : Separates (c :: inner ++ [d]) m := by
  intro x y h
  have h' : m <:+: x ++ c :: (inner ++ d :: y) := by simpa using h
  rcases infix_of_letter hc h' with hx | hrest
  · exact .inl hx
  · rcases infix_of_letter hd hrest with hin | hy
    · exact absurd hin hinner
    · exact .inr hy

/-- What holds of a text still holds behind a longer beginning, and where it
holds across a mark it held on one side of it. -/
structure Unmade (mark : List α) (P : List α → Prop) : Prop where
  behind : ∀ {y : List α} (x : List α), P y → P (x ++ y)
  across : ∀ {x y : List α}, P (x ++ mark ++ y) → P y ∨ ∀ z, P (x ++ z)

theorem Separates.unmade {mark m : List α} (hsep : Separates mark m) : Unmade mark (m <:+: ·) where
  behind x := fun hy => hy.trans (List.suffix_append x _).isInfix
  across := by
    intro x y h
    rcases hsep x y h with hx | hy
    · exact .inr fun z => hx.trans (List.prefix_append x z).isInfix
    · exact .inl hy

namespace Pass

variable {p : Pass α} {mark : List α} {l : Option α} {s u h : List α} {m : List α}

/-- Every round drops something and keeps nothing of its match. -/
def Drops (p : Pass α) : Prop :=
  ∀ l h, p.starts h = true → (p.cut l h).kept = [] ∧ (p.cut l h).dropped ≠ []

theorem round_of_drops (hp : p.Drops) (hs : splitAtFirst p.starts s = some (u, h)) (l : Option α) :
    p.round mark l u h = u ++ mark := by
  obtain ⟨-, hstart, -, -⟩ := splitAtFirst_eq_some hs
  obtain ⟨hkept, hdropped⟩ := hp (lastOf l u) h hstart
  rw [round, hkept, List.append_nil, Cut.mark, if_neg (by simpa using hdropped)]

/-- A pass does not bring about what no mark can. -/
theorem apply_unmade {P : List α → Prop} (hP : Unmade mark P) {x : List α} (h : ¬P (x ++ s)) :
    ¬P (x ++ p.apply mark l s) := by
  induction hn : s.length using Nat.strong_induction_on generalizing x l s with
  | _ n ih =>
      cases hs : splitAtFirst p.starts s with
      | none =>
          rw [apply_of_none hs]
          exact h
      | some r =>
          obtain ⟨u, t⟩ := r
          have hlt := p.rest_lt hs (lastOf l u)
          obtain ⟨rfl, hstart, -, -⟩ := splitAtFirst_eq_some hs
          have hcut := p.cut_eq (lastOf l u) t hstart
          rw [apply_of_some hs, round]
          generalize p.cut (lastOf l u) t = c at hcut hlt ⊢
          rw [← hcut] at h
          by_cases hdropped : c.dropped = []
          · rw [Cut.mark, hdropped, List.isEmpty_nil, if_pos rfl, List.append_nil, ← List.append_assoc]
            refine ih _ (by omega) ?_ rfl
            rw [hdropped, List.append_nil] at h
            simpa using h
          · rw [Cut.mark, if_neg (by simpa using hdropped)]
            intro hm
            have hm' : P ((x ++ u ++ c.kept) ++ mark ++
                p.apply mark (lastOf l (u ++ c.kept ++ mark)) c.rest) := by simpa using hm
            rcases hP.across hm' with hright | hleft
            · refine ih _ (by omega) (x := []) (l := lastOf l (u ++ c.kept ++ mark)) ?_ rfl hright
              intro hrest
              refine h ?_
              have hlong := hP.behind (x ++ u ++ c.kept ++ c.dropped) hrest
              simpa using hlong
            · refine h ?_
              have hlong := hleft (c.dropped ++ c.rest)
              simpa using hlong

/-- A pass makes no new occurrence of a word. -/
theorem apply_avoids (hsep : Separates mark m) {x : List α} (h : ¬m <:+: x ++ s) :
    ¬m <:+: x ++ p.apply mark l s :=
  apply_unmade hsep.unmade h

/-- A pass that drops whatever starts with a word leaves none of it. -/
theorem apply_clears (hsep : Separates mark m) (hp : p.Drops) (hm : m ≠ [])
    (hstarts : ∀ a, p.starts (m ++ a) = true) : ¬m <:+: p.apply mark l s := by
  induction hn : s.length using Nat.strong_induction_on generalizing l s with
  | _ n ih =>
      cases hs : splitAtFirst p.starts s with
      | none =>
          rw [apply_of_none hs]
          intro ⟨a, b, hab⟩
          rw [List.append_assoc] at hab
          have hfalse := splitAtFirst_eq_none hs hab.symm (by simp [hm])
          rw [hstarts] at hfalse
          cases hfalse
      | some r =>
          obtain ⟨u, t⟩ := r
          have hlt := p.rest_lt hs (lastOf l u)
          rw [apply_of_some hs, round_of_drops hp hs]
          intro hin
          rcases hsep _ _ hin with hleft | hright
          · obtain ⟨a, b, hab⟩ := hleft
            obtain ⟨-, -, -, hfirst⟩ := splitAtFirst_eq_some hs
            rw [List.append_assoc] at hab
            have hfalse := hfirst a (m ++ b) hab.symm (by simp [hm])
            rw [List.append_assoc, hstarts] at hfalse
            cases hfalse
          · exact ih _ (by omega) rfl hright

/-- Nothing starts in a text, whatever follows it. -/
def Inert (p : Pass α) (pre : List α) : Prop :=
  ∀ a b r, pre = a ++ b → b ≠ [] → p.starts (b ++ r) = false

/-- A match that starts before the mark does not need it. -/
def Apart (p : Pass α) (mark : List α) : Prop :=
  ∀ b r r', b ≠ [] → p.starts (b ++ mark ++ r) = true → p.starts (b ++ r') = true

/-- Searching from the beginning again finds nothing new in what has been
rewritten, so it comes to the same. -/
theorem restart_eq (hp : p.Drops) (hcut : ∀ l l' h, p.cut l h = p.cut l' h)
    (hmark : p.Inert mark) (hapart : p.Apart mark) (fuel : Nat) {pre : List α} (hpre : p.Inert pre) :
    p.restart mark fuel (pre ++ s) = (p.run mark fuel l s).map (pre ++ ·) := by
  induction fuel generalizing pre l s with
  | zero => rfl
  | succ fuel ih =>
      rw [restart, run, splitAtFirst_append fun a b hab hb => hpre a b s hab hb]
      cases hs : splitAtFirst p.starts s with
      | none => rfl
      | some r =>
          obtain ⟨u, t⟩ := r
          obtain ⟨rfl, hstart, -, hfirst⟩ := splitAtFirst_eq_some hs
          have hround : p.round mark none (pre ++ u) t = pre ++ u ++ mark := by
            obtain ⟨hkept, hdropped⟩ := hp (lastOf none (pre ++ u)) t hstart
            rw [round, hkept, List.append_nil, Cut.mark, if_neg (by simpa using hdropped)]
          simp only [Option.map_some]
          rw [hround, round_of_drops hp hs, hcut (lastOf none (pre ++ u)) (lastOf l u),
            ih (l := lastOf l (u ++ mark)), Option.map_map]
          · congr 1
            funext out
            simp
          · -- Nothing starts in what has been rewritten so far.
            intro a b r hab hb
            rcases List.append_eq_append_iff.mp hab with ⟨e, rfl, he⟩ | ⟨e, he, rfl⟩
            · exact hmark e b r he hb
            · by_cases hnil : e = []
              · rw [hnil, List.nil_append]
                exact hmark [] mark r rfl (by simpa [hnil] using hb)
              · cases hfalse : p.starts (e ++ mark ++ r) with
                | false => rfl
                | true =>
                    rcases List.append_eq_append_iff.mp he with ⟨e', rfl, hu⟩ | ⟨e', hpre', rfl⟩
                    · have h₁ := hapart _ _ t hnil hfalse
                      rw [hfirst e' e hu hnil] at h₁
                      cases h₁
                    · by_cases hnil' : e' = []
                      · subst hnil'
                        rw [List.nil_append] at hfalse hnil
                        have h₁ := hapart _ _ t hnil hfalse
                        rw [hfirst [] u rfl hnil] at h₁
                        cases h₁
                      · have h₁ := hapart _ _ [] hnil hfalse
                        rw [List.append_assoc, hpre a e' _ hpre' hnil'] at h₁
                        cases h₁

end Pass

end Rewriting
