/-
A text with a hole, and what a pass makes of it whatever fills the hole.

# One pass

A filling is opaque to a pass where no match in it drops anything and no
scanner stops in it. A pass can then do two things. It comes to the hole with
a match that is still open, and drops the filling with what the match takes;
or it goes on behind the hole and keeps the filling. Which of the two depends
on the text before the hole alone (`Pass.awaits`, `Pass.apply_hole`).

# Passes in turn

`Handles` says this of any function on texts, one that may rewrite the
filling by itself too. It composes (`Handles.comp`), so what becomes of the
filling in a row of passes is decided by the first that awaits it.
-/
import GDrive.Rewriting.Pass

namespace Rewriting

variable {α : Type}

-- ====================================================================== letters

theorem lastOf_append (l : Option α) (a b : List α) : lastOf l (a ++ b) = lastOf (lastOf l a) b := by
  unfold lastOf
  rw [List.getLast?_append, Option.or_assoc]

theorem lastOf_of_ne_nil {b : List α} (hb : b ≠ []) (l l' : Option α) : lastOf l b = lastOf l' b := by
  unfold lastOf
  rw [List.getLast?_eq_getLast_of_ne_nil hb]
  rfl

/-- The last letter, if any, is a `Q`. -/
def Lasts (Q : α → Prop) (s : List α) : Prop := ∀ c, s.getLast? = some c → Q c

/-- The first letter, if any, is a `Q`. -/
def Heads (Q : α → Prop) (s : List α) : Prop := ∀ c, s.head? = some c → Q c

theorem Lasts.suffix {Q : α → Prop} {s a b : List α} (h : Lasts Q s) (hs : s = a ++ b) :
    Lasts Q b := by
  intro c hc
  refine h c ?_
  rw [hs, List.getLast?_append, hc]
  rfl

theorem Lasts.append {Q : α → Prop} {a b : List α} (hb : Lasts Q b) (ha : b = [] → Lasts Q a) :
    Lasts Q (a ++ b) := by
  by_cases hnil : b = []
  · rw [hnil, List.append_nil]
    exact ha hnil
  · intro c hc
    refine hb c ?_
    rw [List.getLast?_append, List.getLast?_eq_getLast_of_ne_nil hnil] at hc
    rw [List.getLast?_eq_getLast_of_ne_nil hnil]
    exact hc

/-- A search that finds its first match where it is known to be. -/
theorem splitAtFirst_of_first {starts : List α → Bool} {u h : List α} (hne : h ≠ [])
    (hh : starts h = true) (hfirst : ∀ a b, u = a ++ b → b ≠ [] → starts (b ++ h) = false) :
    splitAtFirst starts (u ++ h) = some (u, h) := by
  obtain ⟨c, rest, rfl⟩ := List.exists_cons_of_ne_nil hne
  rw [splitAtFirst_append hfirst, splitAtFirst_cons_of_starts hh]
  simp

namespace Pass

-- ===================================================================== one pass

section Awaits

variable (p : Pass α) (mark : List α) (opened : Option α → List α → Bool)

def awaitsWithin : (fuel : Nat) → Option α → List α → Bool
  | 0, _, _ => false
  | fuel + 1, l, s =>
      match splitAtFirst p.starts s with
      | none => false
      | some (u, h) =>
          opened (lastOf l u) h ||
            awaitsWithin fuel (lastOf l (p.round mark l u h)) (p.cut (lastOf l u) h).rest

/-- Does the loop come to a match that is still open at the end of the
text? -/
def awaits (l : Option α) (s : List α) : Bool := p.awaitsWithin mark opened (s.length + 1) l s

variable {p mark opened} {l : Option α} {s u h : List α}

theorem awaitsWithin_eq {fuel fuel' : Nat} (hf : s.length < fuel) (hf' : s.length < fuel') :
    p.awaitsWithin mark opened fuel l s = p.awaitsWithin mark opened fuel' l s := by
  induction fuel generalizing fuel' l s with
  | zero => omega
  | succ fuel ih =>
      obtain ⟨fuel', rfl⟩ := Nat.exists_eq_add_of_lt (Nat.zero_lt_of_lt hf')
      unfold awaitsWithin
      split
      · rfl
      · rename_i u h hs
        have hlt := p.rest_lt hs (lastOf l u)
        have hfuel : (p.cut (lastOf l u) h).rest.length < 0 + fuel' := by omega
        rw [ih (by omega) hfuel]

theorem awaits_of_none (hs : splitAtFirst p.starts s = none) : p.awaits mark opened l s = false := by
  unfold awaits awaitsWithin
  rw [hs]

theorem awaits_of_some (hs : splitAtFirst p.starts s = some (u, h)) :
    p.awaits mark opened l s = (opened (lastOf l u) h ||
      p.awaits mark opened (lastOf l (p.round mark l u h)) (p.cut (lastOf l u) h).rest) := by
  have hlt := p.rest_lt hs (lastOf l u)
  rw [awaits, awaitsWithin, hs]
  simp only
  rw [awaits, awaitsWithin_eq (by omega) (Nat.lt_succ_self _)]

end Awaits

variable {p : Pass α} {mark : List α} {opened : Option α → List α → Bool} {l : Option α}
  {s t u h x : List α} {V : List α → Prop}

/-- A pass that does not look at the letter before a match. -/
def Forgets (p : Pass α) : Prop := ∀ l l' h, p.cut l h = p.cut l' h

theorem apply_forgets (hp : p.Forgets) (l l' : Option α) (s : List α) :
    p.apply mark l s = p.apply mark l' s := by
  induction hn : s.length using Nat.strong_induction_on generalizing l l' s with
  | _ n ih =>
      cases hs : splitAtFirst p.starts s with
      | none => rw [apply_of_none hs, apply_of_none hs]
      | some r =>
          obtain ⟨u, h⟩ := r
          have hlt := p.rest_lt hs (lastOf l u)
          rw [apply_of_some hs, apply_of_some hs, round, round, hp (lastOf l' u) (lastOf l u)]
          rw [ih _ (by omega) _ _ _ rfl]

theorem rest_suffix (hs : splitAtFirst p.starts s = some (u, h)) (l : Option α) :
    s = (u ++ (p.cut l h).kept ++ (p.cut l h).dropped) ++ (p.cut l h).rest := by
  obtain ⟨rfl, hstart, -, -⟩ := splitAtFirst_eq_some hs
  rw [List.append_assoc, List.append_assoc, ← List.append_assoc (p.cut l h).kept,
    p.cut_eq l h hstart]

/-- A match that starts before the hole is the first of the text where it is
the first of what stands before the hole. -/
theorem splitAtFirst_before {starts : List α → Bool}
    (hlocal : ∀ a b, x = a ++ b → b ≠ [] → starts (b ++ s) = starts b)
    (hs : splitAtFirst starts x = some (u, h)) : splitAtFirst starts (x ++ s) = some (u, h ++ s) := by
  obtain ⟨rfl, hstart, hne, hfirst⟩ := splitAtFirst_eq_some hs
  rw [List.append_assoc]
  refine splitAtFirst_of_first (by simp [hne]) ?_ ?_
  · rw [hlocal u h rfl hne]
    exact hstart
  · intro a b hab hb
    have heq := hlocal a (b ++ h) (by rw [hab, List.append_assoc]) (by simp [hb])
    rw [List.append_assoc] at heq
    rw [heq]
    exact hfirst a b hab hb

/-- A pass goes past a beginning in which nothing starts. -/
theorem apply_skip (hu : ∀ a b, u = a ++ b → b ≠ [] → p.starts (b ++ s) = false) :
    p.apply mark l (u ++ s) = u ++ p.apply mark (lastOf l u) s := by
  cases hs : splitAtFirst p.starts s with
  | none =>
      rw [apply_of_none hs, apply_of_none]
      rw [splitAtFirst_append hu, hs]
      rfl
  | some r =>
      obtain ⟨u', h⟩ := r
      have hsplit : splitAtFirst p.starts (u ++ s) = some (u ++ u', h) := by
        rw [splitAtFirst_append hu, hs]
        rfl
      have hround : p.round mark l (u ++ u') h = u ++ p.round mark (lastOf l u) u' h := by
        rw [round, round, lastOf_append]
        simp
      rw [apply_of_some hsplit, apply_of_some hs, hround, lastOf_append l u u', lastOf_append l u,
        List.append_assoc]

/-- Where no match starts at the head of a text, the letter before the text
does not matter. -/
theorem apply_fresh (ht : t = [] ∨ p.starts t = false) (l l' : Option α) :
    p.apply mark l t = p.apply mark l' t := by
  cases hs : splitAtFirst p.starts t with
  | none => rw [apply_of_none hs, apply_of_none hs]
  | some r =>
      obtain ⟨u, h⟩ := r
      obtain ⟨rfl, hstart, hne, -⟩ := splitAtFirst_eq_some hs
      have hu : u ≠ [] := by
        rintro rfl
        rcases ht with hnil | ht
        · exact hne hnil
        · rw [List.nil_append, hstart] at ht
          cases ht
      have hround : p.round mark l u h = p.round mark l' u h := by
        rw [round, round, lastOf_of_ne_nil hu l l']
      rw [apply_of_some hs, apply_of_some hs, hround, lastOf_of_ne_nil hu l l']
      rw [lastOf_of_ne_nil (by simp [round, hu]) l l']

/-- A pass whose matches in a text drop nothing leaves the text as it is. -/
theorem apply_over (ht : t = [] ∨ p.starts t = false)
    (hlocal : ∀ a b, x = a ++ b → b ≠ [] → p.starts (b ++ t) = p.starts b)
    (hcut : ∀ l a h, x = a ++ h → p.starts h = true →
      (p.cut l h).dropped = [] ∧ p.cut l (h ++ t) = ⟨(p.cut l h).kept, [], (p.cut l h).rest ++ t⟩) :
    p.apply mark l (x ++ t) = x ++ p.apply mark none t := by
  induction hn : x.length using Nat.strong_induction_on generalizing l x with
  | _ n ih =>
      cases hs : splitAtFirst p.starts x with
      | none =>
          rw [apply_skip, apply_fresh ht]
          intro a b hab hb
          rw [hlocal a b hab hb]
          exact splitAtFirst_eq_none hs hab hb
      | some r =>
          obtain ⟨u, h⟩ := r
          have hlt := p.rest_lt hs (lastOf l u)
          have hsuffix := rest_suffix hs (lastOf l u)
          have hsplit := splitAtFirst_before hlocal hs
          obtain ⟨hx, hstart, -, -⟩ := splitAtFirst_eq_some hs
          obtain ⟨hdropped, hhere⟩ := hcut (lastOf l u) u h hx hstart
          have hround : p.round mark l u (h ++ t) = u ++ (p.cut (lastOf l u) h).kept := by
            rw [round, Cut.mark, hhere]
            simp
          rw [hdropped, List.append_nil] at hsuffix
          rw [apply_of_some hsplit, hround, hhere]
          rw [ih _ (by omega) (fun a b hab => hlocal _ b (by rw [hsuffix, hab, ← List.append_assoc]))
            (fun l' a h' hah => hcut l' _ h' (by rw [hsuffix, hah, ← List.append_assoc])) rfl,
            ← List.append_assoc, ← hsuffix]

/-- What a match does that starts before the hole. -/
inductive Carries (p : Pass α) (opened : Option α → List α → Bool) (V : List α → Prop) (t : List α)
    (l : Option α) (h : List α) : Prop
  /-- It is open, and takes the filling with it. -/
  | drops {kept rest : List α} : opened l h = true →
      (∀ v, V v → (p.cut l (h ++ (v ++ t))).kept = kept ∧ (p.cut l (h ++ (v ++ t))).dropped ≠ [] ∧
        (p.cut l (h ++ (v ++ t))).rest = rest) → Carries p opened V t l h
  /-- It ends before the hole. -/
  | leaves : opened l h = false →
      (∀ v, V v → p.cut l (h ++ (v ++ t)) =
        ⟨(p.cut l h).kept, (p.cut l h).dropped, (p.cut l h).rest ++ (v ++ t)⟩) →
      Carries p opened V t l h
  /-- It takes the filling for something to keep. -/
  | keeps {b d r : List α} : p.Forgets → opened l h = false → (p.cut l h).dropped = [] →
      (p.cut l h).rest = [] → (∀ v, V v → p.cut l (h ++ (v ++ t)) = ⟨h ++ (v ++ b), d, r⟩) →
      b ++ d ++ r = t → Carries p opened V t l h

/-- Where nothing starts at the head of a text, a pass leaves the head. -/
theorem head_apply (ht : t = [] ∨ p.starts t = false) :
    (p.apply mark l t).head? = t.head? := by
  cases hs : splitAtFirst p.starts t with
  | none => rw [apply_of_none hs]
  | some r =>
      obtain ⟨u, h⟩ := r
      obtain ⟨rfl, hstart, hne, -⟩ := splitAtFirst_eq_some hs
      cases u with
      | nil =>
          rcases ht with hnil | ht
          · exact absurd (List.append_eq_nil_iff.mp hnil).2 hne
          · rw [List.nil_append, hstart] at ht
            cases ht
      | cons c u =>
          rw [apply_of_some hs, round]
          rfl

theorem apply_ne_nil (hmark : mark ≠ []) (hs : s ≠ []) : p.apply mark l s ≠ [] := by
  cases hsplit : splitAtFirst p.starts s with
  | none =>
      rw [apply_of_none hsplit]
      exact hs
  | some r =>
      obtain ⟨u, h⟩ := r
      have hsuffix := rest_suffix hsplit (lastOf l u)
      rw [apply_of_some hsplit, round, Cut.mark]
      intro hnil
      rw [List.append_eq_nil_iff, List.append_eq_nil_iff, List.append_eq_nil_iff] at hnil
      obtain ⟨⟨⟨hu, hkept⟩, hmarked⟩, hrest⟩ := hnil
      split at hmarked
      · rename_i hdropped
        have hlength := congrArg List.length hsuffix
        have hlt := p.rest_lt hsplit (lastOf l u)
        rw [hkept, List.isEmpty_iff.mp hdropped, List.append_nil, List.append_nil,
          List.length_append, hu, List.length_nil] at hlength
        rw [hu] at hlt
        omega
      · exact hmark hmarked

/-- The first letter of what follows the hole, or of the mark. -/
def BeginsAs (mark t z : List α) : Prop := z.head? = t.head? ∨ z.head? = mark.head?

theorem BeginsAs.heads {Q : α → Prop} {z : List α} (h : BeginsAs mark t z) (hmark : Heads Q mark)
    (ht : Heads Q t) : Heads Q z := by
  intro c hc
  rcases h with h | h
  · exact ht c (h.symm.trans hc)
  · exact hmark c (h.symm.trans hc)

/-- A pass over a text that ends in a `Q`, and whose mark does. -/
theorem apply_lasts {Q : α → Prop} (hne : mark ≠ []) (hmark : Lasts Q mark) (hs : Lasts Q s) :
    Lasts Q (p.apply mark l s) := by
  induction hn : s.length using Nat.strong_induction_on generalizing l s with
  | _ n ih =>
      cases hsplit : splitAtFirst p.starts s with
      | none =>
          rw [apply_of_none hsplit]
          exact hs
      | some r =>
          obtain ⟨u, h⟩ := r
          have hlt := p.rest_lt hsplit (lastOf l u)
          have hsuffix := rest_suffix hsplit (lastOf l u)
          rw [apply_of_some hsplit]
          refine Lasts.append (ih _ (by omega) (hs.suffix hsuffix) rfl) ?_
          intro hnil
          have hrest : (p.cut (lastOf l u) h).rest = [] := by
            by_contra hrest
            exact apply_ne_nil hne hrest hnil
          rw [round, Cut.mark]
          split
          · rename_i hdropped
            rw [hrest, List.isEmpty_iff.mp hdropped, List.append_nil, List.append_nil] at hsuffix
            rw [List.append_nil, ← hsuffix]
            exact hs
          · exact Lasts.append hmark fun hnil => absurd hnil hne

/-- What stands behind a kept filling is rewritten whatever the filling. -/
theorem apply_behind (hne : mark ≠ []) {b d r : List α} (hbdr : b ++ d ++ r = t)
    (ht : t = [] ∨ p.starts t = false) :
    BeginsAs mark t (b ++ ((if d.isEmpty then [] else mark) ++ p.apply mark none r)) := by
  subst hbdr
  cases b with
  | cons c b => exact .inl rfl
  | nil =>
      cases d with
      | nil => exact .inl (head_apply ht)
      | cons c d =>
          obtain ⟨m, rest, rfl⟩ := List.exists_cons_of_ne_nil hne
          exact .inr rfl

/-- A pass comes to a hole and drops the filling, or goes on behind it. -/
theorem apply_hole (hne : mark ≠ []) (ht : t = [] ∨ p.starts t = false)
    (hlocal : ∀ v, V v → ∀ a b, x = a ++ b → b ≠ [] → p.starts (b ++ (v ++ t)) = p.starts b)
    (hover : ∀ v, V v → ∀ l, p.apply mark l (v ++ t) = v ++ p.apply mark none t)
    (hcut : ∀ l a h, x = a ++ h → p.starts h = true → p.Carries opened V t l h) :
    (p.awaits mark opened l x = true → ∃ z, ∀ v, V v → p.apply mark l (x ++ (v ++ t)) = z) ∧
      (p.awaits mark opened l x = false → ∃ z, BeginsAs mark t z ∧
        ∀ v, V v → p.apply mark l (x ++ (v ++ t)) = p.apply mark l x ++ (v ++ z)) := by
  induction hn : x.length using Nat.strong_induction_on generalizing l x with
  | _ n ih =>
      cases hs : splitAtFirst p.starts x with
      | none =>
          rw [awaits_of_none hs]
          refine ⟨nofun, fun _ => ⟨p.apply mark none t, .inl (head_apply ht), ?_⟩⟩
          intro v hv
          rw [apply_of_none hs, apply_skip, hover v hv]
          intro a b hab hb
          rw [hlocal v hv a b hab hb]
          exact splitAtFirst_eq_none hs hab hb
      | some r =>
          obtain ⟨u, h⟩ := r
          have hlt := p.rest_lt hs (lastOf l u)
          obtain ⟨rfl, hstart, hhne, -⟩ := splitAtFirst_eq_some hs
          have hsplit : ∀ v, V v → splitAtFirst p.starts (u ++ h ++ (v ++ t)) =
              some (u, h ++ (v ++ t)) := fun v hv => splitAtFirst_before (hlocal v hv) hs
          rw [awaits_of_some hs]
          cases hcut (lastOf l u) u h rfl hstart with
          | @drops kept rest hopen hcarry =>
              rw [hopen, Bool.true_or]
              refine ⟨fun _ => ⟨u ++ kept ++ mark ++ p.apply mark (lastOf l (u ++ kept ++ mark)) rest,
                ?_⟩, nofun⟩
              intro v hv
              obtain ⟨hkept, hdropped, hrest⟩ := hcarry v hv
              rw [apply_of_some (hsplit v hv), round, Cut.mark, if_neg (by simpa using hdropped),
                hkept, hrest]
          | leaves hopen hcarry =>
              rw [hopen, Bool.false_or]
              have hsuffix := rest_suffix hs (lastOf l u)
              have hround : ∀ v, V v → p.round mark l u (h ++ (v ++ t)) = p.round mark l u h := by
                intro v hv
                rw [round, round, Cut.mark, Cut.mark, hcarry v hv]
              have hrest := ih _ (by omega) (l := lastOf l (p.round mark l u h))
                (x := (p.cut (lastOf l u) h).rest)
                (fun v hv a b hab => hlocal v hv _ b (by rw [hsuffix, hab, ← List.append_assoc]))
                (fun l' a h' hah => hcut l' _ h' (by rw [hsuffix, hah, ← List.append_assoc])) rfl
              refine ⟨?_, ?_⟩
              · intro hawaits
                obtain ⟨z, hz⟩ := hrest.1 hawaits
                refine ⟨p.round mark l u h ++ z, ?_⟩
                intro v hv
                rw [apply_of_some (hsplit v hv), hround v hv, hcarry v hv]
                rw [hz v hv]
              · intro hawaits
                obtain ⟨z, hbegins, hz⟩ := hrest.2 hawaits
                refine ⟨z, hbegins, ?_⟩
                intro v hv
                rw [apply_of_some (hsplit v hv), hround v hv, hcarry v hv, apply_of_some hs]
                rw [hz v hv, List.append_assoc]
          | @keeps b d r hforgets hopen hdropped hnil hcarry hbdr =>
              have hend : (p.cut (lastOf l u) h).rest.length = 0 := by rw [hnil]; rfl
              have hwhole := rest_suffix hs (lastOf l u)
              rw [hnil, hdropped, List.append_nil, List.append_nil] at hwhole
              have hempty : splitAtFirst p.starts ([] : List α) = none := rfl
              rw [hopen, Bool.false_or, hnil, awaits_of_none hempty]
              refine ⟨nofun, fun _ => ⟨b ++ ((if d.isEmpty then [] else mark) ++ p.apply mark none r),
                apply_behind hne hbdr ht, ?_⟩⟩
              intro v hv
              rw [apply_of_some (hsplit v hv), round, Cut.mark, hcarry v hv, apply_of_some hs, round,
                Cut.mark, hdropped, hnil, apply_of_none hempty, List.isEmpty_nil, if_pos rfl,
                List.append_nil, List.append_nil, ← hwhole]
              simp only
              rw [apply_forgets hforgets _ none r]
              simp

end Pass

-- ================================================================ passes in turn

/-- What a function on texts does to a filling: where the text before the hole
awaits it (`A`), it is dropped; elsewhere it is kept, rewritten by `f`. -/
structure Handles (Q : α → Prop) (F : List α → List α) (A : List α → Prop)
    (f : List α → List α) (V V' : List α → Prop) : Prop where
  drops : ∀ {x t}, Lasts Q x → Heads Q t → A x → ∃ z, ∀ v, V v → F (x ++ (v ++ t)) = z
  keeps : ∀ {x t}, Lasts Q x → Heads Q t → ¬A x →
    ∃ z, Heads Q z ∧ ∀ v, V v → F (x ++ (v ++ t)) = F x ++ (f v ++ z)
  lasts : ∀ {x}, Lasts Q x → Lasts Q (F x)
  maps : ∀ {v}, V v → V' (f v)

variable {Q : α → Prop} {F G : List α → List α} {A B : List α → Prop} {f g : List α → List α}
  {V V' V'' : List α → Prop}

theorem Handles.comp (hF : Handles Q F A f V V') (hG : Handles Q G B g V' V'') :
    Handles Q (G ∘ F) (fun x => A x ∨ B (F x)) (g ∘ f) V V'' where
  drops := by
    intro x t hx ht hdrop
    by_cases hA : A x
    · obtain ⟨z, hz⟩ := hF.drops hx ht hA
      refine ⟨G z, ?_⟩
      intro v hv
      rw [Function.comp_apply, hz v hv]
    · obtain ⟨z, hzQ, hz⟩ := hF.keeps hx ht hA
      obtain ⟨z', hz'⟩ := hG.drops (hF.lasts hx) hzQ (hdrop.resolve_left hA)
      refine ⟨z', ?_⟩
      intro v hv
      rw [Function.comp_apply, hz v hv, hz' _ (hF.maps hv)]
  keeps := by
    intro x t hx ht hkeep
    rw [not_or] at hkeep
    obtain ⟨z, hzQ, hz⟩ := hF.keeps hx ht hkeep.1
    obtain ⟨z', hz'Q, hz'⟩ := hG.keeps (hF.lasts hx) hzQ hkeep.2
    refine ⟨z', hz'Q, ?_⟩
    intro v hv
    rw [Function.comp_apply, hz v hv, hz' _ (hF.maps hv)]
    rfl
  lasts := fun hx => hG.lasts (hF.lasts hx)
  maps := fun hv => hG.maps (hF.maps hv)

end Rewriting
