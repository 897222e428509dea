/-
Interaction programs: finite trees of requests to an outside party whose
answers the program cannot predict, and the two readings of such a tree
that a verification needs.

# The tree

A `Prog S α` either returns, sends one request of the signature `S` and
continues on the answer, or is `cut`: followed no further. A loop that
need not end is unrolled to a given depth and cut there, so a statement
about every depth is a statement about every finite part of every run.

# Operational reading

`Reaches R p w p' w'`: against a party that answers by the relation `R`
and whose own state moves from `w` to `w'`, the program `p` gets as far
as `p'`. Taking `p' = .ret a` gives the completed runs; leaving `p'`
open gives every moment of every run.

# Logical reading

`Env` is a party seen through its predicate transformer, `Env.wp` the
weakest precondition of a program against it. `Env.ofRel` turns an
answering relation and an invariant into such a party, `wp_reaches`
is the adequacy of the one reading for the other, and `Env.through`
with `wp_handle` lets a program over one signature be proved through
the specifications of the programs that implement it over another.
-/
import Mathlib.Init

namespace Interaction

/-- A signature: the requests and, for each, what an answer to it is. -/
structure Sig where
  Req : Type
  Ans : Req → Type

/-- A program over `S`: return, one request and a continuation, or cut
(not followed further). -/
inductive Prog (S : Sig) (α : Type) : Type where
  | ret (a : α)
  | ask (q : S.Req) (k : S.Ans q → Prog S α)
  | cut

variable {S T : Sig} {α β γ W : Type}

namespace Prog

-- ================================================================= monad

/-- Run `p`, then `f` on its result. -/
def bind : Prog S α → (α → Prog S β) → Prog S β
  | .ret a, f => f a
  | .ask q k, f => .ask q fun ans => (k ans).bind f
  | .cut, _ => .cut

instance : Monad (Prog S) where
  pure := .ret
  bind := bind

/-- One request, its answer returned. -/
def req (q : S.Req) : Prog S (S.Ans q) := .ask q .ret

@[simp] theorem pure_eq (a : α) : (pure a : Prog S α) = .ret a := rfl

@[simp] theorem bind_eq (p : Prog S α) (f : α → Prog S β) : p >>= f = p.bind f := rfl

@[simp] theorem ret_bind (a : α) (f : α → Prog S β) : (ret a : Prog S α).bind f = f a := rfl

@[simp] theorem ask_bind (q : S.Req) (k : S.Ans q → Prog S α) (f : α → Prog S β) :
    (ask q k).bind f = .ask q fun ans => (k ans).bind f := rfl

@[simp] theorem cut_bind (f : α → Prog S β) : (cut : Prog S α).bind f = .cut := rfl

/-- Sequencing is associative: both sides graft `g` below the leaves of
what `f` grafted below the leaves of `p`. -/
theorem bind_assoc (p : Prog S α) (f : α → Prog S β) (g : β → Prog S γ) :
    (p.bind f).bind g = p.bind fun a => (f a).bind g := by
  induction p with
  | ret a => rfl
  | cut => rfl
  | ask q k ih =>
      simp only [ask_bind]
      congr 1
      funext ans
      exact ih ans

/-- Returning is a unit of sequencing. -/
theorem bind_ret (p : Prog S α) : p.bind .ret = p := by
  induction p with
  | ret a => rfl
  | cut => rfl
  | ask q k ih =>
      simp only [ask_bind]
      congr 1
      funext ans
      exact ih ans

-- ============================================================== handlers

/-- Interpret a program over `S` by a program over `T` for each of its
requests. -/
def handle (h : (q : S.Req) → Prog T (S.Ans q)) : Prog S α → Prog T α
  | .ret a => .ret a
  | .ask q k => (h q).bind fun ans => (k ans).handle h
  | .cut => .cut

/-- Handling goes through sequencing. -/
theorem handle_bind (h : (q : S.Req) → Prog T (S.Ans q)) (p : Prog S α)
    (f : α → Prog S β) :
    (p.bind f).handle h = (p.handle h).bind fun a => (f a).handle h := by
  induction p with
  | ret a => rfl
  | cut => rfl
  | ask q k ih =>
      simp only [ask_bind, handle, bind_assoc]
      congr 1
      funext ans
      exact ih ans

/-- Whatever the answers, the program returns: no part of it is cut. -/
def Ends : Prog S α → Prop
  | .ret _ => True
  | .ask _ k => ∀ ans, (k ans).Ends
  | .cut => False

theorem Ends.bind {p : Prog S α} {f : α → Prog S β} (hp : p.Ends)
    (hf : ∀ a, (f a).Ends) : (p.bind f).Ends := by
  induction p with
  | ret a => exact hf a
  | cut => exact hp
  | ask q k ih => exact fun ans => ih ans (hp ans)

/-- Every request of the program, whatever the answers, is a `P`. -/
def Asks (P : S.Req → Prop) : Prog S α → Prop
  | .ret _ => True
  | .ask q k => P q ∧ ∀ ans, (k ans).Asks P
  | .cut => True

theorem Asks.bind {P : S.Req → Prop} {p : Prog S α} {f : α → Prog S β} (hp : p.Asks P)
    (hf : ∀ a, (f a).Asks P) : (p.bind f).Asks P := by
  induction p with
  | ret a => exact hf a
  | cut => trivial
  | ask q k ih => exact ⟨hp.1, fun ans => ih ans (hp.2 ans)⟩

end Prog

-- ========================================================== operational reading

/-- A party that answers requests: from its state, on a request, which
answers and next states are possible. -/
abbrev Rel (S : Sig) (W : Type) := W → (q : S.Req) → S.Ans q → W → Prop

/-- `p` from world `w` gets to `p'` in world `w'` after some requests. -/
inductive Reaches (R : Rel S W) : Prog S α → W → Prog S α → W → Prop
  | here (p : Prog S α) (w : W) : Reaches R p w p w
  | step {q : S.Req} {k : S.Ans q → Prog S α} {w w' w'' : W} {ans : S.Ans q}
      {p' : Prog S α} :
      R w q ans w' → Reaches R (k ans) w' p' w'' → Reaches R (.ask q k) w p' w''

/-- The party that answers anything, its state the record of the run. -/
def Rel.log (S : Sig) : Rel S (List (Σ q, S.Ans q)) :=
  fun w q ans w' => w' = w ++ [⟨q, ans⟩]

/-- A run continues from where another one got to. -/
theorem Reaches.trans {R : Rel S W} {p p' p'' : Prog S α} {w w' w'' : W}
    (h₁ : Reaches R p w p' w') (h₂ : Reaches R p' w' p'' w'') :
    Reaches R p w p'' w'' := by
  induction h₁ with
  | here => exact h₂
  | step hr _ ih => exact .step hr (ih h₂)

/-- Runs of the first part of a sequence are runs of the sequence. -/
theorem Reaches.bind {R : Rel S W} {p p' : Prog S α} {w w' : W}
    (f : α → Prog S β) (h : Reaches R p w p' w') :
    Reaches R (p.bind f) w (p'.bind f) w' := by
  induction h with
  | here => exact .here _ _
  | step hr _ ih => exact .step hr ih

/-- A party that stays as it is does so in a run. -/
theorem Reaches.still {R : Rel S W} (hstill : ∀ w q ans w', R w q ans w' → w' = w)
    {p p' : Prog S α} {w w' : W} (h : Reaches R p w p' w') : w' = w := by
  induction h with
  | here => rfl
  | step hr _ ih => exact ih.trans (hstill _ _ _ _ hr)

/-- A party whose state is seen as another one's. -/
def Rel.along {V : Type} (R : Rel S W) (view : V → W) : Rel S V :=
  fun v q ans v' => R (view v) q ans (view v')

/-- A run of such a party is a run as it is seen. -/
theorem Reaches.seen {V : Type} {R : Rel S W} {view : V → W} {p p' : Prog S α} {v v' : V}
    (h : Reaches (R.along view) p v p' v') : Reaches R p (view v) p' (view v') := by
  induction h with
  | here => exact .here _ _
  | step hr _ ih => exact .step hr ih

namespace Prog

/-- Follow a program against a party that answers by a function: where
the run ends and the party's last state. -/
def play (f : W → (q : S.Req) → S.Ans q × W) : Prog S α → W → Prog S α × W
  | .ret a, w => (.ret a, w)
  | .ask q k, w => (k (f w q).1).play f (f w q).2
  | .cut, w => (.cut, w)

/-- Played to a result, a program goes on with what follows it. -/
theorem play_bind_ret {f : W → (q : S.Req) → S.Ans q × W} {p : Prog S α} {g : α → Prog S β}
    {w w' : W} {a : α} (h : p.play f w = (.ret a, w')) : (p.bind g).play f w = (g a).play f w' := by
  induction p generalizing w with
  | ret b =>
      cases h
      rfl
  | ask q k ih => exact ih _ h
  | cut => cases h

/-- Playing against an answering function is a run against every
relation that allows its answers; `I` is what the function keeps of its
state. -/
theorem play_reaches_of {R : Rel S W} {f : W → (q : S.Req) → S.Ans q × W} {I : W → Prop}
    (hf : ∀ w q, I w → R w q (f w q).1 (f w q).2 ∧ I (f w q).2) (p : Prog S α) {w : W}
    (hI : I w) : Reaches R p w (p.play f w).1 (p.play f w).2 ∧ I (p.play f w).2 := by
  induction p generalizing w with
  | ret a => exact ⟨.here _ _, hI⟩
  | cut => exact ⟨.here _ _, hI⟩
  | ask q k ih =>
      have hstep := hf w q hI
      have hrest := ih (f w q).1 hstep.2
      exact ⟨.step hstep.1 hrest.1, hrest.2⟩

theorem play_reaches {R : Rel S W} {f : W → (q : S.Req) → S.Ans q × W}
    (hf : ∀ w q, R w q (f w q).1 (f w q).2) (p : Prog S α) (w : W) :
    Reaches R p w (p.play f w).1 (p.play f w).2 :=
  (play_reaches_of (I := fun _ => True) (fun w q _ => ⟨hf w q, trivial⟩) p trivial).1

/-- A program that ends is played to a result. -/
theorem Ends.play {f : W → (q : S.Req) → S.Ans q × W} {p : Prog S α} (h : p.Ends)
    (w : W) : ∃ a, (p.play f w).1 = .ret a := by
  induction p generalizing w with
  | ret a => exact ⟨a, rfl⟩
  | cut => exact absurd h id
  | ask q k ih => exact ih _ (h _) _

end Prog

-- ============================================================== logical reading

/-- A party seen through its predicate transformer: what must hold
before a request for a property to hold of every answer, and what holds
of a run left unfinished. -/
structure Env (S : Sig) (W : Type) where
  ask : (q : S.Req) → (S.Ans q → W → Prop) → W → Prop
  stop : W → Prop
  mono : ∀ {q : S.Req} {P P' : S.Ans q → W → Prop} {w : W},
    (∀ ans w', P ans w' → P' ans w') → ask q P w → ask q P' w

namespace Env

/-- The weakest precondition of a program against a party. -/
def wp (E : Env S W) : Prog S α → (α → W → Prop) → W → Prop
  | .ret a, P, w => P a w
  | .ask q k, P, w => E.ask q (fun ans w' => E.wp (k ans) P w') w
  | .cut, _, w => E.stop w

@[simp] theorem wp_ret (E : Env S W) (a : α) (P : α → W → Prop) (w : W) :
    E.wp (.ret a) P w ↔ P a w := Iff.rfl

@[simp] theorem wp_ask (E : Env S W) (q : S.Req) (k : S.Ans q → Prog S α)
    (P : α → W → Prop) (w : W) :
    E.wp (.ask q k) P w ↔ E.ask q (fun ans w' => E.wp (k ans) P w') w := Iff.rfl

@[simp] theorem wp_cut (E : Env S W) (P : α → W → Prop) (w : W) :
    E.wp (.cut : Prog S α) P w ↔ E.stop w := Iff.rfl

/-- Consequence. -/
theorem wp_mono {E : Env S W} {p : Prog S α} {P P' : α → W → Prop} {w : W}
    (h : E.wp p P w) (hP : ∀ a w', P a w' → P' a w') : E.wp p P' w := by
  induction p generalizing w with
  | ret a => exact hP a w h
  | cut => exact h
  | ask q k ih => exact E.mono (fun ans w' hk => ih ans hk) h

/-- Sequencing. -/
theorem wp_bind (E : Env S W) (p : Prog S α) (f : α → Prog S β)
    (P : β → W → Prop) (w : W) :
    E.wp (p.bind f) P w ↔ E.wp p (fun a w' => E.wp (f a) P w') w := by
  induction p generalizing w with
  | ret a => exact Iff.rfl
  | cut => exact Iff.rfl
  | ask q k ih =>
      constructor
      · exact E.mono fun ans w' hk => (ih ans w').mp hk
      · exact E.mono fun ans w' hk => (ih ans w').mpr hk

/-- The party of a relation `R` that must keep `I`: at every request,
and wherever a run is left, `I` holds of the world. -/
def ofRel (R : Rel S W) (I : W → Prop) : Env S W where
  ask q P w := I w ∧ ∀ ans w', R w q ans w' → P ans w'
  stop := I
  mono hP h := ⟨h.1, fun ans w' hr => hP ans w' (h.2 ans w' hr)⟩

@[simp] theorem ofRel_ask {R : Rel S W} {I : W → Prop} {q : S.Req}
    {P : S.Ans q → W → Prop} {w : W} :
    (ofRel R I).ask q P w ↔ I w ∧ ∀ ans w', R w q ans w' → P ans w' := Iff.rfl

@[simp] theorem ofRel_stop {R : Rel S W} {I : W → Prop} {w : W} :
    (ofRel R I).stop w ↔ I w := Iff.rfl

/-- Adequacy: a weakest precondition that holds before a run holds of
what is left of the program at every moment of it. -/
theorem wp_reaches {R : Rel S W} {I : W → Prop} {p p' : Prog S α}
    {P : α → W → Prop} {w w' : W} (h : (ofRel R I).wp p P w)
    (hr : Reaches R p w p' w') : (ofRel R I).wp p' P w' := by
  induction hr with
  | here => exact h
  | step hstep _ ih => exact ih (h.2 _ _ hstep)

/-- The invariant of a weakest precondition holds at every moment, once
the postcondition implies it. -/
theorem wp_always {R : Rel S W} {I : W → Prop} {p p' : Prog S α}
    {P : α → W → Prop} {w w' : W} (h : (ofRel R I).wp p P w)
    (hP : ∀ a w', P a w' → I w') (hr : Reaches R p w p' w') : I w' := by
  have hp' := wp_reaches h hr
  cases p' with
  | ret a => exact hP a w' hp'
  | ask q k => exact hp'.1
  | cut => exact hp'

/-- The postcondition of a weakest precondition holds where a run
returns. -/
theorem wp_returns {R : Rel S W} {I : W → Prop} {p : Prog S α}
    {P : α → W → Prop} {w w' : W} {a : α} (h : (ofRel R I).wp p P w)
    (hr : Reaches R p w (.ret a) w') : P a w' :=
  wp_reaches h hr

/-- The same party for a program that is never cut. -/
def total (R : Rel S W) (I : W → Prop) : Env S W where
  ask q P w := I w ∧ ∀ ans w', R w q ans w' → P ans w'
  stop _ := False
  mono hP h := ⟨h.1, fun ans w' hr => hP ans w' (h.2 ans w' hr)⟩

@[simp] theorem total_ask {R : Rel S W} {I : W → Prop} {q : S.Req}
    {P : S.Ans q → W → Prop} {w : W} :
    (total R I).ask q P w ↔ I w ∧ ∀ ans w', R w q ans w' → P ans w' := Iff.rfl

theorem wp_of_total {R : Rel S W} {I : W → Prop} {p : Prog S α} {P : α → W → Prop} {w : W}
    (h : (total R I).wp p P w) : (ofRel R I).wp p P w := by
  induction p generalizing w with
  | ret a => exact h
  | cut => exact h.elim
  | ask q k ih => exact ⟨h.1, fun ans w' hr => ih ans (h.2 ans w' hr)⟩

/-- A program that always returns may as well meet such a party. -/
theorem wp_total_of_ends {R : Rel S W} {I : W → Prop} {p : Prog S α} {P : α → W → Prop} {w : W}
    (hends : p.Ends) (h : (ofRel R I).wp p P w) : (total R I).wp p P w := by
  induction p generalizing w with
  | ret a => exact h
  | cut => exact hends.elim
  | ask q k ih => exact ⟨h.1, fun ans w' hr => ih ans (hends ans) (h.2 ans w' hr)⟩

/-- Against such a party no run ends in a cut. -/
theorem total_uncut {R : Rel S W} {I : W → Prop} {p : Prog S α} {P : α → W → Prop}
    {w w' : W} (h : (total R I).wp p P w) : ¬Reaches R p w .cut w' := by
  intro hr
  generalize hc : (Prog.cut : Prog S α) = p' at hr
  induction hr with
  | here =>
      rw [← hc] at h
      exact h
  | step hstep _ ih => exact ih (h.2 _ _ hstep) hc

/-- A program whose requests leave the world alone keeps what holds of it. -/
theorem wp_total_of_asks {R : Rel S W} {I : W → Prop} {P : S.Req → Prop} {p : Prog S α}
    {Q : α → W → Prop} {w : W} (hp : p.Asks P)
    (hquiet : ∀ q ans w', P q → R w q ans w' → w' = w) (hI : I w)
    (h : (total R fun _ => True).wp p Q w) : (total R I).wp p Q w := by
  induction p with
  | ret a => exact h
  | cut => exact h
  | ask q k ih =>
      refine ⟨hI, ?_⟩
      intro ans w' hr
      have hk := h.2 ans w' hr
      obtain rfl := hquiet q ans w' hp.1 hr
      exact ih ans (hp.2 ans) hk

/-- A program whose requests keep something of the world ends with it kept. -/
theorem wp_of_asks {R : Rel S W} {I : W → Prop} {P : S.Req → Prop} {p : Prog S α} {w : W}
    (hp : p.Asks P) (hstep : ∀ w q ans w', P q → I w → R w q ans w' → I w') (hI : I w) :
    (ofRel R fun _ => True).wp p (fun _ w' => I w') w := by
  induction p generalizing w with
  | ret a => exact hI
  | cut => trivial
  | ask q k ih => exact ⟨trivial, fun ans w' hr => ih ans (hp.2 ans) (hstep w q ans w' hp.1 hI hr)⟩

/-- Where a run gets to in a program whose requests leave the world alone. -/
theorem wp_quiet {R : Rel S W} {P : S.Req → Prop} {p : Prog S α} {w : W} (hp : p.Asks P)
    (hquiet : ∀ q ans w', P q → R w q ans w' → w' = w) :
    (ofRel R fun _ => True).wp p (fun _ w' => w' = w) w := by
  refine wp_of_asks hp ?_ rfl
  intro w₁ q ans w' hq hw hr
  rw [hw] at hr
  exact hquiet q ans w' hq hr

/-- The party that answers by a function. -/
def playing (f : W → (q : S.Req) → S.Ans q × W) : Env S W where
  ask q P w := P (f w q).1 (f w q).2
  stop _ := False
  mono hP h := hP _ _ h

/-- Against such a party a weakest precondition gives a completed run. -/
theorem wp_playing {f : W → (q : S.Req) → S.Ans q × W} {p : Prog S α} {P : α → W → Prop}
    {w : W} (h : (playing f).wp p P w) :
    ∃ a, (p.play f w).1 = .ret a ∧ P a (p.play f w).2 := by
  induction p generalizing w with
  | ret a => exact ⟨a, rfl, h⟩
  | cut => exact h.elim
  | ask q k ih => exact ih (f w q).1 h

/-- The party that answers anything, to which only `P` may be sent. -/
def asking (P : S.Req → Prop) : Env S Unit where
  ask q Q w := P q ∧ ∀ ans, Q ans w
  stop _ := True
  mono hP h := ⟨h.1, fun ans => hP ans _ (h.2 ans)⟩

@[simp] theorem asking_ask {P : S.Req → Prop} {q : S.Req} {Q : S.Ans q → Unit → Prop}
    {w : Unit} : (asking P).ask q Q w ↔ P q ∧ ∀ ans, Q ans w := Iff.rfl

/-- Adequacy, whoever answers: what holds before a run holds of what is left
of the program at every moment of it; so whatever is sent is a `P`. -/
theorem wp_asking {R : Rel S W} {P : S.Req → Prop} {p p' : Prog S α} {Q : α → Unit → Prop}
    {w w' : W} (h : (asking P).wp p Q ()) (hr : Reaches R p w p' w') :
    (asking P).wp p' Q () := by
  induction hr with
  | here => exact h
  | step _ _ ih => exact ih (h.2 _)

/-- Nothing asked, nothing to prove. -/
theorem wp_true (R : Rel S W) (p : Prog S α) (w : W) :
    (ofRel R fun _ => True).wp p (fun _ _ => True) w := by
  induction p generalizing w with
  | ret a => trivial
  | cut => trivial
  | ask q k ih => exact ⟨trivial, fun ans w' _ => ih ans w'⟩

/-- The party that a handled signature meets: each request is answered
by running its handler against `E`. -/
def through (E : Env T W) (h : (q : S.Req) → Prog T (S.Ans q)) : Env S W where
  ask q P w := E.wp (h q) P w
  stop := E.stop
  mono hP hw := wp_mono hw hP

@[simp] theorem through_ask {E : Env T W} {h : (q : S.Req) → Prog T (S.Ans q)}
    {q : S.Req} {P : S.Ans q → W → Prop} {w : W} :
    (E.through h).ask q P w ↔ E.wp (h q) P w := Iff.rfl

@[simp] theorem through_stop {E : Env T W} {h : (q : S.Req) → Prog T (S.Ans q)}
    {w : W} : (E.through h).stop w ↔ E.stop w := Iff.rfl

/-- A handled program against `E` is the program itself against the
party its handlers make of `E`. -/
theorem wp_handle (E : Env T W) (h : (q : S.Req) → Prog T (S.Ans q))
    (p : Prog S α) (P : α → W → Prop) (w : W) :
    E.wp (p.handle h) P w ↔ (E.through h).wp p P w := by
  induction p generalizing w with
  | ret a => exact Iff.rfl
  | cut => exact Iff.rfl
  | ask q k ih =>
      rw [Prog.handle, wp_bind, wp_ask, through_ask]
      constructor
      · exact fun hw => wp_mono hw fun ans w' hk => (ih ans w').mp hk
      · exact fun hw => wp_mono hw fun ans w' hk => (ih ans w').mpr hk

end Env

end Interaction
