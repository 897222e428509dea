/-
Pools: any number of interaction programs that share one party, their
requests answered one at a time and in any order.

# The pool

A thread is a program and is known by a number. A step answers the request
some thread waits with, starts a thread, or is a move of the outside
(`Pool.Step`). A request the party has no answer to leaves its thread
waiting, which is how a lock is modelled; a thread that has returned stays
where it is, so what it returned can be spoken of, and can decide what may be
started after it.

# Rely and guarantee

`rely t` is what thread `t` has to put up with between two of its own steps.
`Env.among` is the party as such a thread sees it: before each answer the
world may have moved on by `rely t`, the answer keeps the invariant, and the
move is one that every other thread puts up with. A weakest precondition
against it outlives what the others do (`wp_rely`), so what each thread is
proved to do alone holds of the pool: `Pool.Reachable.inv`.
-/
import Mathlib.Logic.Relation
import Mathlib.Logic.Function.Basic
import GDrive.Interaction.Program

namespace Interaction

variable {S : Sig} {W α β : Type}

-- ======================================================================= pools

structure Pool (S : Sig) (W α : Type) where
  threads : Nat → Option (Prog S α) := fun _ => none
  world : W

/-- What some thread has returned. -/
def Pool.Returned (s : Pool S W α) (a : α) : Prop := ∃ t, s.threads t = some (.ret a)

/-- How a pool can move: `R t` answers thread `t`, `Starts` says what may be
started after which results, `Moves` is the outside. -/
structure Traffic (S : Sig) (W α : Type) where
  R : Nat → Rel S W
  Starts : (α → Prop) → Prog S α → Prop
  Moves : W → W → Prop

namespace Pool

inductive Step (T : Traffic S W α) (s : Pool S W α) : Pool S W α → Prop
  | start (t : Nat) (p : Prog S α) : s.threads t = none → T.Starts s.Returned p →
      Step T s { s with threads := Function.update s.threads t (some p) }
  | answer (t : Nat) (q : S.Req) (k : S.Ans q → Prog S α) (ans : S.Ans q) (w : W) :
      s.threads t = some (.ask q k) → T.R t s.world q ans w →
      Step T s ⟨Function.update s.threads t (some (k ans)), w⟩
  | outside (w : W) : T.Moves s.world w → Step T s { s with world := w }

/-- Where any order of steps leads to from no threads at all. -/
def Reachable (T : Traffic S W α) (w : W) : Pool S W α → Prop :=
  Relation.ReflTransGen (Step T) ⟨fun _ => none, w⟩

end Pool

-- ============================================================ a thread among others

section Threads

variable {R : Nat → Rel S W} {I : W → Prop} {rely : Nat → W → W → Prop}

/-- The party as thread `t` of a pool sees it. -/
def Env.among (R : Nat → Rel S W) (I : W → Prop) (rely : Nat → W → W → Prop) (t : Nat) :
    Env S W where
  ask q P w := ∀ w₁, rely t w w₁ → I w₁ → ∀ ans w', R t w₁ q ans w' →
    I w' ∧ (∀ t', t' ≠ t → rely t' w₁ w') ∧ P ans w'
  stop _ := True
  mono hP h := fun w₁ hrely hI ans w' hr =>
    let ⟨hI', hothers, hans⟩ := h w₁ hrely hI ans w' hr
    ⟨hI', hothers, hP ans w' hans⟩

theorem Env.among_ask {t : Nat} {q : S.Req} {P : S.Ans q → W → Prop} {w : W} :
    (Env.among R I rely t).ask q P w ↔ ∀ w₁, rely t w w₁ → I w₁ → ∀ ans w', R t w₁ q ans w' →
      I w' ∧ (∀ t', t' ≠ t → rely t' w₁ w') ∧ P ans w' := Iff.rfl

/-- What the others do can be put up with any number of times. -/
structure Relies (rely : Nat → W → W → Prop) : Prop where
  refl : ∀ t w, rely t w w
  trans : ∀ t w w' w'', rely t w w' → rely t w' w'' → rely t w w''

/-- What the others do takes nothing from a thread. -/
theorem Env.wp_rely (hrely : Relies rely) {t : Nat} {p : Prog S α} {P : α → W → Prop}
    (hP : ∀ a w w', P a w → rely t w w' → P a w') {w w' : W}
    (h : (Env.among R I rely t).wp p P w) (hw : rely t w w') :
    (Env.among R I rely t).wp p P w' := by
  cases p with
  | ret a => exact hP a w w' h hw
  | cut => exact h
  | ask q k =>
      intro w₁ hw₁
      exact h w₁ (hrely.trans t w w' w₁ hw hw₁)

-- ================================================================= the whole pool

/-- The threads of a pool are each proved to do their part. -/
structure Proved (T : Traffic S W α) (I : W → Prop) (rely : Nat → W → W → Prop)
    (P : α → W → Prop) : Prop where
  relies : Relies rely
  /-- What a result says goes on holding. -/
  stable : ∀ t a w w', P a w → rely t w w' → P a w'
  outside : ∀ w w', I w → T.Moves w w' → I w' ∧ ∀ t, rely t w w'
  starts : ∀ (t : Nat) (given : α → Prop) (p : Prog S α) (w : W), I w → (∀ a, given a → P a w) →
    T.Starts given p → (Env.among T.R I rely t).wp p P w

/-- What holds of a pool at every moment. -/
structure Pool.Sound (T : Traffic S W α) (I : W → Prop) (rely : Nat → W → W → Prop)
    (P : α → W → Prop) (s : Pool S W α) : Prop where
  world : I s.world
  threads : ∀ t p, s.threads t = some p → (Env.among T.R I rely t).wp p P s.world

variable {T : Traffic S W α} {P : α → W → Prop} {s s' : Pool S W α}

theorem Pool.Sound.returned (h : s.Sound T I rely P) {a : α} (ha : s.Returned a) :
    P a s.world := by
  obtain ⟨t, ht⟩ := ha
  exact h.threads t (.ret a) ht

theorem thread_cases {threads : Nat → Option (Prog S α)} {t t' : Nat} {p p' : Prog S α}
    (h : Function.update threads t (some p) t' = some p') :
    (t' = t ∧ p' = p) ∨ (t' ≠ t ∧ threads t' = some p') := by
  by_cases ht : t' = t
  · rw [ht, Function.update_self] at h
    exact .inl ⟨ht, (Option.some.inj h).symm⟩
  · rw [Function.update_of_ne ht] at h
    exact .inr ⟨ht, h⟩

theorem Pool.Sound.step (hT : Proved T I rely P) (h : s.Sound T I rely P)
    (hstep : s.Step T s') : s'.Sound T I rely P := by
  cases hstep with
  | start t p hnone hstarts =>
      refine ⟨h.world, ?_⟩
      intro t' p' hp'
      obtain ⟨ht, hp⟩ | ⟨-, hold⟩ := thread_cases hp'
      · rw [ht, hp]
        exact hT.starts t s.Returned p s.world h.world (fun a ha => h.returned ha) hstarts
      · exact h.threads t' p' hold
  | answer t q k ans w hthread hr =>
      have hask := h.threads t (.ask q k) hthread
      obtain ⟨hI, hothers, hk⟩ :=
        hask s.world (hT.relies.refl t s.world) h.world ans w hr
      refine ⟨hI, ?_⟩
      intro t' p' hp'
      obtain ⟨ht, hp⟩ | ⟨ht, hold⟩ := thread_cases hp'
      · rw [ht, hp]
        exact hk
      · exact Env.wp_rely hT.relies (hT.stable t') (h.threads t' p' hold) (hothers t' ht)
  | outside w hmove =>
      obtain ⟨hI, hrely⟩ := hT.outside s.world w h.world hmove
      refine ⟨hI, ?_⟩
      intro t' p' hp'
      exact Env.wp_rely hT.relies (hT.stable t') (h.threads t' p' hp') (hrely t')

/-- Proved thread by thread, it holds of every interleaving. -/
theorem Pool.Reachable.inv (hT : Proved T I rely P) {w : W} (hw : I w)
    (hr : Pool.Reachable T w s) : s.Sound T I rely P := by
  induction hr with
  | refl =>
      refine ⟨hw, ?_⟩
      intro t p hp
      cases hp
  | tail _ hlast ih => exact ih.step hT hlast

end Threads

-- ============================================================== worlds that grow

section Growth

variable {R : Nat → Rel S W} {I : W → Prop} {grows : W → W → Prop}

end Growth

-- ==================================================================== given runs

section Given

variable {T : Traffic S W α} {s : Pool S W α}

/-- What a program has returned. -/
def Prog.result : Prog S α → Option α
  | .ret a => some a
  | _ => none

/-- A thread that runs for itself runs in the pool. -/
theorem Pool.Reachable.run {w₀ w w' : W} {p p' : Prog S α} {t : Nat}
    {threads : Nat → Option (Prog S α)}
    (h : Pool.Reachable T w₀ ⟨Function.update threads t (some p), w⟩)
    (hr : Reaches (T.R t) p w p' w') :
    Pool.Reachable T w₀ ⟨Function.update threads t (some p'), w'⟩ := by
  induction hr with
  | here p w => exact h
  | @step q k w w₁ w₂ ans p' hstep _ ih =>
      apply ih
      have hanswer := Pool.Step.answer (T := T)
        (s := ⟨Function.update threads t (some (.ask q k)), w⟩) t q k ans w₁
        (Function.update_self ..) hstep
      rw [show Function.update threads t (some (k ans)) =
        Function.update (Function.update threads t (some (Prog.ask q k))) t (some (k ans)) from
          (Function.update_idem ..).symm]
      exact h.tail hanswer

end Given

end Interaction
