/-
Interleavings of threads: a system whose steps are labelled with events,
each of which can or cannot happen in a state, and the runs it has.

A fetch that several threads wait for is a future. It is known by a number;
`FutureTable` says which fetches there are and how far each is, and
`Advances` is all that one event can do to them. A fetch that runs has run
since it started (`Advances.running`).
-/
import Mathlib.Logic.Relation
import Mathlib.Logic.Function.Basic

namespace Interaction

-- ======================================================================= runs

section Runs

variable {σ α : Type} {step : σ → α → Option σ} {P : σ → α → σ → Prop} {s s' : σ}

/-- What a system comes to by events that meet `P`. -/
abbrev Runs (step : σ → α → Option σ) (P : σ → α → σ → Prop) : σ → σ → Prop :=
  Relation.ReflTransGen fun s s' => ∃ event, step s event = some s' ∧ P s event s'

/-- What every event keeps, every run keeps. -/
theorem Runs.inv {I : σ → Prop}
    (hstep : ∀ {s event s'}, I s → step s event = some s' → P s event s' → I s')
    (h : I s) (hr : Runs step P s s') : I s' := by
  induction hr with
  | refl => exact h
  | tail _ hlast ih =>
      obtain ⟨event, hevent, hP⟩ := hlast
      exact hstep ih hevent hP

/-- The run that a list of events makes. -/
theorem Runs.of_events {events : List α} (hrun : events.foldlM step s = some s')
    (hP : ∀ {s event s'}, P s event s') : Runs step P s s' := by
  induction events generalizing s with
  | nil =>
      cases hrun
      exact .refl
  | cons event events ih =>
      rw [List.foldlM_cons] at hrun
      obtain ⟨s₁, hs₁, hrest⟩ := Option.bind_eq_some_iff.mp hrun
      exact .head ⟨event, hs₁, hP⟩ (ih hrest)

/-- The same, each event checked. -/
theorem Runs.of_checked [∀ s event s', Decidable (P s event s')] {events : List α}
    (hrun : events.foldlM
      (fun s event => (step s event).filter fun s' => decide (P s event s')) s = some s') :
    Runs step P s s' := by
  induction events generalizing s with
  | nil =>
      cases hrun
      exact .refl
  | cons event events ih =>
      rw [List.foldlM_cons] at hrun
      obtain ⟨s₁, hs₁, hrest⟩ := Option.bind_eq_some_iff.mp hrun
      obtain ⟨hstep, hP⟩ := Option.filter_eq_some_iff.mp hs₁
      exact .head ⟨event, hstep, of_decide_eq_true hP⟩ (ih hrest)

end Runs

-- ==================================================================== futures

/-- How far a fetch is: it runs, it has been through its last critical
section, its promise is set. -/
inductive FutureStatus (ρ : Type)
  | running
  | settled (outcome : ρ)
  | delivered (outcome : ρ)

/-- A fetch, for what was asked. -/
structure Future (α ρ : Type) where
  request : α
  status : FutureStatus ρ := .running

abbrev FutureTable (α ρ : Type) := Nat → Option (Future α ρ)

section Futures

variable {α ρ : Type} {t t' : FutureTable α ρ} {g : Nat} {a : α}

/-- What one event does to the fetches: nothing, a new one, or one goes on. -/
inductive Advances (t : FutureTable α ρ) : FutureTable α ρ → Prop
  | same : Advances t t
  | start (g : Nat) (a : α) : t g = none → Advances t (Function.update t g (some { request := a }))
  | settle (g : Nat) (a : α) (outcome : ρ) : t g = some ⟨a, .running⟩ →
      Advances t (Function.update t g (some ⟨a, .settled outcome⟩))
  | deliver (g : Nat) (a : α) (status : FutureStatus ρ) (outcome : ρ) : t g = some ⟨a, status⟩ →
      (∀ r, status ≠ .delivered r) → Advances t (Function.update t g (some ⟨a, .delivered outcome⟩))

theorem ne_of_none {g' : Nat} {f : Future α ρ} (hf : t g = some f) (hnone : t g' = none) :
    g ≠ g' := by
  intro hg
  rw [← hg, hf] at hnone
  cases hnone

/-- A fetch is never forgotten, nor what it is for. -/
theorem Advances.kept (h : Advances t t') {f : Future α ρ} (hf : t g = some f) :
    ∃ f', t' g = some f' ∧ f'.request = f.request := by
  have hother : ∀ {g' : Nat} {a : α} {status status' : FutureStatus ρ}, t g' = some ⟨a, status⟩ →
      ∃ f', Function.update t g' (some ⟨a, status'⟩) g = some f' ∧ f'.request = f.request := by
    intro g' a status status' hg'
    by_cases hg : g = g'
    · rw [← hg, hf] at hg'
      cases hg'
      refine ⟨⟨a, status'⟩, ?_, rfl⟩
      rw [hg, Function.update_self]
    · rw [Function.update_of_ne hg]
      exact ⟨f, hf, rfl⟩
  cases h with
  | same => exact ⟨f, hf, rfl⟩
  | start g' a hnone =>
      have hg : g ≠ g' := ne_of_none hf hnone
      rw [Function.update_of_ne hg]
      exact ⟨f, hf, rfl⟩
  | settle g' a outcome hg' => exact hother hg'
  | deliver g' a status outcome hg' _ => exact hother hg'

/-- A fetch that runs now ran before, if it was there at all. -/
theorem Advances.running (h : Advances t t') {f : Future α ρ} (hf : t g = some f)
    (hr : t' g = some ⟨a, .running⟩) : t g = some ⟨a, .running⟩ := by
  have hother : ∀ {g' : Nat} (f' : Future α ρ), f'.status ≠ .running →
      Function.update t g' (some f') g = some ⟨a, .running⟩ → t g = some ⟨a, .running⟩ := by
    intro g' f' hstatus hupdate
    by_cases hg : g = g'
    · rw [hg, Function.update_self] at hupdate
      cases hupdate
      exact absurd rfl hstatus
    · rwa [Function.update_of_ne hg] at hupdate
  cases h with
  | same => exact hr
  | start g' a' hnone =>
      have hg : g ≠ g' := ne_of_none hf hnone
      rwa [Function.update_of_ne hg] at hr
  | settle g' a' outcome hg' => exact hother ⟨a', .settled outcome⟩ nofun hr
  | deliver g' a' status outcome hg' _ => exact hother ⟨a', .delivered outcome⟩ nofun hr

/-- A fetch that is settled now ran before, or was settled so. -/
theorem Advances.settled (h : Advances t t') {f : Future α ρ} (hf : t g = some f) {r : ρ}
    (hr : t' g = some ⟨a, .settled r⟩) :
    t g = some ⟨a, .running⟩ ∨ t g = some ⟨a, .settled r⟩ := by
  cases h with
  | same => exact .inr hr
  | start g' a' hnone =>
      have hg : g ≠ g' := ne_of_none hf hnone
      rw [Function.update_of_ne hg] at hr
      exact .inr hr
  | settle g' a' outcome hg' =>
      by_cases hg : g = g'
      · rw [hg, Function.update_self] at hr
        cases hr
        rw [hg]
        exact .inl hg'
      · rw [Function.update_of_ne hg] at hr
        exact .inr hr
  | deliver g' a' status outcome hg' _ =>
      by_cases hg : g = g'
      · rw [hg, Function.update_self] at hr
        cases hr
      · rw [Function.update_of_ne hg] at hr
        exact .inr hr

/-- An outcome that has been delivered stays. -/
theorem Advances.delivered (h : Advances t t') {r : ρ} (hf : t g = some ⟨a, .delivered r⟩) :
    t' g = some ⟨a, .delivered r⟩ := by
  have hother : ∀ {g' : Nat} {a' : α} {status : FutureStatus ρ} {f' : Future α ρ},
      t g' = some ⟨a', status⟩ → (∀ r, status ≠ .delivered r) →
      Function.update t g' (some f') g = some ⟨a, .delivered r⟩ := by
    intro g' a' status f' hg' hstatus
    have hg : g ≠ g' := by
      intro hg
      rw [← hg, hf] at hg'
      cases hg'
      exact hstatus r rfl
    rwa [Function.update_of_ne hg]
  cases h with
  | same => exact hf
  | start g' a' hnone =>
      have hg : g ≠ g' := ne_of_none hf hnone
      rwa [Function.update_of_ne hg]
  | settle g' a' outcome hg' => exact hother hg' nofun
  | deliver g' a' status outcome hg' hstatus => exact hother hg' hstatus

end Futures

end Interaction
