/-
Histories of an object: the sequences of operations callers may invoke
on a state, each operation a `Code`, each running to an outcome (a
result or an exception) before the next one starts, plus the operation
under way at any one moment.

An invariant that every operation keeps holds after every history
(`History.inv`); one that every operation also keeps of the outside
world at each of its requests holds at every moment (`Moment.world`).
Where the operations only keep it under a guard, it holds after the
histories whose operations met theirs (`Guarded.inv`).
-/
import Mathlib.Data.List.Induction
import GDrive.Interaction.Code

namespace Interaction

variable {S : Sig} {ε σ β Op W : Type}

/-- A history of operations from a state and a world: what was invoked,
with its outcome, oldest first, and the state and world it leads to. -/
inductive History (R : Rel S W) (body : Op → Code S ε σ β) (s : σ) (w : W) :
    List (Op × Except ε β) → σ → W → Prop
  | nil : History R body s w [] s w
  | snoc {l : List (Op × Except ε β)} {s' s'' : σ} {w' w'' : W} {op : Op}
      {r : Except ε β} :
      History R body s w l s' w' →
      Reaches R (body op s') w' (.ret (r, s'')) w'' →
      History R body s w (l ++ [(op, r)]) s'' w''

/-- A moment of an object's life: some history has completed and at most
one further operation is under way; `w'` is the world then. -/
def Moment (R : Rel S W) (body : Op → Code S ε σ β) (s : σ) (w w' : W) : Prop :=
  ∃ l s₁ w₁ op p, History R body s w l s₁ w₁ ∧ Reaches R (body op s₁) w₁ p w'

namespace History

variable {R : Rel S W} {body : Op → Code S ε σ β} {s s' : σ} {w w' : W}
  {l : List (Op × Except ε β)}

/-- An invariant of record, state and world that every operation keeps
holds after every history. `J` is what each operation has to keep of the
world at its requests. -/
theorem inv_log {I : List (Op × Except ε β) → σ → W → Prop}
    {J : List (Op × Except ε β) → Op → W → Prop}
    (hstep : ∀ l op s w, I l s w →
      (body op).wp (.ofRel R (J l op)) (fun r s' w' => I (l ++ [(op, r)]) s' w') s w)
    (hI : I [] s w) (h : History R body s w l s' w') : I l s' w' := by
  induction h with
  | nil => exact hI
  | snoc _ hr ih => exact Code.wp_returns (hstep _ _ _ _ ih) hr

/-- The same of an invariant that does not look at the record. -/
theorem inv {I : σ → W → Prop} {J : W → Prop}
    (hstep : ∀ op s w, I s w →
      (body op).wp (.ofRel R J) (fun _ s' w' => I s' w') s w)
    (hI : I s w) (h : History R body s w l s' w') : I s' w' :=
  h.inv_log (I := fun _ => I) (J := fun _ _ => J) (fun _ => hstep) hI

/-- An invariant of record and state that every operation keeps, whatever is
answered, each sending only what `P` allows it. -/
theorem inv_asking {I : List (Op × Except ε β) → σ → Prop}
    {P : List (Op × Except ε β) → Op → S.Req → Prop}
    (hstep : ∀ l op s, I l s →
      (body op).wp (.asking (P l op)) (fun r s' _ => I (l ++ [(op, r)]) s') s ())
    (hI : I [] s) (h : History R body s w l s' w') : I l s' := by
  induction h with
  | nil => exact hI
  | @snoc l s₁ s₂ w₁ w₂ op r _ hr ih =>
      have hlast := Env.wp_asking (hstep l op s₁ ih) hr
      exact hlast

/-- Histories compose. -/
theorem append {l' : List (Op × Except ε β)} {s'' : σ} {w'' : W}
    (h₁ : History R body s w l s' w') (h₂ : History R body s' w' l' s'' w'') :
    History R body s w (l ++ l') s'' w'' := by
  induction h₂ with
  | nil => simpa using h₁
  | snoc _ hr ih =>
      rw [← List.append_assoc]
      exact .snoc ih hr

/-- The last operation of a history, split off. -/
theorem snoc_inv {x : Op × Except ε β}
    (h : History R body s w (l ++ [x]) s' w') :
    ∃ s₁ w₁, History R body s w l s₁ w₁ ∧
      Reaches R (body x.1 s₁) w₁ (.ret (x.2, s')) w' := by
  generalize hl : l ++ [x] = l' at h
  cases h with
  | nil => simp at hl
  | snoc h hr =>
      obtain ⟨rfl, hx⟩ := List.append_inj' hl rfl
      cases hx
      exact ⟨_, _, h, hr⟩

/-- A history splits at any point of its operations. -/
theorem append_inv {l' : List (Op × Except ε β)}
    (h : History R body s w (l ++ l') s' w') :
    ∃ s₁ w₁, History R body s w l s₁ w₁ ∧ History R body s₁ w₁ l' s' w' := by
  induction l' using List.reverseRecOn generalizing s' w' with
  | nil => exact ⟨s', w', by simpa using h, .nil⟩
  | append_singleton l' x ih =>
      rw [← List.append_assoc] at h
      obtain ⟨s₂, w₂, h₂, hr⟩ := snoc_inv h
      obtain ⟨s₁, w₁, h₁, h₂'⟩ := ih h₂
      exact ⟨s₁, w₁, h₁, .snoc h₂' hr⟩

end History

/-- A history each of whose operations met a guard on the state and the
world it started from. -/
inductive Guarded (R : Rel S W) (body : Op → Code S ε σ β) (guard : Op → σ → W → Prop) (s : σ)
    (w : W) : List (Op × Except ε β) → σ → W → Prop
  | nil : Guarded R body guard s w [] s w
  | snoc {l : List (Op × Except ε β)} {s' s'' : σ} {w' w'' : W} {op : Op} {r : Except ε β} :
      Guarded R body guard s w l s' w' →
      guard op s' w' →
      Reaches R (body op s') w' (.ret (r, s'')) w'' →
      Guarded R body guard s w (l ++ [(op, r)]) s'' w''

/-- An invariant that every guarded operation keeps holds after every guarded
history. -/
theorem Guarded.inv {R : Rel S W} {body : Op → Code S ε σ β} {guard : Op → σ → W → Prop} {s s' : σ}
    {w w' : W} {l : List (Op × Except ε β)} {I : σ → W → Prop}
    (hstep : ∀ op s w, I s w → guard op s w →
      (body op).wp (.ofRel R fun _ => True) (fun _ s' w' => I s' w') s w)
    (hI : I s w) (h : Guarded R body guard s w l s' w') : I s' w' := by
  induction h with
  | nil => exact hI
  | snoc _ hguard hr ih => exact Code.wp_returns (hstep _ _ _ ih hguard) hr

/-- What every operation keeps of the world at each of its requests
holds at every moment. -/
theorem Moment.world {R : Rel S W} {body : Op → Code S ε σ β} {s : σ}
    {w w' : W} {I : σ → W → Prop} {J : W → Prop}
    (hstep : ∀ op s w, I s w →
      (body op).wp (.ofRel R J) (fun _ s' w' => I s' w') s w)
    (hJ : ∀ s w, I s w → J w) (hI : I s w) (h : Moment R body s w w') :
    J w' := by
  obtain ⟨l, s₁, w₁, op, p, hh, hr⟩ := h
  exact Code.wp_always (hstep op s₁ w₁ (hh.inv hstep hI))
    (fun _ s' w'' hw => hJ s' w'' hw) hr

end Interaction
