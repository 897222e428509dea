/-
Stateful code over interaction programs: a `Code S ε σ α` reads and
writes a state `σ`, makes requests of `S`, and returns an `α` or throws
an `ε`. A throw keeps the state as it stood, which is what an exception
unwinding through an object leaves behind.

The weakest precondition `Code.wp` has one rule per way of building code,
each an equivalence tagged `simp`, so that unrolling a function's text
leaves exactly its requests and its arithmetic to reason about.
-/
import GDrive.Interaction.Program

namespace Interaction

/-- Code over a state: from a state, a program that ends with a result
or an exception and the state then. -/
def Code (S : Sig) (ε σ α : Type) := σ → Prog S (Except ε α × σ)

variable {S : Sig} {ε σ τ α β W : Type}

namespace Code

-- ============================================================ constructors

instance : Monad (Code S ε σ) where
  pure a := fun s => .ret (.ok a, s)
  bind c f := fun s => (c s).bind fun r =>
    match r.1 with
    | .ok a => f a r.2
    | .error e => .ret (.error e, r.2)

theorem bind_pure' (c : Code S ε σ α) : c >>= pure = c := by
  funext s
  have hret : (fun r : Except ε α × σ => match r.1 with
      | .ok a => (pure a : Code S ε σ α) r.2
      | .error e => .ret (.error e, r.2)) = .ret := by
    funext r
    obtain ⟨a | e, s'⟩ := r
    · rfl
    · rfl
  show (c s).bind _ = c s
  rw [hret, Prog.bind_ret]

theorem bind_assoc' {γ : Type} (c : Code S ε σ α) (f : α → Code S ε σ β) (g : β → Code S ε σ γ) :
    c >>= f >>= g = c >>= fun a => f a >>= g := by
  funext s
  show ((c s).bind _).bind _ = (c s).bind _
  rw [Prog.bind_assoc]
  congr 1
  funext r
  obtain ⟨a | e, s'⟩ := r
  · rfl
  · rfl

instance : LawfulMonad (Code S ε σ) :=
  LawfulMonad.mk' _ bind_pure' (fun _ _ => rfl) bind_assoc'

/-- Throw. -/
def throw (e : ε) : Code S ε σ α := fun s => .ret (.error e, s)

/-- Run `c`; on an exception run the handler in the state it left. -/
def tryCatch (c : Code S ε σ α) (h : ε → Code S ε σ α) : Code S ε σ α :=
  fun s => (c s).bind fun r =>
    match r.1 with
    | .ok a => .ret (.ok a, r.2)
    | .error e => h e r.2

/-- The state. -/
def get : Code S ε σ σ := fun s => .ret (.ok s, s)

/-- Replace the state. -/
def set (s : σ) : Code S ε σ Unit := fun _ => .ret (.ok (), s)

/-- Change the state. -/
def modify (f : σ → σ) : Code S ε σ Unit := fun s => .ret (.ok (), f s)

/-- One request. -/
def req (q : S.Req) : Code S ε σ (S.Ans q) :=
  fun s => .ask q fun ans => .ret (.ok ans, s)

/-- A program that may end in an exception, run as code. -/
def lift (p : Prog S (Except ε α)) : Code S ε σ α :=
  fun s => p.bind fun r => .ret (r, s)

/-- A value or an exception already computed. -/
def ofExcept (r : Except ε α) : Code S ε σ α := fun s => .ret (r, s)

/-- Stop following the run. -/
def cut : Code S ε σ α := fun _ => .cut

/-- Run `c` where the condition holds. -/
def when (b : Bool) (c : Code S ε σ Unit) : Code S ε σ Unit := if b then c else pure ()

/-- On an exception, clean up in the state it left and throw it on. -/
def onError (c : Code S ε σ α) (cleanup : Code S ε σ Unit) : Code S ε σ α :=
  tryCatch c fun e => cleanup >>= fun _ => throw e

/-- Run `c` and hand its outcome to the caller as a value: what the
caller of a function that may throw sees. -/
def attempt (c : Code S ε σ α) : Code S ε σ (Except ε α) :=
  fun s => (c s).bind fun r => .ret (.ok r.1, r.2)

/-- Code over `S` run by programs over `T` for its requests. -/
def handle {T : Sig} (h : (q : S.Req) → Prog T (S.Ans q)) (c : Code S ε σ α) : Code T ε σ α :=
  fun s => (c s).handle h

/-- Run code over a part of the state. -/
def zoom (view : σ → τ) (put : τ → σ → σ) (c : Code S ε τ α) : Code S ε σ α :=
  fun s => (c (view s)).bind fun r => .ret (r.1, put r.2 s)

-- ================================================================== requests

/-- Every request of the code, from any state, is a `P`. -/
def Asks (P : S.Req → Prop) (c : Code S ε σ α) : Prop := ∀ s, (c s).Asks P

theorem asks_pure {P : S.Req → Prop} (a : α) : Asks P (pure a : Code S ε σ α) := fun _ => trivial

theorem asks_throw {P : S.Req → Prop} (e : ε) : Asks P (throw e : Code S ε σ α) := fun _ => trivial

theorem asks_bind {P : S.Req → Prop} {c : Code S ε σ α} {f : α → Code S ε σ β} (hc : Asks P c)
    (hf : ∀ a, Asks P (f a)) : Asks P (c >>= f) := by
  intro s
  refine (hc s).bind ?_
  intro r
  split
  · exact hf _ _
  · trivial

theorem asks_when {P : S.Req → Prop} (b : Bool) {c : Code S ε σ Unit} (hc : Asks P c) :
    Asks P (when b c) := by
  cases b with
  | true => exact hc
  | false => exact asks_pure ()

theorem asks_tryCatch {P : S.Req → Prop} {c : Code S ε σ α} {h : ε → Code S ε σ α}
    (hc : Asks P c) (hh : ∀ e, Asks P (h e)) : Asks P (tryCatch c h) := by
  intro s
  refine (hc s).bind ?_
  intro r
  split
  · trivial
  · exact hh _ _

theorem asks_onError {P : S.Req → Prop} {c : Code S ε σ α} {cleanup : Code S ε σ Unit}
    (hc : Asks P c) (hcleanup : Asks P cleanup) : Asks P (onError c cleanup) :=
  asks_tryCatch hc fun e => asks_bind hcleanup fun _ => asks_throw e

theorem asks_cut {P : S.Req → Prop} : Asks P (cut : Code S ε σ α) := fun _ => trivial

theorem asks_modify {P : S.Req → Prop} (f : σ → σ) : Asks P (modify f : Code S ε σ Unit) :=
  fun _ => trivial

theorem asks_get {P : S.Req → Prop} : Asks P (get : Code S ε σ σ) := fun _ => trivial

theorem asks_set {P : S.Req → Prop} (s : σ) : Asks P (set s : Code S ε σ Unit) := fun _ => trivial

theorem asks_lift {P : S.Req → Prop} {p : Prog S (Except ε α)} (hp : p.Asks P) :
    Asks P (lift p : Code S ε σ α) := fun _ => hp.bind fun _ => trivial

-- ===================================================== weakest preconditions

/-- The weakest precondition of code: `Q` holds of the outcome, the state
and the world it ends in. -/
def wp (E : Env S W) (c : Code S ε σ α) (Q : Except ε α → σ → W → Prop)
    (s : σ) (w : W) : Prop :=
  E.wp (c s) (fun r w' => Q r.1 r.2 w') w

/-- A postcondition by outcome: one for a result, one for an exception. -/
def outcome (ok : α → σ → W → Prop) (error : ε → σ → W → Prop) :
    Except ε α → σ → W → Prop
  | .ok a => ok a
  | .error e => error e

@[simp] theorem outcome_ok (ok : α → σ → W → Prop) (error : ε → σ → W → Prop) (a : α) :
    outcome ok error (.ok a) = ok a := rfl

@[simp] theorem outcome_error (ok : α → σ → W → Prop) (error : ε → σ → W → Prop) (e : ε) :
    outcome ok error (.error e) = error e := rfl

variable {E : Env S W} {s : σ} {w : W}

@[simp] theorem wp_pure (a : α) (Q : Except ε α → σ → W → Prop) :
    wp E (pure a : Code S ε σ α) Q s w ↔ Q (.ok a) s w := Iff.rfl

/-- Sequencing: the second half runs only where the first returned. -/
@[simp] theorem wp_bind (c : Code S ε σ α) (f : α → Code S ε σ β)
    (Q : Except ε β → σ → W → Prop) :
    wp E (c >>= f) Q s w ↔
      wp E c (outcome (fun a => wp E (f a) Q) fun e => Q (.error e)) s w := by
  unfold wp
  rw [show (c >>= f) s = (c s).bind _ from rfl, Env.wp_bind]
  constructor <;> refine fun h => Env.wp_mono h ?_
  all_goals
    rintro ⟨r, s'⟩ w' h'
    cases r <;> exact h'

@[simp] theorem wp_throw (e : ε) (Q : Except ε α → σ → W → Prop) :
    wp E (throw e : Code S ε σ α) Q s w ↔ Q (.error e) s w := Iff.rfl

/-- Catching: the handler runs in the state the exception left. -/
@[simp] theorem wp_tryCatch (c : Code S ε σ α) (h : ε → Code S ε σ α)
    (Q : Except ε α → σ → W → Prop) :
    wp E (tryCatch c h) Q s w ↔
      wp E c (outcome (fun a => Q (.ok a)) fun e => wp E (h e) Q) s w := by
  unfold wp tryCatch
  rw [Env.wp_bind]
  constructor <;> refine fun h => Env.wp_mono h ?_
  all_goals
    rintro ⟨r, s'⟩ w' h'
    cases r <;> exact h'

@[simp] theorem wp_when (b : Bool) (c : Code S ε σ Unit) (Q : Except ε Unit → σ → W → Prop) :
    wp E (when b c) Q s w ↔
      (b = true → wp E c Q s w) ∧ (b = false → Q (.ok ()) s w) := by
  cases b <;> simp [when]

@[simp] theorem wp_onError (c : Code S ε σ α) (cleanup : Code S ε σ Unit)
    (Q : Except ε α → σ → W → Prop) :
    wp E (onError c cleanup) Q s w ↔
      wp E c
        (outcome (fun a => Q (.ok a)) fun e =>
          wp E cleanup (outcome (fun _ => Q (.error e)) fun e' => Q (.error e'))) s w := by
  have hthrow : ∀ e, wp E (cleanup >>= fun _ => (throw e : Code S ε σ α)) Q =
      wp E cleanup (outcome (fun _ => Q (.error e)) fun e' => Q (.error e')) := by
    intro e
    funext s w
    exact propext (wp_bind ..)
  unfold onError
  rw [wp_tryCatch]
  simp only [hthrow]

@[simp] theorem wp_get (Q : Except ε σ → σ → W → Prop) :
    wp E (get : Code S ε σ σ) Q s w ↔ Q (.ok s) s w := Iff.rfl

@[simp] theorem wp_set (s' : σ) (Q : Except ε Unit → σ → W → Prop) :
    wp E (set s' : Code S ε σ Unit) Q s w ↔ Q (.ok ()) s' w := Iff.rfl

@[simp] theorem wp_modify (f : σ → σ) (Q : Except ε Unit → σ → W → Prop) :
    wp E (modify f : Code S ε σ Unit) Q s w ↔ Q (.ok ()) (f s) w := Iff.rfl

@[simp] theorem wp_req (q : S.Req) (Q : Except ε (S.Ans q) → σ → W → Prop) :
    wp E (req q : Code S ε σ _) Q s w ↔
      E.ask q (fun ans w' => Q (.ok ans) s w') w := Iff.rfl

@[simp] theorem wp_lift (p : Prog S (Except ε α))
    (Q : Except ε α → σ → W → Prop) :
    wp E (lift p : Code S ε σ α) Q s w ↔ E.wp p (fun r w' => Q r s w') w := by
  unfold wp lift
  rw [Env.wp_bind]
  exact Iff.rfl

@[simp] theorem wp_ofExcept (r : Except ε α) (Q : Except ε α → σ → W → Prop) :
    wp E (ofExcept r : Code S ε σ α) Q s w ↔ Q r s w := Iff.rfl

@[simp] theorem wp_cut (Q : Except ε α → σ → W → Prop) :
    wp E (cut : Code S ε σ α) Q s w ↔ E.stop w := Iff.rfl

@[simp] theorem wp_attempt (c : Code S ε σ α)
    (Q : Except ε (Except ε α) → σ → W → Prop) :
    wp E (attempt c) Q s w ↔ wp E c (fun r s' w' => Q (.ok r) s' w') s w := by
  unfold wp attempt
  rw [Env.wp_bind]
  exact Iff.rfl

theorem wp_handle {T : Sig} {E : Env T W} (h : (q : S.Req) → Prog T (S.Ans q))
    (c : Code S ε σ α) (Q : Except ε α → σ → W → Prop) :
    wp E (c.handle h) Q s w ↔ wp (E.through h) c Q s w :=
  Env.wp_handle E h (c s) _ w

@[simp] theorem wp_zoom (view : σ → τ) (put : τ → σ → σ) (c : Code S ε τ α)
    (Q : Except ε α → σ → W → Prop) :
    wp E (zoom view put c) Q s w ↔
      wp E c (fun r t w' => Q r (put t s) w') (view s) w := by
  unfold wp zoom
  rw [Env.wp_bind]
  exact Iff.rfl

/-- Consequence. -/
theorem wp_mono {c : Code S ε σ α} {Q Q' : Except ε α → σ → W → Prop}
    (h : wp E c Q s w) (hQ : ∀ r s' w', Q r s' w' → Q' r s' w') :
    wp E c Q' s w :=
  Env.wp_mono h fun r w' => hQ r.1 r.2 w'

theorem wp_total_of_asks {R : Rel S W} {I : W → Prop} {P : S.Req → Prop} {c : Code S ε σ α}
    {Q : Except ε α → σ → W → Prop} (hc : Asks P c)
    (hquiet : ∀ q ans w', P q → R w q ans w' → w' = w) (hI : I w)
    (h : wp (.total R fun _ => True) c Q s w) : wp (.total R I) c Q s w :=
  Env.wp_total_of_asks (hc s) hquiet hI h

theorem wp_of_asks {R : Rel S W} {I : W → Prop} {P : S.Req → Prop} {c : Code S ε σ α}
    (hc : Asks P c) (hstep : ∀ w q ans w', P q → I w → R w q ans w' → I w') (hI : I w) :
    wp (.ofRel R fun _ => True) c (fun _ _ w' => I w') s w :=
  Env.wp_of_asks (hc s) hstep hI

theorem wp_quiet {R : Rel S W} {P : S.Req → Prop} {c : Code S ε σ α} (hc : Asks P c)
    (hquiet : ∀ q ans w', P q → R w q ans w' → w' = w) :
    wp (.ofRel R fun _ => True) c (fun _ _ w' => w' = w) s w :=
  Env.wp_quiet (hc s) hquiet

theorem wp_of_total {R : Rel S W} {I : W → Prop} {c : Code S ε σ α}
    {Q : Except ε α → σ → W → Prop} (h : wp (.total R I) c Q s w) :
    wp (.ofRel R I) c Q s w :=
  Env.wp_of_total h

/-- Code that keeps an invariant of its state and the world, whatever it
comes to. -/
def Keeps (E : Env S W) (I : σ → W → Prop) (c : Code S ε σ α) : Prop :=
  ∀ s w, I s w → wp E c (fun _ s' w' => I s' w') s w

section Keeps

variable {I : σ → W → Prop}

theorem keeps_pure (a : α) : Keeps E I (pure a : Code S ε σ α) := fun _ _ h => h

theorem keeps_throw (e : ε) : Keeps E I (throw e : Code S ε σ α) := fun _ _ h => h

theorem keeps_modify {f : σ → σ} (hf : ∀ s w, I s w → I (f s) w) :
    Keeps E I (modify f : Code S ε σ Unit) := hf

theorem Keeps.bind {c : Code S ε σ α} {f : α → Code S ε σ β} (hc : Keeps E I c)
    (hf : ∀ a, Keeps E I (f a)) : Keeps E I (c >>= f) := by
  intro s w h
  rw [wp_bind]
  refine wp_mono (hc s w h) ?_
  intro r s' w' h'
  cases r with
  | ok a => exact hf a s' w' h'
  | error e => exact h'

theorem Keeps.when (b : Bool) {c : Code S ε σ Unit} (hc : Keeps E I c) : Keeps E I (when b c) := by
  cases b with
  | true => exact hc
  | false => exact keeps_pure ()

theorem keeps_ofExcept (r : Except ε α) : Keeps E I (ofExcept r : Code S ε σ α) := fun _ _ h => h

theorem keeps_cut (hstop : ∀ w, E.stop w) : Keeps E I (cut : Code S ε σ α) :=
  fun _ w _ => hstop w

/-- Code that first looks at its state. -/
theorem Keeps.of_get {f : σ → Code S ε σ α} (hf : ∀ s w, I s w → Keeps E I (f s)) :
    Keeps E I (get >>= f) := by
  intro s w h
  rw [wp_bind]
  exact hf s w h s w h

theorem Keeps.tryCatch {c : Code S ε σ α} {h : ε → Code S ε σ α} (hc : Keeps E I c)
    (hh : ∀ e, Keeps E I (h e)) : Keeps E I (tryCatch c h) := by
  intro s w hI
  rw [wp_tryCatch]
  refine wp_mono (hc s w hI) ?_
  intro r s' w' h'
  cases r with
  | ok a => exact h'
  | error e => exact hh e s' w' h'

theorem Keeps.onError {c : Code S ε σ α} {cleanup : Code S ε σ Unit} (hc : Keeps E I c)
    (hcleanup : Keeps E I cleanup) : Keeps E I (onError c cleanup) :=
  hc.tryCatch fun e => hcleanup.bind fun _ => keeps_throw e

end Keeps

/-- What a weakest precondition promises, read off a completed run. -/
theorem wp_returns {R : Rel S W} {I : W → Prop} {c : Code S ε σ α}
    {Q : Except ε α → σ → W → Prop} {r : Except ε α} {s' : σ} {w' : W}
    (h : wp (.ofRel R I) c Q s w) (hr : Reaches R (c s) w (.ret (r, s')) w') :
    Q r s' w' :=
  Env.wp_reaches (P := fun r : Except ε α × σ => Q r.1 r.2) h hr

/-- What a weakest precondition promises of the world at every moment of
a run. -/
theorem wp_always {R : Rel S W} {I : W → Prop} {c : Code S ε σ α}
    {Q : Except ε α → σ → W → Prop} {p : Prog S (Except ε α × σ)} {w' : W}
    (h : wp (.ofRel R I) c Q s w) (hQ : ∀ r s' w', Q r s' w' → I w')
    (hr : Reaches R (c s) w p w') : I w' :=
  Env.wp_always (P := fun r : Except ε α × σ => Q r.1 r.2) h
    (fun r w'' => hQ r.1 r.2 w'') hr

end Code

end Interaction
