/-
Code whose requests are critical sections.

Several threads can run code together only where it says at which moments it
touches what they share. So such code keeps no state: it makes requests, each
of which is one critical section, and a thread may wait between any two.
`interpret` is what becomes of it when one thread runs it alone: its requests
are answered by code over the state.

Code that neither reads nor writes its state (`Idle`) is a program, and can be
put in between as its requests.
-/
import GDrive.Interaction.Code

namespace Interaction

variable {S T : Sig} {ε σ α β : Type}

namespace Code

-- ================================================================= interpreting

section Interpret

variable (h : (q : T.Req) → Code S ε σ (T.Ans q))

/-- A program, its requests answered by code: each in the state that the last
one left. -/
def runProg : Prog T α → Code S ε σ α
  | .ret a => pure a
  | .ask q k => h q >>= fun ans => runProg (k ans)
  | .cut => cut

theorem runProg_bind (p : Prog T α) (f : α → Prog T β) :
    runProg h (p.bind f) = runProg h p >>= fun a => runProg h (f a) := by
  induction p with
  | ret a => exact (pure_bind a fun a => runProg h (f a)).symm
  | cut => rfl
  | ask q k ih =>
      show (h q >>= fun ans => runProg h ((k ans).bind f)) = _
      rw [runProg, bind_assoc]
      exact congrArg (h q >>= ·) (funext ih)

/-- Stateless code, its requests answered by code over a state. -/
def interpret (c : Code T ε Unit α) : Code S ε σ α := runProg h (c ()) >>= fun r => ofExcept r.1

theorem interpret_pure (a : α) : interpret h (pure a) = pure a := rfl

theorem interpret_throw (e : ε) : interpret h (throw e : Code T ε Unit α) = throw e := rfl

theorem interpret_cut : interpret h (cut : Code T ε Unit α) = cut := rfl

theorem interpret_req (q : T.Req) : interpret h (req q) = h q := by
  show ((h q >>= fun ans => pure (.ok ans, ())) >>= fun r => ofExcept r.1) = h q
  rw [bind_assoc]
  exact bind_pure (h q)

theorem interpret_bind (c : Code T ε Unit α) (f : α → Code T ε Unit β) :
    interpret h (c >>= f) = interpret h c >>= fun a => interpret h (f a) := by
  unfold interpret
  show (runProg h ((c ()).bind _) >>= _) = _
  rw [runProg_bind, bind_assoc, bind_assoc]
  refine congrArg (runProg h (c ()) >>= ·) (funext ?_)
  intro r
  obtain ⟨r, u⟩ := r
  cases r with
  | ok a => rfl
  | error e => rfl

/-- Sequencing, both parts known. -/
theorem interpret_seq {c : Code T ε Unit α} {f : α → Code T ε Unit β} {c' : Code S ε σ α}
    {f' : α → Code S ε σ β} (hc : interpret h c = c') (hf : ∀ a, interpret h (f a) = f' a) :
    interpret h (c >>= f) = c' >>= f' := by
  rw [interpret_bind, hc]
  exact congrArg (c' >>= ·) (funext hf)

theorem interpret_when (b : Bool) (c : Code T ε Unit Unit) :
    interpret h (when b c) = when b (interpret h c) := by
  cases b with
  | true => rfl
  | false => rfl

end Interpret

-- ========================================================================= idle

/-- Code that leaves its state alone: a program. -/
def Idle (c : Code S ε σ α) : Prop := ∃ p : Prog S (Except ε α), c = lift p

theorem idle_pure (a : α) : Idle (pure a : Code S ε σ α) := ⟨.ret (.ok a), rfl⟩

theorem idle_throw (e : ε) : Idle (throw e : Code S ε σ α) := ⟨.ret (.error e), rfl⟩

theorem idle_cut : Idle (cut : Code S ε σ α) := ⟨.cut, rfl⟩

theorem idle_lift (p : Prog S (Except ε α)) : Idle (lift p : Code S ε σ α) := ⟨p, rfl⟩

/-- Go on with a result; an exception is the end. -/
def onResult (g : α → Prog S (Except ε β)) : Except ε α → Prog S (Except ε β)
  | .ok a => g a
  | .error e => .ret (.error e)

theorem idle_bind {c : Code S ε σ α} {f : α → Code S ε σ β} (hc : Idle c) (hf : ∀ a, Idle (f a)) :
    Idle (c >>= f) := by
  obtain ⟨p, rfl⟩ := hc
  obtain ⟨g, hg⟩ := Classical.axiomOfChoice hf
  refine ⟨p.bind (onResult g), ?_⟩
  funext s
  show ((p.bind _).bind _) = (p.bind _).bind _
  rw [Prog.bind_assoc, Prog.bind_assoc]
  congr 1
  funext r
  cases r with
  | ok a =>
      show f a s = _
      rw [hg a]
      rfl
  | error e => rfl

theorem idle_when (b : Bool) {c : Code S ε σ Unit} (hc : Idle c) : Idle (when b c) := by
  cases b with
  | true => exact hc
  | false => exact idle_pure ()

/-- What code comes to in a state, without the state it leaves. -/
def outcomes (c : Code S ε σ α) (s : σ) : Prog S (Except ε α) := (c s).bind fun r => .ret r.1

theorem Idle.eq_lift {c : Code S ε σ α} (h : Idle c) (s : σ) : c = lift (c.outcomes s) := by
  obtain ⟨p, rfl⟩ := h
  have hprog : (lift p : Code S ε σ α).outcomes s = p := by
    unfold outcomes lift
    rw [Prog.bind_assoc]
    exact Prog.bind_ret p
  rw [hprog]

/-- An idle piece of code between critical sections: its requests are sent on
as `send` has them. Run alone, it is what it was. -/
theorem interpret_idle {c : Code S ε σ α} (hidle : Idle c) (s : σ)
    (h : (q : T.Req) → Code S ε σ (T.Ans q)) (send : (q : S.Req) → Prog T (S.Ans q))
    (hsend : ∀ q, runProg h (send q) = req q) :
    interpret h (lift ((c.outcomes s).handle send)) = c := by
  have hprog : ∀ p : Prog S (Except ε α),
      interpret h (lift (p.handle send)) = lift p := by
    intro p
    unfold interpret lift
    rw [runProg_bind, bind_assoc]
    induction p with
    | ret r => rfl
    | cut => rfl
    | ask q k ih =>
        show (runProg h ((send q).bind fun ans => (k ans).handle send) >>= _) = _
        rw [runProg_bind, bind_assoc, hsend q]
        funext s'
        show (Prog.ask q _) = Prog.ask q _
        congr 1
        funext ans
        exact congrFun (ih ans) s'
  rw [hprog]
  exact (hidle.eq_lift s).symm

end Code

end Interaction
