/-
Refinement between two levels of one design.

A program over one signature is run by handlers over another, against a
concrete party; the same program is run as it is, against an abstract one. A
relation between the two parties' states is kept (`Simulates`) where each
request that is handled is a request of the abstract party, sent as that
party expects it. A program that only sends what is expected (`Env.requiring`)
then has no other results at the concrete level than at the abstract one
(`Simulates.reaches`), and a history of such operations no other outcomes
(`Simulates.history`).
-/
import GDrive.Interaction.History

namespace Interaction

variable {S T : Sig} {ε σ α β Op V W : Type}

-- ================================================================ expectations

/-- The party of a relation that may only be sent what it expects in the
state it is in. -/
def Env.requiring (R : Rel S W) (expects : W → S.Req → Prop) : Env S W where
  ask q P w := expects w q ∧ ∀ ans w', R w q ans w' → P ans w'
  stop _ := True
  mono hP h := ⟨h.1, fun ans w' hr => hP ans w' (h.2 ans w' hr)⟩

@[simp] theorem Env.requiring_ask {R : Rel S W} {expects : W → S.Req → Prop} {q : S.Req}
    {P : S.Ans q → W → Prop} {w : W} :
    (Env.requiring R expects).ask q P w ↔ expects w q ∧ ∀ ans w', R w q ans w' → P ans w' :=
  Iff.rfl

/-- A completed run of a sequence is one of its first part and one of the
rest. -/
theorem Reaches.of_bind {R : Rel S W} {p : Prog S α} {f : α → Prog S β} {b : β} {w w' : W}
    (h : Reaches R (p.bind f) w (.ret b) w') :
    ∃ a w₁, Reaches R p w (.ret a) w₁ ∧ Reaches R (f a) w₁ (.ret b) w' := by
  induction p generalizing w with
  | ret a => exact ⟨a, w, .here _ _, h⟩
  | cut => cases h
  | ask q k ih =>
      cases h with
      | step hstep hrest =>
          obtain ⟨a, w₁, hfirst, hthen⟩ := ih _ hrest
          exact ⟨a, w₁, .step hstep hfirst, hthen⟩

-- ================================================================= simulations

/-- Each handled request is one of the abstract party's. -/
def Simulates (R : Rel T V) (h : (q : S.Req) → Prog T (S.Ans q)) (R' : Rel S W)
    (expects : W → S.Req → Prop) (seenAs : V → W → Prop) : Prop :=
  ∀ v w q ans v', seenAs v w → expects w q → Reaches R (h q) v (.ret ans) v' →
    ∃ w', R' w q ans w' ∧ seenAs v' w'

variable {R : Rel T V} {h : (q : S.Req) → Prog T (S.Ans q)} {R' : Rel S W}
  {expects : W → S.Req → Prop} {seenAs : V → W → Prop}

/-- A completed run of a handled program is one of the program. -/
theorem Simulates.reaches (hs : Simulates R h R' expects seenAs) {p : Prog S α}
    {Q : α → W → Prop} {a : α} {v v' : V} {w : W} (hsees : seenAs v w)
    (hp : (Env.requiring R' expects).wp p Q w) (hr : Reaches R (p.handle h) v (.ret a) v') :
    ∃ w', Reaches R' p w (.ret a) w' ∧ seenAs v' w' ∧ Q a w' := by
  induction p generalizing v w with
  | ret b =>
      cases hr
      exact ⟨w, .here _ _, hsees, hp⟩
  | cut => cases hr
  | ask q k ih =>
      obtain ⟨hexpects, hthen⟩ := hp
      obtain ⟨ans, v₁, hfirst, hrest⟩ := Reaches.of_bind hr
      obtain ⟨w₁, hanswer, hsees₁⟩ := hs v w q ans v₁ hsees hexpects hfirst
      obtain ⟨w', hrun, hsees', hQ⟩ := ih ans hsees₁ (hthen ans w₁ hanswer) hrest
      exact ⟨w', .step hanswer hrun, hsees', hQ⟩

/-- A history of handled operations is one of the operations, where each
keeps an invariant under which it only sends what is expected. -/
theorem Simulates.history (hs : Simulates R h R' expects seenAs)
    {body : Op → Code S ε σ β} {I : σ → W → Prop}
    (hbody : ∀ op s w, I s w →
      (body op).wp (Env.requiring R' expects) (fun _ s' w' => I s' w') s w)
    {s s' : σ} {v v' : V} {w : W} {l : List (Op × Except ε β)} (hsees : seenAs v w) (hI : I s w)
    (hr : History R (fun op => (body op).handle h) s v l s' v') :
    ∃ w', History R' body s w l s' w' ∧ seenAs v' w' ∧ I s' w' := by
  induction hr with
  | nil => exact ⟨w, .nil, hsees, hI⟩
  | snoc _ hlast ih =>
      obtain ⟨w₁, hbefore, hsees₁, hI₁⟩ := ih
      obtain ⟨w', hrun, hsees', hI'⟩ := hs.reaches hsees₁ (hbody _ _ _ hI₁) hlast
      exact ⟨w', .snoc hbefore hrun, hsees', hI'⟩

end Interaction
