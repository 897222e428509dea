/-
Resolving paths to contexts, walked through with what the process keeps true.

A context that `getAuthContext` returns is that of a secret found for the path
(`GDriveAuthContext.ResolvedFrom`): its source's slot is one of this secret's
own, and its mint function one for this slot. With this every thread of the
process does its part (`auth_proved`).
-/
import GDrive.Auth.Custody

namespace GDrive

open Interaction

section Resolution

variable {pj : Picojson} {expiresIn : Str → Int} {sign : Str → Str → Str}
  {sha256 : Str → Option Str} {w w' : AuthWorld} {t : Nat}

-- ============================================================ separable slots

section Plain

variable {kv : KeyValueSecret}

theorem PlainValue.getD {value : Option Str} (h : PlainValue value) : 31 ∉ value.getD [] := by
  cases value with
  | none => simp
  | some s => exact h s rfl

end Plain

-- =================================================================== contexts

/-- A source that was built for a secret. -/
def GDriveTokenSource.BuiltFor (pj : Picojson) (tokens : GDriveTokenSource) (kv : KeyValueSecret)
    (w : AuthWorld) : Prop :=
  match tokens with
  | .static token => kv.provider = str "config" ∧ token = kv.getOrEmpty (str "access_token")
  | .cached src => kv.Slots w src.slot ∧ src.Sound pj w

theorem GDriveTokenSource.BuiltFor.mono {tokens : GDriveTokenSource} {kv : KeyValueSecret}
    (h : tokens.BuiltFor pj kv w) (hw : w.Grows w') : tokens.BuiltFor pj kv w' := by
  cases tokens with
  | static token => exact h
  | cached src => exact ⟨h.1.mono hw, h.2.mono hw⟩

/-- A context is a secret's. -/
structure GDriveAuthContext.Built (pj : Picojson) (kv : KeyValueSecret) (ctx : GDriveAuthContext)
    (w : AuthWorld) : Prop where
  secretName : ctx.secretName = kv.name
  tokens : ctx.tokens.BuiltFor pj kv w

/-- A context is that of a secret that was found for a path, and identified by
this secret's values. -/
def GDriveAuthContext.ResolvedFrom (pj : Picojson) (sha256 : Str → Option Str) (path : Str)
    (ctx : GDriveAuthContext) (w : AuthWorld) : Prop :=
  ∃ kv source address, (path, kv) ∈ w.lookups ∧ ctx.Built pj kv w ∧
    ctx.identity = (kv.secret source).identity sha256 address

/-- What a context's source hands out: nothing, the token that was pasted, or
one that its slot can have. -/
def GDriveTokenSource.HandsOut (pj : Picojson) (expiresIn : Str → Int) (sign : Str → Str → Str)
    (tokens : GDriveTokenSource) (r : Except Exn Str) (w : AuthWorld) : Prop :=
  match tokens with
  | .static pasted => ∀ token, r = .ok token → token = [] ∨ token = pasted
  | .cached src => src.HandsOut pj expiresIn sign r w

variable {kv : KeyValueSecret}

theorem GDriveAuthContext.ResolvedFrom.mono {path : Str} {ctx : GDriveAuthContext}
    (h : ctx.ResolvedFrom pj sha256 path w) (hw : w.Grows w') :
    ctx.ResolvedFrom pj sha256 path w' := by
  obtain ⟨kv, source, address, hfound, ⟨hname, htokens⟩, hidentity⟩ := h
  exact ⟨kv, source, address, hw.lookups _ hfound, ⟨hname, htokens.mono hw⟩, hidentity⟩

/-- What is resolved has a source that was built for some secret. -/
theorem GDriveAuthContext.ResolvedFrom.tokens {path : Str} {ctx : GDriveAuthContext}
    (h : ctx.ResolvedFrom pj sha256 path w) : ∃ kv, ctx.tokens.BuiltFor pj kv w := by
  obtain ⟨kv, -, -, -, hbuilt, -⟩ := h
  exact ⟨kv, hbuilt.tokens⟩

/-- What a result says, and goes on saying. -/
def AuthOutcome.Says (pj : Picojson) (expiresIn : Str → Int) (sign : Str → Str → Str)
    (sha256 : Str → Option Str) (w : AuthWorld) : AuthOutcome → Prop
  | .resolved path r => ∀ ctx, r = .ok ctx → ctx.ResolvedFrom pj sha256 path w
  | .token path ctx r =>
      ctx.ResolvedFrom pj sha256 path w ∧ ctx.tokens.HandsOut pj expiresIn sign r w

theorem AuthOutcome.Says.mono {outcome : AuthOutcome}
    (h : outcome.Says pj expiresIn sign sha256 w) (hw : w.Grows w') :
    outcome.Says pj expiresIn sign sha256 w' := by
  cases outcome with
  | resolved path r => exact fun ctx heq => (h ctx heq).mono hw
  | token path ctx r =>
      refine ⟨h.1.mono hw, ?_⟩
      have hhands := h.2
      unfold GDriveTokenSource.HandsOut at hhands ⊢
      cases htokens : ctx.tokens with
      | static pasted =>
          rw [htokens] at hhands
          exact hhands
      | cached src =>
          rw [htokens] at hhands
          exact CachedTokenSource.HandsOut.mono hhands hw

end Resolution

end GDrive
