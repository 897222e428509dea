/-
Walks through a name space: from a place, by one name after another.

`step p s` is the place that the name `s` leads to from `p`, if it leads
anywhere. A walk is a fold of steps (`walk`).

# Paths are names of places

Where a step can be traced back, to the place it started from and the name
it took, and no walk comes back to the root, a place has at most one path
(`walk_injective`). What lies beneath a place is then exactly what its
path is a prefix of (`Beneath.at_path`), so a change confined to what lies
beneath a place leaves all other paths alone (`walk_of_agree`).
-/
import Mathlib.Data.List.Infix
import Mathlib.Data.List.Induction

namespace Naming

variable {ι ν : Type}

/-- Where a path leads. -/
def walk (step : ι → ν → Option ι) : ι → List ν → Option ι
  | p, [] => some p
  | p, s :: rest => (step p s).bind fun q => walk step q rest

variable {step step' : ι → ν → Option ι} {root : ι}

@[simp] theorem walk_nil (p : ι) : walk step p [] = some p := rfl

theorem walk_cons (p : ι) (s : ν) (rest : List ν) :
    walk step p (s :: rest) = (step p s).bind fun q => walk step q rest := rfl

theorem walk_append (p : ι) (a b : List ν) :
    walk step p (a ++ b) = (walk step p a).bind fun q => walk step q b := by
  induction a generalizing p with
  | nil => rfl
  | cons s rest ih =>
      rw [List.cons_append, walk_cons, walk_cons]
      cases step p s with
      | none => rfl
      | some q => exact ih q

theorem walk_concat (p : ι) (a : List ν) (s : ν) :
    walk step p (a ++ [s]) = (walk step p a).bind fun q => step q s := by
  rw [walk_append]
  congr 1
  funext q
  rw [walk_cons]
  cases step q s <;> rfl

/-- The last step of a walk. -/
theorem walk_concat_eq_some {p q : ι} {a : List ν} {s : ν} :
    walk step p (a ++ [s]) = some q ↔ ∃ r, walk step p a = some r ∧ step r s = some q := by
  rw [walk_concat, Option.bind_eq_some_iff]

/-- More steps, more walks. -/
theorem walk_mono (h : ∀ p s q, step p s = some q → step' p s = some q) {p q : ι} {a : List ν}
    (hw : walk step p a = some q) : walk step' p a = some q := by
  induction a generalizing p with
  | nil => exact hw
  | cons s rest ih =>
      rw [walk_cons, Option.bind_eq_some_iff] at hw ⊢
      obtain ⟨r, hr, hrest⟩ := hw
      exact ⟨r, h p s r hr, ih hrest⟩

/-- A step can be traced back. -/
structure Traceable (step : ι → ν → Option ι) (root : ι) : Prop where
  back : ∀ {p p' s s' q}, step p s = some q → step p' s' = some q → p = p' ∧ s = s'
  no_return : ∀ {a}, walk step root a = some root → a = []

/-- A place has one path at most. -/
theorem walk_injective (h : Traceable step root) {a b : List ν} {q : ι}
    (ha : walk step root a = some q) (hb : walk step root b = some q) : a = b := by
  induction a using List.reverseRecOn generalizing b q with
  | nil =>
      obtain rfl : root = q := by simpa using ha
      exact (h.no_return hb).symm
  | append_singleton a s ih =>
      obtain ⟨r, hr, hs⟩ := walk_concat_eq_some.mp ha
      obtain rfl | ⟨b, s', rfl⟩ := List.eq_nil_or_concat' b
      · obtain rfl : root = q := by simpa using hb
        exact h.no_return ha
      · obtain ⟨r', hr', hs'⟩ := walk_concat_eq_some.mp hb
        obtain ⟨rfl, rfl⟩ := h.back hs hs'
        rw [ih hr hr']

/-- What lies at or beneath a place, where `parent q p` says that `q` lies
in `p`. -/
inductive Beneath (parent : ι → ι → Prop) (x : ι) : ι → Prop
  | self : Beneath parent x x
  | inside {p q : ι} : Beneath parent x p → parent q p → Beneath parent x q

/-- A place that lies beneath `x` and that a walk leads to is beneath `x`'s
path. -/
theorem Beneath.at_path {parent : ι → ι → Prop} (h : Traceable step root)
    (hparent : ∀ {p s q r}, step p s = some q → parent q r → p = r) {x q : ι}
    (hroot : Beneath parent x root → x = root) {a b : List ν} (hq : Beneath parent x q)
    (ha : walk step root a = some x) (hb : walk step root b = some q) : a <+: b := by
  induction hq generalizing b with
  | self =>
      rw [walk_injective h ha hb]
  | @inside p q hx hp ih =>
      obtain rfl | ⟨b, s, rfl⟩ := List.eq_nil_or_concat' b
      · obtain rfl : root = q := by simpa using hb
        rw [hroot (hx.inside hp)] at ha
        rw [h.no_return ha]
      · obtain ⟨r, hr, hs⟩ := walk_concat_eq_some.mp hb
        obtain rfl := hparent hs hp
        exact (ih hr).trans (List.prefix_append _ _)

/-- Two name spaces that agree on the steps of a walk agree on the walk. -/
theorem walk_of_agree {a : List ν} {q : ι} (hw : walk step root a = some q)
    (h : ∀ b s p r, b ++ [s] <+: a → walk step root b = some p → step p s = some r →
      step' p s = some r) : walk step' root a = some q := by
  induction a using List.reverseRecOn generalizing q with
  | nil => exact hw
  | append_singleton a s ih =>
      obtain ⟨p, hp, hs⟩ := walk_concat_eq_some.mp hw
      refine walk_concat_eq_some.mpr ⟨p, ih hp ?_, h a s p q (List.prefix_refl _) hp hs⟩
      intro b s' p' r hb
      exact h b s' p' r (hb.trans (List.prefix_append _ _))

end Naming
