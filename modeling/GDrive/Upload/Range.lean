/-
What a resumable session says it holds (gdrive_upload_plan.cpp): the
`Range` header of a 308, and the URI a session lives at.

`parseDriveRangeNext` is the reader of the header. Its specification is
one-sided on purpose: whatever it accepts, the number it returns is the
number of bytes the header states (`parseDriveRangeNext_rangeText`), so
a truthful session is never misread. A header it refuses only makes the
upload fail.
-/
import GDrive.Base.Str

namespace GDrive

-- ============================================================= digits

/-- The loop of `ParseDigits`: how many digits were read so far and their
value, then the rest of the header. -/
def parseDigitsFrom : Nat → Nat → Str → Option (Nat × Nat × Str)
  | n, v, c :: rest =>
      if isDigit c then
        if 19 ≤ n then none else parseDigitsFrom (n + 1) (v * 10 + (c.toNat - 48)) rest
      else some (n, v, c :: rest)
  | n, v, [] => some (n, v, [])

/-- Up to 19 decimal digits (always fits in 64 bits); more is refused. -/
def parseDigits (s : Str) : Option (Nat × Str) :=
  match parseDigitsFrom 0 0 s with
  | some (0, _, _) => none
  | some (_, v, rest) => some (v, rest)
  | none => none

/-- What `parseDigitsFrom` read: a run of digits up to the first byte
that is none, and their value. -/
theorem parseDigitsFrom_eq_some {s rest : Str} :
    ∀ {n v m u : Nat}, parseDigitsFrom n v s = some (m, u, rest) →
      ∃ ds, s = ds ++ rest ∧ (∀ c ∈ ds, isDigit c = true) ∧
        (∀ c, rest.head? = some c → isDigit c = false) ∧ u = digitsValue v ds := by
  induction s with
  | nil =>
      intro n v m u h
      obtain ⟨-, rfl, rfl⟩ : n = m ∧ v = u ∧ [] = rest := by
        simpa [parseDigitsFrom] using h
      exact ⟨[], rfl, by simp, by simp, rfl⟩
  | cons c s ih =>
      intro n v m u h
      rw [parseDigitsFrom] at h
      split at h
      · rename_i hc
        split at h
        · cases h
        · obtain ⟨ds, rfl, hds, hrest, hu⟩ := ih h
          refine ⟨c :: ds, rfl, ?_, hrest, hu⟩
          intro d hd
          rcases List.mem_cons.mp hd with rfl | hd
          · exact hc
          · exact hds d hd
      · rename_i hc
        obtain ⟨-, rfl, rfl⟩ : n = m ∧ v = u ∧ c :: s = rest := by simpa using h
        exact ⟨[], rfl, by simp, by simpa using hc, rfl⟩

/-- Where a run of digits ends is determined by the string. -/
theorem digits_append_unique {ds ds' rest rest' : Str}
    (h : ds ++ rest = ds' ++ rest') (hds : ∀ c ∈ ds, isDigit c = true)
    (hds' : ∀ c ∈ ds', isDigit c = true)
    (hr : ∀ c, rest.head? = some c → isDigit c = false)
    (hr' : ∀ c, rest'.head? = some c → isDigit c = false) : ds = ds' ∧ rest = rest' := by
  induction ds generalizing ds' with
  | nil =>
      cases ds' with
      | nil => exact ⟨rfl, h⟩
      | cons d ds' =>
          have hd := hds' d List.mem_cons_self
          rw [hr d (by rw [show rest = d :: (ds' ++ rest') from h]; rfl)] at hd
          cases hd
  | cons d ds ih =>
      cases ds' with
      | nil =>
          have hd := hds d List.mem_cons_self
          rw [hr' d (by rw [show rest' = d :: (ds ++ rest) from h.symm]; rfl)] at hd
          cases hd
      | cons d' ds' =>
          obtain ⟨rfl, htail⟩ := List.cons.inj h
          obtain ⟨rfl, rfl⟩ := ih htail (fun c hc => hds c (List.mem_cons_of_mem _ hc))
            fun c hc => hds' c (List.mem_cons_of_mem _ hc)
          exact ⟨rfl, rfl⟩

/-- On a number written by `decimal` and ended by a byte that is no
digit, `parseDigits` can only return that number. -/
theorem parseDigits_decimal {n v : Nat} {rest rest' : Str}
    (hr : ∀ c, rest.head? = some c → isDigit c = false)
    (h : parseDigits (decimal n ++ rest) = some (v, rest')) : v = n ∧ rest' = rest := by
  unfold parseDigits at h
  split at h
  · cases h
  · rename_i m u rest'' _ hp
    obtain ⟨rfl, rfl⟩ : u = v ∧ rest'' = rest' := by simpa using h
    obtain ⟨ds, hs, hds, hr', rfl⟩ := parseDigitsFrom_eq_some hp
    obtain ⟨rfl, rfl⟩ :=
      digits_append_unique hs (fun c hc => isDigit_of_mem_decimal hc) hds hr hr'
    exact ⟨digitsValue_decimal n, rfl⟩
  · cases h

-- ==================================================== the 308's header

/-- The next byte Drive expects, read off the `Range` header of a 308;
an absent header is the empty string. -/
def parseDriveRangeNext (rangeHeader : Str) : Option Nat :=
  if rangeHeader.isEmpty then some 0
  else if !(str "bytes=").isPrefixOf rangeHeader then none
  else
    match parseDigits (rangeHeader.drop (str "bytes=").length) with
    | some (first, 45 :: rest) => -- '-'
        match parseDigits rest with
        | some (last, []) =>
            if last < first then none
            -- A session holds a prefix of the upload; anything else is not
            -- a reply we understand. And last + 1 must not wrap.
            else if first ≠ 0 ∨ last = 2 ^ 64 - 1 then none
            else some (last + 1)
        | _ => none
    | _ => none

/-- The header with which a session that holds `n` bytes says so. -/
def rangeText (n : Nat) : Str :=
  if n = 0 then [] else str "bytes=" ++ decimal 0 ++ 45 :: decimal (n - 1)

/-- After its `bytes=` the header is two numbers and a dash. -/
theorem parseDriveRangeNext_bytes (t : Str) :
    parseDriveRangeNext (str "bytes=" ++ t) =
      match parseDigits t with
      | some (first, 45 :: rest) =>
          match parseDigits rest with
          | some (last, []) =>
              if last < first then none
              else if first ≠ 0 ∨ last = 2 ^ 64 - 1 then none
              else some (last + 1)
          | _ => none
      | _ => none := by
  have hne : (str "bytes=" ++ t).isEmpty = false := rfl
  have hpre : (str "bytes=").isPrefixOf (str "bytes=" ++ t) = true :=
    List.isPrefixOf_iff_prefix.mpr (List.prefix_append _ _)
  rw [parseDriveRangeNext, hne, hpre, List.drop_left]
  rfl

/-- A truthful header is never misread. -/
theorem parseDriveRangeNext_rangeText {n next : Nat}
    (h : parseDriveRangeNext (rangeText n) = some next) : next = n := by
  unfold rangeText at h
  by_cases hn : n = 0
  · rw [if_pos hn] at h
    cases h
    exact hn.symm
  · rw [if_neg hn, List.append_assoc, parseDriveRangeNext_bytes] at h
    split at h
    · rename_i first rest hp
      obtain ⟨rfl, hrest⟩ := parseDigits_decimal (by simp [isDigit]) hp
      obtain rfl : rest = decimal (n - 1) := by simpa using hrest
      split at h
      · rename_i last hp'
        rw [← List.append_nil (decimal (n - 1))] at hp'
        obtain ⟨rfl, -⟩ := parseDigits_decimal (by simp) hp'
        split at h
        · cases h
        · split at h
          · cases h
          · have := Option.some.inj h
            omega
      · cases h
    · cases h

example : parseDriveRangeNext (str "bytes=0-262143") = some 262144 := by decide

-- ==================================================== the session's URI

/-- A resumable session URI is a credential for the upload, so it is only
ever followed over https to the Drive host: the part after the origin,
or nothing. -/
def driveSessionPath (sessionUri : Str) : Option Str :=
  let origin := str "https://www.googleapis.com/"
  if sessionUri.length ≤ origin.length ∨ !origin.isPrefixOf sessionUri then none
  else some (sessionUri.drop (origin.length - 1))

/-- A URI that is followed is not empty. -/
theorem ne_nil_of_driveSessionPath {uri path : Str}
    (h : driveSessionPath uri = some path) : uri ≠ [] := by
  rintro rfl
  simp [driveSessionPath] at h

end GDrive
