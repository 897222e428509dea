/-
Token sources under load: many calls rejected with one token, and calls while
a failed mint is remembered.

# One mint

A call that has found the rejected token still cached, under the mint lock, is
the first; until it releases the lock no other call looks at the cache, and
then the new token is there. `StormInv` says of each call how far the mint is.

# The back-off

`BackoffInv` begins with a mint that has thrown, or a failure that is
remembered; it ends when the clock reaches the end of the window.
-/
import GDrive.Auth.TokenThreads

namespace GDrive

open Interaction

/-- The cached token. -/
def TokenEntry.Caches {ε : Type} (e : TokenEntry ε) (token : Str) : Prop :=
  ∃ t, e.cached = some t ∧ t.accessToken = token

/-- One mint has been started since. -/
def TokenEntry.OneMore {ε : Type} (e : TokenEntry ε) (old : List Int) : Prop :=
  ∃ time, e.mints = time :: old

/-- How many events a call takes at most before it has returned. -/
def TokenPc.left {ε : Type} : TokenPc ε → Nat
  | .tryFresh => 10
  | .waiting => 9
  | .locked => 8
  | .mintAndStore => 7
  | .toMint => 6
  | .minting => 5
  | .minted _ => 4
  | .storing _ | .failed _ => 3
  | .releasing _ => 2
  | .handOut => 1
  | .returned _ => 0

/-- The mint has started and its token is not stored yet. -/
def TokenPc.underWay {ε : Type} : TokenPc ε → Bool
  | .minting | .minted _ | .storing _ => true
  | _ => false

namespace TokenThreads

variable {ε : Type} {sources : Str → TokenSource} {s₀ s s' : TokenThreads ε} {k token new : Str}
  {old : List Int}

/-- Nothing is under way for the key. -/
def Idle (s : TokenThreads ε) (k : Str) : Prop :=
  ∀ {c call}, s.calls c = some call → call.key = k → ∃ r, call.pc = .returned r

/-- The key a call is for. -/
def keyOf (s : TokenThreads ε) (c : Nat) : Option Str := (s.calls c).map (·.key)

/-- All calls for the key are rejected with `token`; its next mint succeeds with
`new`. -/
def StormEvent (k token new : Str) (old : List Int) (s : TokenThreads ε) : TokenEvent ε → Prop
  | .call _ key request => key = k → request = .refresh token
  | .mintReturns c t =>
      s.keyOf c = some k → (s.entries k).mints.length = old.length + 1 → t.accessToken = new
  | .mintThrows c _ => s.keyOf c = some k → (s.entries k).mints.length ≠ old.length + 1
  | _ => True

instance (k token new : Str) (old : List Int) (s : TokenThreads ε) :
    DecidablePred (StormEvent k token new old s)
  | .call _ key request => inferInstanceAs (Decidable (key = k → request = .refresh token))
  | .mintReturns c t =>
      inferInstanceAs (Decidable (s.keyOf c = some k →
        (s.entries k).mints.length = old.length + 1 → t.accessToken = new))
  | .mintThrows c _ =>
      inferInstanceAs (Decidable (s.keyOf c = some k →
        (s.entries k).mints.length ≠ old.length + 1))
  | .tick _ | .construct _ _ | .proceed _ => inferInstanceAs (Decidable True)

/-- And wherever the new token is cached, it is fresh. -/
def Storm (sources : Str → TokenSource) (k token new : Str) (old : List Int)
    (s : TokenThreads ε) (event : TokenEvent ε) (s' : TokenThreads ε) : Prop :=
  StormEvent k token new old s event ∧
    ∀ t ∈ (s'.entries k).cached, t.accessToken = new →
      tokenIsFresh t s'.now (sources k).maxAge = true

instance (sources : Str → TokenSource) (k token new : Str) (old : List Int) (s : TokenThreads ε)
    (event : TokenEvent ε) (s' : TokenThreads ε) :
    Decidable (Storm sources k token new old s event s') :=
  inferInstanceAs (Decidable (_ ∧ _))

/-- One mint at most, and exactly one once a call has returned; every call
returns what it gave; and as long as a call has not returned, the mint runs or
a call can go on, towards its end. -/
structure StormSafe (sources : Str → TokenSource) (k new : Str) (s₀ s : TokenThreads ε) :
    Prop where
  once : (s.entries k).mints = (s₀.entries k).mints ∨
    (s.entries k).OneMore (s₀.entries k).mints
  returned : ∀ {c call r}, s₀.calls c = none → s.calls c = some call → call.key = k →
    call.pc = .returned r → r = .ok new ∧ (s.entries k).OneMore (s₀.entries k).mints
  live : ∀ {c call}, s.calls c = some call → call.key = k → (∀ r, call.pc ≠ .returned r) →
    ∃ c' call', s.calls c' = some call' ∧ call'.key = k ∧
      (call'.pc = .minting ∨ ∃ s' pc', s.step sources (.proceed c') = some s' ∧
        s'.calls c' = some { call' with pc := pc' } ∧ pc'.left < call'.pc.left)

-- ==================================================================== the storm

/-- What a call rejected with `token` knows. -/
def StormPc (token new : Str) (old : List Int) (e : TokenEntry ε) : TokenPc ε → Prop
  | .tryFresh | .handOut | .failed _ => False
  | .waiting | .locked => True
  | .mintAndStore | .toMint => e.Caches token ∧ e.mints = old
  | .minting => e.Caches token ∧ e.OneMore old
  | .minted t | .storing t => t.accessToken = new ∧ e.Caches token ∧ e.OneMore old
  | .releasing r | .returned r => r = .ok new ∧ e.Caches new ∧ e.OneMore old

theorem StormPc.same {e e' : TokenEntry ε} {pc : TokenPc ε} (h : StormPc token new old e pc)
    (hcached : e'.cached = e.cached) (hmints : e'.mints = e.mints) :
    StormPc token new old e' pc := by
  unfold StormPc TokenEntry.Caches TokenEntry.OneMore at h ⊢
  rw [hcached, hmints]
  exact h

theorem locks_of_inMint {pc : TokenPc ε} (h : pc.inMint = true) : pc.locks = true := by
  cases pc with
  | toMint | minting | minted | storing | failed => rfl
  | _ => cases h

/-- Until it is replaced, the rejected token stays in the cache. -/
theorem StormPc.caches_of_inMint {e : TokenEntry ε} {pc : TokenPc ε}
    (h : StormPc token new old e pc) (hin : pc.inMint = true) : e.Caches token := by
  cases pc with
  | toMint | minting => exact h.1
  | minted | storing => exact h.2.1
  | failed => exact h.elim
  | _ => cases hin

/-- How far the one mint is, and what each call knows of it. -/
structure StormInv (sources : Str → TokenSource) (k token new : Str) (old : List Int)
    (s₀ s : TokenThreads ε) : Prop where
  failure : (s.entries k).failure = none
  entry : ((s.entries k).Caches token ∧ (s.entries k).mints = old) ∨
    ((s.entries k).Caches token ∧ (s.entries k).OneMore old ∧
      ∃ c call, s.calls c = some call ∧ call.key = k ∧ call.pc.underWay = true) ∨
    ((s.entries k).Caches new ∧ (s.entries k).OneMore old)
  fresh : ∀ t ∈ (s.entries k).cached, t.accessToken = new →
    tokenIsFresh t s.now (sources k).maxAge = true
  calls : ∀ {c call}, s.calls c = some call → call.key = k →
    (s₀.calls c ≠ none ∧ ∃ r, call.pc = .returned r) ∨
      (call.request = .refresh token ∧ StormPc token new old (s.entries k) call.pc)

/-- The rejected token is the cached one: it is minted anew. -/
theorem underLock_same {e : TokenEntry ε} {src : TokenSource} {now : Int} {t : CachedTokenState}
    (ht : e.cached = some t) (htoken : t.accessToken = token) (hmint : src.canMint = true) :
    e.underLock src now (.refresh token) = .mintAndStore := by
  have hmust : e.rejection src now token = .mint := by
    unfold TokenEntry.rejection decideAfterRejection
    rw [ht, if_neg, if_pos hmint]
    rw [Option.getD_some, decide_eq_false (not_not.mpr htoken), Bool.and_false, Bool.false_and]
    exact Bool.false_ne_true
  simp only [TokenEntry.underLock, hmust]

/-- Another one is cached, and fresh: that one is used. -/
theorem underLock_other {e : TokenEntry ε} {src : TokenSource} {now : Int} {t : CachedTokenState}
    (ht : e.cached = some t) (hother : t.accessToken ≠ token)
    (hfresh : tokenIsFresh t now src.maxAge = true) :
    e.underLock src now (.refresh token) = .releasing (.ok t.accessToken) := by
  have huse : e.rejection src now token = .reuseCached := by
    unfold TokenEntry.rejection decideAfterRejection
    rw [ht, if_pos]
    rw [Option.getD_some, decide_eq_true hother, hfresh]
    rfl
  simp only [TokenEntry.underLock, huse, ht, Option.elim_some]

/-- One section of a call of the storm. A call that has just taken the lock
finds no mint under way. -/
theorem stormPc_advance {e : TokenEntry ε} {src : TokenSource} {now : Int} {c : Nat}
    {pc : TokenPc ε} {next : TokenEntry ε × TokenPc ε} (hne : token ≠ new)
    (hmint : src.canMint = true) (h : StormPc token new old e pc) (hfailure : e.failure = none)
    (hfresh : ∀ t ∈ e.cached, t.accessToken = new → tokenIsFresh t now src.maxAge = true)
    (hlocked : pc = .locked → (e.Caches token ∧ e.mints = old) ∨ (e.Caches new ∧ e.OneMore old))
    (hnext : e.advance src now c (.refresh token) pc = some next) :
    StormPc token new old next.1 next.2 ∧ next.1.failure = none := by
  cases pc with
  | tryFresh => exact h.elim
  | handOut => exact h.elim
  | failed error => exact h.elim
  | waiting =>
      simp only [TokenEntry.advance] at hnext
      split at hnext
      · cases hnext
        exact ⟨trivial, hfailure⟩
      · cases hnext
  | locked =>
      cases hnext
      refine ⟨?_, hfailure⟩
      show StormPc token new old e (e.underLock src now (.refresh token))
      rcases hlocked rfl with ⟨⟨t, ht, htoken⟩, hold⟩ | ⟨⟨t, ht, hnew⟩, hmore⟩
      · -- The first call: the rejected token is still cached.
        rw [underLock_same ht htoken hmint]
        exact ⟨⟨t, ht, htoken⟩, hold⟩
      · -- The others: the new one is.
        have hother : t.accessToken ≠ token := by
          rw [hnew]
          exact hne.symm
        rw [underLock_other ht hother (hfresh t ht hnew)]
        exact ⟨congrArg _ hnew, ⟨t, ht, hnew⟩, hmore⟩
  | mintAndStore =>
      simp only [TokenEntry.advance, hfailure] at hnext
      cases hnext
      exact ⟨h, hfailure⟩
  | toMint =>
      cases hnext
      exact ⟨⟨h.1, now, congrArg _ h.2⟩, hfailure⟩
  | minting => cases hnext
  | minted t =>
      cases hnext
      exact ⟨h, hfailure⟩
  | storing t =>
      cases hnext
      exact ⟨⟨congrArg _ h.1, ⟨t, rfl, h.1⟩, h.2.2⟩, hfailure⟩
  | releasing r =>
      cases hnext
      exact ⟨h, hfailure⟩
  | returned r => cases hnext

/-- The entry's token and mints change only in a mint. -/
theorem same_advance {e : TokenEntry ε} {src : TokenSource} {now : Int} {c : Nat}
    {request : TokenRequest} {pc : TokenPc ε} {next : TokenEntry ε × TokenPc ε}
    (hnext : e.advance src now c request pc = some next) :
    (next.1.cached = e.cached ∧ next.1.mints = e.mints) ∨ pc.inMint = true := by
  cases pc with
  | toMint | minting | minted | storing | failed => exact .inr rfl
  | tryFresh | waiting =>
      simp only [TokenEntry.advance] at hnext
      split at hnext <;> cases hnext <;> exact .inl ⟨rfl, rfl⟩
  | mintAndStore =>
      simp only [TokenEntry.advance] at hnext
      split at hnext
      · split at hnext <;> cases hnext <;> exact .inl ⟨rfl, rfl⟩
      · cases hnext
        exact .inl ⟨rfl, rfl⟩
  | handOut | locked | releasing =>
      cases hnext
      exact .inl ⟨rfl, rfl⟩
  | returned => cases hnext

/-- What does not concern the key, and a new call for it. -/
theorem StormInv.frame (h : StormInv sources k token new old s₀ s)
    (hentry : s'.entries k = s.entries k)
    (hkept : ∀ {c call}, s.calls c = some call → call.key = k → s'.calls c = some call)
    (hcalls : ∀ {c call}, s'.calls c = some call → call.key = k →
      s.calls c = some call ∨ (call.request = .refresh token ∧ call.pc = .waiting))
    (hfresh : ∀ t ∈ (s'.entries k).cached, t.accessToken = new →
      tokenIsFresh t s'.now (sources k).maxAge = true) :
    StormInv sources k token new old s₀ s' := by
  refine ⟨?_, ?_, hfresh, ?_⟩
  · rw [hentry]
    exact h.failure
  · rw [hentry]
    rcases h.entry with hbefore | ⟨htoken, hmore, c, call, hcall, hkey, hunder⟩ | hafter
    · exact .inl hbefore
    · exact .inr (.inl ⟨htoken, hmore, c, call, hkept hcall hkey, hkey, hunder⟩)
    · exact .inr (.inr hafter)
  · intro c call hcall hkey
    rw [hentry]
    rcases hcalls hcall hkey with hcall | ⟨hrequest, hpc⟩
    · exact h.calls hcall hkey
    · right
      rw [hpc]
      exact ⟨hrequest, trivial⟩

/-- One event of a call for the key. -/
theorem StormInv.put (h : StormInv sources k token new old s₀ s) (hinv : TokenInv s)
    (hne : token ≠ new) {c : Nat} {call : TokenCall ε} {next : TokenEntry ε × TokenPc ε}
    (hcall : s.calls c = some call) (hkey : call.key = k)
    (hrequest : call.request = .refresh token) (hpc : StormPc token new old (s.entries k) call.pc)
    (hnext : StormPc token new old next.1 next.2) (hfailure : next.1.failure = none)
    (hlock : LockStep c (s.entries call.key) next.1 call.pc next.2)
    (hsame : (next.1.cached = (s.entries k).cached ∧ next.1.mints = (s.entries k).mints) ∨
      call.pc.inMint = true)
    (hquiet : next.2 = .waiting ∨ next.2 = .locked → call.pc = .waiting)
    (hfresh : ∀ t ∈ ((s.put c call next).entries k).cached, t.accessToken = new →
      tokenIsFresh t s.now (sources k).maxAge = true) :
    StormInv sources k token new old s₀ (s.put c call next) := by
  subst hkey
  refine ⟨?_, ?_, hfresh, ?_⟩
  · rw [put_entry]
    exact hfailure
  · rw [put_entry]
    have hunder : next.2.underWay = true →
        ∃ c' call', (s.put c call next).calls c' = some call' ∧ call'.key = call.key ∧
          call'.pc.underWay = true :=
      fun hunder => ⟨c, _, put_call, rfl, hunder⟩
    have hbefore : next.2 = .waiting ∨ next.2 = .locked →
        (next.1.Caches token ∧ next.1.mints = old) ∨
          (next.1.Caches token ∧ next.1.OneMore old ∧
            ∃ c' call', (s.put c call next).calls c' = some call' ∧ call'.key = call.key ∧
              call'.pc.underWay = true) ∨
          (next.1.Caches new ∧ next.1.OneMore old) := by
      -- The lock is taken: all is as it was.
      intro hidle
      have hwaiting := hquiet hidle
      rw [hwaiting] at hsame
      obtain ⟨hcached, hmints⟩ := hsame.resolve_right Bool.false_ne_true
      have hentry := h.entry
      unfold TokenEntry.Caches TokenEntry.OneMore at hentry ⊢
      rw [hcached, hmints]
      rcases hentry with hentry | ⟨htoken, hmore, c', call', hcall', hkey', hunder'⟩ | hentry
      · exact .inl hentry
      · have hc : c' ≠ c := by
          intro hc
          rw [hc, hcall] at hcall'
          cases hcall'
          rw [hwaiting] at hunder'
          cases hunder'
        exact .inr (.inl ⟨htoken, hmore, c', call', (put_call_of_ne hc).trans hcall', hkey',
          hunder'⟩)
      · exact .inr (.inr hentry)
    match hpc' : next.2 with
    | .tryFresh | .handOut | .failed _ =>
        rw [hpc'] at hnext
        exact hnext.elim
    | .waiting => exact hbefore (.inl hpc')
    | .locked => exact hbefore (.inr hpc')
    | .mintAndStore | .toMint =>
        rw [hpc'] at hnext
        exact .inl hnext
    | .minting =>
        rw [hpc'] at hnext
        exact .inr (.inl ⟨hnext.1, hnext.2, hunder (by rw [hpc']; rfl)⟩)
    | .minted t | .storing t =>
        rw [hpc'] at hnext
        exact .inr (.inl ⟨hnext.2.1, hnext.2.2, hunder (by rw [hpc']; rfl)⟩)
    | .releasing r | .returned r =>
        rw [hpc'] at hnext
        exact .inr (.inr hnext.2)
  · intro c' call' hcall' hkey'
    rw [put_entry]
    rcases put_cases hcall' with ⟨rfl, rfl⟩ | ⟨hc, hcall'⟩
    · exact .inr ⟨hrequest, hnext⟩
    · rcases h.calls hcall' hkey' with hold | ⟨hrequest', hpc'⟩
      · exact .inl hold
      · refine .inr ⟨hrequest', ?_⟩
        rcases hsame with ⟨hcached, hmints⟩ | hin
        · exact hpc'.same hcached hmints
        · have hunlocked := hinv.lock.others_unlocked hcall hlock (.inl (locks_of_inMint hin))
            hcall' hkey' hc
          cases hcase : call'.pc with
          | waiting => trivial
          | tryFresh | handOut =>
              rw [hcase] at hpc'
              exact hpc'.elim
          | returned r =>
              -- Nobody has returned before the new token is stored.
              rw [hcase] at hpc'
              obtain ⟨t, ht, hnew⟩ := hpc'.2.1
              obtain ⟨t', ht', htoken⟩ := hpc.caches_of_inMint hin
              rw [ht] at ht'
              cases ht'
              exact absurd (htoken.symm.trans hnew) hne
          | _ =>
              rw [hcase] at hunlocked
              cases hunlocked

theorem waiting_of_advance {e : TokenEntry ε} {src : TokenSource} {now : Int} {c : Nat}
    {request : TokenRequest} {pc : TokenPc ε} {next : TokenEntry ε × TokenPc ε}
    (hnext : e.advance src now c request pc = some next)
    (h : next.2 = .waiting ∨ next.2 = .locked) : pc = .waiting ∨ pc = .tryFresh := by
  cases pc with
  | waiting => exact .inl rfl
  | tryFresh => exact .inr rfl
  | minting | returned => cases hnext
  | locked =>
      cases hnext
      have hunder : ∀ pc, e.underLock src now request = pc → pc ≠ .waiting ∧ pc ≠ .locked := by
        intro pc hpc
        rw [← hpc]
        unfold TokenEntry.underLock
        split <;> split <;> exact ⟨nofun, nofun⟩
      obtain ⟨hwaiting, hlocked⟩ := hunder _ rfl
      rcases h with h | h
      · exact absurd h hwaiting
      · exact absurd h hlocked
  | mintAndStore =>
      simp only [TokenEntry.advance] at hnext
      split at hnext
      · split at hnext <;> cases hnext <;> rcases h with h | h <;> cases h
      · cases hnext
        rcases h with h | h <;> cases h
  | _ =>
      cases hnext
      rcases h with h | h <;> cases h

/-- What is cached is not replaced by a seed. -/
theorem seed_cached {e : TokenEntry ε} {t : CachedTokenState} (h : e.cached = some t) (now : Int)
    (token : Str) : e.seed now token = e := by
  unfold TokenEntry.seed
  split
  · rfl
  · rw [h]

theorem StormInv.cached (h : StormInv sources k token new old s₀ s) :
    ∃ t, (s.entries k).cached = some t := by
  rcases h.entry with ⟨⟨t, ht, -⟩, -⟩ | ⟨⟨t, ht, -⟩, -⟩ | ⟨⟨t, ht, -⟩, -⟩
  · exact ⟨t, ht⟩
  · exact ⟨t, ht⟩
  · exact ⟨t, ht⟩

theorem StormInv.step (h : StormInv sources k token new old s₀ s) (hinv : TokenInv s)
    (hne : token ≠ new) (hmint : (sources k).canMint = true) {event : TokenEvent ε}
    (hs : Steps sources s event s') (hstorm : Storm sources k token new old s event s') :
    StormInv sources k token new old s₀ s' := by
  obtain ⟨hevent, hfresh⟩ := hstorm
  -- A call for another key changes nothing here.
  have hother : ∀ {c call next}, s.calls c = some call → call.key ≠ k → s' = s.put c call next →
      StormInv sources k token new old s₀ s' := by
    intro c call next hcall hkey heq
    subst heq
    refine h.frame (put_entry_of_ne (Ne.symm hkey)) ?_ ?_ hfresh
    · intro c' call' hcall' hkey'
      refine (put_call_of_ne ?_).trans hcall'
      intro hc
      rw [hc, hcall] at hcall'
      cases hcall'
      exact hkey hkey'
    · intro c' call' hcall' hkey'
      rcases put_cases hcall' with ⟨-, rfl⟩ | ⟨-, hcall'⟩
      · exact absurd hkey' hkey
      · exact .inl hcall'
  cases hs with
  | tick seconds => exact h.frame rfl (fun hcall _ => hcall) (fun hcall _ => .inl hcall) hfresh
  | construct key seed =>
      obtain ⟨t, ht⟩ := h.cached
      refine h.frame ?_ (fun hcall _ => hcall) (fun hcall _ => .inl hcall) hfresh
      rcases seeded_entry (s := s) (k := k) key seed with heq | heq
      · exact heq
      · exact heq.trans (seed_cached ht ..)
  | call c key request hnone =>
      refine h.frame rfl ?_ ?_ hfresh
      · intro c' call hcall _
        refine (Function.update_of_ne ?_ ..).trans hcall
        intro hc
        rw [hc, hnone] at hcall
        cases hcall
      · intro c' call hcall hkey
        by_cases hc : c' = c
        · simp only [hc, Function.update_self] at hcall
          cases hcall
          obtain rfl := hevent hkey
          exact .inr ⟨rfl, rfl⟩
        · simp only [Function.update_of_ne hc] at hcall
          exact .inl hcall
  | proceed c call next hcall hnext =>
      by_cases hkey : call.key = k
      · rcases h.calls hcall hkey with ⟨-, r, hr⟩ | ⟨hrequest, hpc⟩
        · rw [hr] at hnext
          cases hnext
        · have hlocked : call.pc = .locked →
              ((s.entries k).Caches token ∧ (s.entries k).mints = old) ∨
                ((s.entries k).Caches new ∧ (s.entries k).OneMore old) := by
            intro hlocked
            rcases h.entry with hbefore | ⟨-, -, c', call', hcall', hkey', hunder⟩ | hafter
            · exact .inl hbefore
            · -- The call whose mint is under way has the lock.
              have hlocks' : call'.pc.locks = true := by
                cases hcase : call'.pc with
                | minting | minted | storing => rfl
                | _ =>
                    rw [hcase] at hunder
                    cases hunder
              have hc := hinv.lock.unique hcall hcall' (hkey.trans hkey'.symm)
                (by rw [hlocked]; rfl) hlocks'
              rw [← hc, hcall] at hcall'
              cases hcall'
              rw [hlocked] at hunder
              cases hunder
            · exact .inr hafter
          subst hkey
          rw [hrequest] at hnext
          obtain ⟨hpc', hfailure⟩ := stormPc_advance hne hmint hpc h.failure h.fresh hlocked hnext
          refine h.put hinv hne hcall rfl hrequest hpc hpc' hfailure (lockStep_advance hnext)
            (same_advance hnext) ?_ hfresh
          intro hidle
          rcases waiting_of_advance hnext hidle with hwaiting | htry
          · exact hwaiting
          · rw [htry] at hpc
            exact hpc.elim
      · exact hother hcall hkey rfl
  | mintReturns c call t hcall hminting =>
      by_cases hkey : call.key = k
      · rcases h.calls hcall hkey with ⟨-, r, hr⟩ | ⟨hrequest, hpc⟩
        · rw [hminting] at hr
          cases hr
        · subst hkey
          have hpc' := hpc
          rw [hminting] at hpc'
          obtain ⟨time, htime⟩ := hpc'.2
          have hnew : t.accessToken = new := by
            refine hevent ?_ ?_
            · unfold keyOf
              rw [hcall]
              rfl
            · rw [htime, List.length_cons]
          exact h.put hinv hne hcall rfl hrequest hpc ⟨hnew, hpc'⟩ h.failure
            (.keep rfl (by rw [hminting]; rfl)) (.inl ⟨rfl, rfl⟩)
            (fun hidle => hidle.elim nofun nofun) hfresh
      · exact hother hcall hkey rfl
  | mintThrows c call error hcall hminting =>
      by_cases hkey : call.key = k
      · rcases h.calls hcall hkey with ⟨-, r, hr⟩ | ⟨-, hpc⟩
        · rw [hminting] at hr
          cases hr
        · rw [hminting] at hpc
          obtain ⟨time, htime⟩ := hpc.2
          refine absurd ?_ (hevent ?_)
          · rw [htime, List.length_cons]
          · unfold keyOf
            rw [hcall, ← hkey]
            rfl
      · exact hother hcall hkey rfl

theorem left_advance {e : TokenEntry ε} {src : TokenSource} {now : Int} {c : Nat}
    {request : TokenRequest} {pc : TokenPc ε} {next : TokenEntry ε × TokenPc ε}
    (hnext : e.advance src now c request pc = some next) : next.2.left < pc.left := by
  cases pc with
  | tryFresh =>
      simp only [TokenEntry.advance] at hnext
      split at hnext
      · cases hnext
        simp [TokenPc.left]
      · cases hnext
        show TokenPc.left (if src.canMint then .waiting else .handOut) < 10
        split <;> simp [TokenPc.left]
  | waiting =>
      simp only [TokenEntry.advance] at hnext
      split at hnext
      · cases hnext
        simp [TokenPc.left]
      · cases hnext
  | locked =>
      cases hnext
      show (e.underLock src now request).left < 8
      unfold TokenEntry.underLock
      split <;> split <;> simp [TokenPc.left]
  | mintAndStore =>
      simp only [TokenEntry.advance] at hnext
      split at hnext
      · split at hnext <;> cases hnext <;> simp [TokenPc.left]
      · cases hnext
        simp [TokenPc.left]
  | minting | returned => cases hnext
  | _ =>
      cases hnext
      simp [TokenPc.left]

/-- Whoever holds the lock can go on, unless its mint runs. -/
theorem advance_of_locks (e : TokenEntry ε) (src : TokenSource) (now : Int) (c : Nat)
    (request : TokenRequest) {pc : TokenPc ε} (hlocks : pc.locks = true) (hpc : pc ≠ .minting) :
    ∃ next, e.advance src now c request pc = some next := by
  cases pc with
  | tryFresh | handOut | waiting | returned => cases hlocks
  | minting => exact absurd rfl hpc
  | mintAndStore =>
      simp only [TokenEntry.advance]
      split
      · split <;> exact ⟨_, rfl⟩
      · exact ⟨_, rfl⟩
  | _ => exact ⟨_, rfl⟩

theorem step_proceed {c : Nat} {call : TokenCall ε} {next : TokenEntry ε × TokenPc ε}
    (hcall : s.calls c = some call)
    (hnext : (s.entries call.key).advance (sources call.key) s.now c call.request call.pc =
      some next) : s.step sources (.proceed c) = some (s.put c call next) := by
  simp only [TokenThreads.step, hcall, hnext, Option.map_some]

theorem StormInv.safe (h : StormInv sources k token new (s₀.entries k).mints s₀ s)
    (hinv : TokenInv s) : StormSafe sources k new s₀ s := by
  refine ⟨?_, ?_, ?_⟩
  · rcases h.entry with ⟨-, hold⟩ | ⟨-, hmore, -⟩ | ⟨-, hmore⟩
    · exact .inl hold
    · exact .inr hmore
    · exact .inr hmore
  · intro c call r hnone hcall hkey hpc
    rcases h.calls hcall hkey with ⟨hsome, -⟩ | ⟨-, hstorm⟩
    · exact absurd hnone hsome
    · rw [hpc] at hstorm
      exact ⟨hstorm.1, hstorm.2.2⟩
  · intro c call hcall hkey hopen
    cases hlock : (s.entries k).mintLock with
    | some c' =>
        obtain ⟨call', hcall', hkey', hlocks⟩ := hinv.lock.holder hlock
        refine ⟨c', call', hcall', hkey', ?_⟩
        by_cases hminting : call'.pc = .minting
        · exact .inl hminting
        · obtain ⟨next, hnext⟩ := advance_of_locks (s.entries call'.key) (sources call'.key) s.now
            c' call'.request hlocks hminting
          exact .inr ⟨_, _, step_proceed hcall' hnext, put_call, left_advance hnext⟩
    | none =>
        have hunlocked : call.pc.locks = false := by
          cases hlocks : call.pc.locks with
          | false => rfl
          | true =>
              have hheld := hinv.lock.locked hcall hlocks
              rw [hkey, hlock] at hheld
              cases hheld
        refine ⟨c, call, hcall, hkey, .inr ?_⟩
        have hwaiting : call.pc = .waiting := by
          rcases h.calls hcall hkey with ⟨-, r, hr⟩ | ⟨-, hstorm⟩
          · exact absurd hr (hopen r)
          · cases hpc : call.pc with
            | waiting => rfl
            | tryFresh | handOut =>
                rw [hpc] at hstorm
                exact hstorm.elim
            | returned r => exact absurd hpc (hopen r)
            | _ =>
                rw [hpc] at hunlocked
                cases hunlocked
        have hnext : (s.entries call.key).advance (sources call.key) s.now c call.request call.pc =
            some ({ s.entries call.key with mintLock := some c }, .locked) := by
          rw [hwaiting, hkey]
          simp only [TokenEntry.advance, hlock]
        exact ⟨_, _, step_proceed hcall hnext, put_call, left_advance hnext⟩

/-- A storm from a time when nothing is under way for the key. -/
theorem stormSafe_of_run (hne : token ≠ new) (hmint : (sources k).canMint = true)
    (h₀ : TokenInv s₀) (hidle : s₀.Idle k) (hcached : (s₀.entries k).Caches token)
    (hfailure : (s₀.entries k).failure = none)
    (hrun : Runs (TokenThreads.step sources) (Storm sources k token new (s₀.entries k).mints)
      s₀ s) : StormSafe sources k new s₀ s := by
  have hstart : StormInv sources k token new (s₀.entries k).mints s₀ s₀ := by
    refine ⟨hfailure, .inl ⟨hcached, rfl⟩, ?_, ?_⟩
    · intro t ht hnew
      obtain ⟨t', ht', htoken⟩ := hcached
      rw [ht] at ht'
      cases ht'
      exact absurd (htoken.symm.trans hnew) hne
    · intro c call hcall hkey
      refine .inl ⟨?_, hidle hcall hkey⟩
      rw [hcall]
      exact Option.some_ne_none _
  have hboth : TokenInv s ∧ StormInv sources k token new (s₀.entries k).mints s₀ s :=
    Runs.inv (I := fun s => TokenInv s ∧ StormInv sources k token new (s₀.entries k).mints s₀ s)
      (fun hinv hs hstorm => ⟨hinv.1.step (steps_of_step hs),
        hinv.2.step hinv.1 hne hmint (steps_of_step hs) hstorm⟩) ⟨h₀, hstart⟩ hrun
  exact hboth.2.safe hboth.1

-- ================================================================= the back-off

/-- A mint has thrown, and its error is remembered until `limit`, or about to
be. -/
def FailedUntil (s : TokenThreads ε) (k : Str) (error : ε) (limit : Int) : Prop :=
  (∃ c call, s.calls c = some call ∧ call.key = k ∧ call.pc = .failed error ∧
      limit = s.now + kMintFailureBackoffSeconds) ∨
    (s.entries k).failure = some ⟨error, limit⟩

/-- No mint is started, what was cached stays; a call that needs a mint goes on
to throw the error, and no other error is thrown. -/
structure BacksOff (sources : Str → TokenSource) (k : Str) (error : ε) (s₀ s : TokenThreads ε) :
    Prop where
  quiet : (s.entries k).mints = (s₀.entries k).mints
  kept : ∀ {t}, (s₀.entries k).cached = some t → (s.entries k).cached = some t
  rethrown : ∀ {c call}, s.calls c = some call → call.key = k → call.pc = .mintAndStore →
    ∃ s', s.step sources (.proceed c) = some s' ∧
      s'.calls c = some { call with pc := .releasing (.error error) }
  thrown : ∀ {c call x}, s.calls c = some call → call.key = k →
    call.pc = .returned (.error x) → s₀.calls c = some call ∨ x = error

/-- Where a call may be in the window, and what it may throw. -/
def BackoffPc (error : ε) : TokenPc ε → Prop
  | .toMint | .minting | .minted _ | .storing _ => False
  | .failed x => x = error
  | .releasing r | .returned r => ∀ x, r = .error x → x = error
  | _ => True

structure BackoffInv (k : Str) (error : ε) (limit : Int) (s₀ s : TokenThreads ε) : Prop where
  quiet : (s.entries k).mints = (s₀.entries k).mints
  kept : ∀ {t}, (s₀.entries k).cached = some t → (s.entries k).cached = some t
  pending : (∃ c call, s.calls c = some call ∧ call.key = k ∧ call.pc = .failed error ∧
      limit ≤ s.now + kMintFailureBackoffSeconds) ∨
    ∃ f, (s.entries k).failure = some f ∧ f.error = error ∧ limit ≤ f.untilUnix
  calls : ∀ {c call}, s.calls c = some call → call.key = k →
    (s₀.calls c = some call ∧ ∃ r, call.pc = .returned r) ∨ BackoffPc error call.pc

variable {error : ε} {limit : Int}

/-- A call that needs a mint finds the error. -/
theorem BackoffInv.rethrows (h : BackoffInv k error limit s₀ s) (hinv : TokenInv s)
    (hnow : s.now < limit) {c : Nat} {call : TokenCall ε} (hcall : s.calls c = some call)
    (hkey : call.key = k) (hpc : call.pc = .mintAndStore) :
    (s.entries k).advance (sources k) s.now c call.request call.pc =
      some (s.entries k, .releasing (.error error)) := by
  rcases h.pending with ⟨c', call', hcall', hkey', hfailed, -⟩ | ⟨f, hf, rfl, hlimit⟩
  · -- The call whose mint has thrown has the lock.
    have hc := hinv.lock.unique hcall hcall' (hkey.trans hkey'.symm) (by rw [hpc]; rfl)
      (by rw [hfailed]; rfl)
    rw [← hc, hcall] at hcall'
    cases hcall'
    rw [hpc] at hfailed
    cases hfailed
  · rw [hpc]
    simp only [TokenEntry.advance, hf]
    rw [if_pos (by omega)]

/-- What is returned, and is not an error. -/
theorem not_error {token : Str} {x : ε} : (Except.ok token : Except ε Str) = .error x → x = error := by
  intro h
  cases h

/-- One section in the window. -/
theorem backoffPc_advance {e : TokenEntry ε} {src : TokenSource} {now : Int} {c : Nat}
    {request : TokenRequest} {pc : TokenPc ε} {next : TokenEntry ε × TokenPc ε}
    (h : BackoffPc error pc) (hrethrow : pc = .mintAndStore → next = (e, .releasing (.error error)))
    (hnext : e.advance src now c request pc = some next) :
    BackoffPc error next.2 ∧ next.1.mints = e.mints ∧ next.1.cached = e.cached ∧
      (next.1.failure = e.failure ∨ (pc = .failed error ∧
        next.1.failure = some ⟨error, now + kMintFailureBackoffSeconds⟩)) := by
  cases pc with
  | tryFresh =>
      simp only [TokenEntry.advance] at hnext
      split at hnext
      · cases hnext
        exact ⟨fun _ => not_error, rfl, rfl, .inl rfl⟩
      · cases hnext
        refine ⟨?_, rfl, rfl, .inl rfl⟩
        show BackoffPc error (if src.canMint then .waiting else .handOut)
        split <;> trivial
  | handOut =>
      cases hnext
      exact ⟨fun _ => not_error, rfl, rfl, .inl rfl⟩
  | waiting =>
      simp only [TokenEntry.advance] at hnext
      split at hnext
      · cases hnext
        exact ⟨trivial, rfl, rfl, .inl rfl⟩
      · cases hnext
  | locked =>
      cases hnext
      refine ⟨?_, rfl, rfl, .inl rfl⟩
      show BackoffPc error (e.underLock src now request)
      unfold TokenEntry.underLock
      split
      · split
        · exact fun _ => not_error
        · trivial
      · split
        · exact fun _ => not_error
        · exact fun _ => not_error
        · trivial
  | mintAndStore =>
      rw [hrethrow rfl]
      refine ⟨?_, rfl, rfl, .inl rfl⟩
      intro x hx
      cases hx
      rfl
  | toMint | minting | minted | storing => exact h.elim
  | failed x =>
      cases hnext
      obtain rfl : x = error := h
      refine ⟨?_, rfl, rfl, .inr ⟨rfl, rfl⟩⟩
      intro y hy
      cases hy
      rfl
  | releasing r =>
      cases hnext
      exact ⟨h, rfl, rfl, .inl rfl⟩
  | returned r => cases hnext

theorem BackoffInv.frame (h : BackoffInv k error limit s₀ s)
    (hmints : (s'.entries k).mints = (s.entries k).mints)
    (hcached : ∀ t, (s.entries k).cached = some t → (s'.entries k).cached = some t)
    (hfailure : (s'.entries k).failure = (s.entries k).failure) (hnow : s.now ≤ s'.now)
    (hkept : ∀ {c call}, s.calls c = some call → call.key = k → s'.calls c = some call)
    (hcalls : ∀ {c call}, s'.calls c = some call → call.key = k →
      s.calls c = some call ∨ BackoffPc error call.pc) : BackoffInv k error limit s₀ s' := by
  refine ⟨hmints.trans h.quiet, fun ht => hcached _ (h.kept ht), ?_, ?_⟩
  · rcases h.pending with ⟨c, call, hcall, hkey, hpc, hlimit⟩ | ⟨f, hf, herror, hlimit⟩
    · exact .inl ⟨c, call, hkept hcall hkey, hkey, hpc, by omega⟩
    · exact .inr ⟨f, hfailure.trans hf, herror, hlimit⟩
  · intro c call hcall hkey
    rcases hcalls hcall hkey with hcall | hpc
    · exact h.calls hcall hkey
    · exact .inr hpc

theorem BackoffInv.proceed (h : BackoffInv k error limit s₀ s) (hinv : TokenInv s)
    (hnow : s.now < limit) {c : Nat} {call : TokenCall ε} {next : TokenEntry ε × TokenPc ε}
    (hcall : s.calls c = some call) (hkey : call.key = k)
    (hnext : (s.entries call.key).advance (sources call.key) s.now c call.request call.pc =
      some next) : BackoffInv k error limit s₀ (s.put c call next) := by
  rcases h.calls hcall hkey with ⟨-, r, hr⟩ | hpc
  · rw [hr] at hnext
    cases hnext
  · subst hkey
    obtain ⟨hpc', hmints, hcached, hfailure⟩ := backoffPc_advance hpc (fun hneeds => by
      rw [h.rethrows hinv hnow hcall rfl hneeds] at hnext
      exact (Option.some.inj hnext).symm) hnext
    refine ⟨?_, ?_, ?_, ?_⟩
    · rw [put_entry, hmints]
      exact h.quiet
    · intro t ht
      rw [put_entry, hcached]
      exact h.kept ht
    · rw [put_entry]
      rcases hfailure with hsame | ⟨hfailed, hstored⟩
      · rw [hsame]
        rcases h.pending with ⟨c', call', hcall', hkey', hfailed, hlimit⟩ | hremembered
        · by_cases hc : c' = c
          · -- What the call has thrown is what is remembered.
            rw [hc, hcall] at hcall'
            cases hcall'
            rw [hfailed] at hnext
            cases hnext
            exact .inr ⟨_, hsame.symm, rfl, hlimit⟩
          · exact .inl ⟨c', call', (put_call_of_ne hc).trans hcall', hkey', hfailed, hlimit⟩
        · exact .inr hremembered
      · rcases h.pending with ⟨-, -, -, -, -, hlimit⟩ | ⟨f, hf, -, -⟩
        · exact .inr ⟨_, hstored, rfl, hlimit⟩
        · have hnone := (hinv.memo hcall).cleared (by rw [hfailed]; rfl)
          rw [hf] at hnone
          cases hnone
    · intro c' call' hcall' hkey'
      rcases put_cases hcall' with ⟨rfl, rfl⟩ | ⟨-, hcall'⟩
      · exact .inr hpc'
      · exact h.calls hcall' hkey'

theorem BackoffInv.step (h : BackoffInv k error limit s₀ s) (hinv : TokenInv s)
    (hnow : s.now < limit) {event : TokenEvent ε} (hs : Steps sources s event s') :
    BackoffInv k error limit s₀ s' := by
  have hother : ∀ {c call next}, s.calls c = some call → call.key ≠ k → s' = s.put c call next →
      BackoffInv k error limit s₀ s' := by
    intro c call next hcall hkey heq
    subst heq
    have hentry : (s.put c call next).entries k = s.entries k := put_entry_of_ne (Ne.symm hkey)
    refine h.frame (by rw [hentry]) (by rw [hentry]; exact fun _ => id) (by rw [hentry]) le_rfl
      ?_ ?_
    · intro c' call' hcall' hkey'
      refine (put_call_of_ne ?_).trans hcall'
      intro hc
      rw [hc, hcall] at hcall'
      cases hcall'
      exact hkey hkey'
    · intro c' call' hcall' hkey'
      rcases put_cases hcall' with ⟨-, rfl⟩ | ⟨-, hcall'⟩
      · exact absurd hkey' hkey
      · exact .inl hcall'
  -- No mint of the key runs.
  have hnone : ∀ {c call}, s.calls c = some call → call.pc = .minting → call.key ≠ k := by
    intro c call hcall hminting hkey
    rcases h.calls hcall hkey with ⟨-, r, hr⟩ | hpc
    · rw [hminting] at hr
      cases hr
    · rw [hminting] at hpc
      exact hpc
  have hclock := hs.now_le
  cases hs with
  | tick seconds =>
      exact h.frame rfl (fun _ => id) rfl hclock (fun hcall _ => hcall) (fun hcall _ => .inl hcall)
  | construct key seed =>
      have hrest := seed_rest (s.entries k) s.now seed
      rcases seeded_entry (s := s) (k := k) key seed with heq | heq
      · exact h.frame (congrArg _ heq) (fun t ht => (congrArg _ heq).trans ht) (congrArg _ heq) le_rfl
          (fun hcall _ => hcall) (fun hcall _ => .inl hcall)
      · exact h.frame ((congrArg _ heq).trans hrest.2.2.1)
          (fun t ht => (congrArg _ heq).trans (hrest.2.2.2 t ht)) ((congrArg _ heq).trans hrest.2.1)
          le_rfl (fun hcall _ => hcall) (fun hcall _ => .inl hcall)
  | call c key request hfree =>
      refine h.frame rfl (fun _ => id) rfl le_rfl ?_ ?_
      · intro c' call hcall _
        refine (Function.update_of_ne ?_ ..).trans hcall
        intro hc
        rw [hc, hfree] at hcall
        cases hcall
      · intro c' call hcall _
        by_cases hc : c' = c
        · simp only [hc, Function.update_self] at hcall
          cases hcall
          right
          cases request <;> trivial
        · simp only [Function.update_of_ne hc] at hcall
          exact .inl hcall
  | proceed c call next hcall hnext =>
      by_cases hkey : call.key = k
      · exact h.proceed hinv hnow hcall hkey hnext
      · exact hother hcall hkey rfl
  | mintReturns c call t hcall hminting => exact hother hcall (hnone hcall hminting) rfl
  | mintThrows c call x hcall hminting => exact hother hcall (hnone hcall hminting) rfl

/-- Where it begins: nobody else has the lock, or the holder has thrown the
remembered error. -/
theorem FailedUntil.start (h : s₀.FailedUntil k error limit) (hinv : TokenInv s₀) :
    BackoffInv k error limit s₀ s₀ := by
  refine ⟨rfl, id, ?_, ?_⟩
  · rcases h with ⟨c, call, hcall, hkey, hpc, hlimit⟩ | hf
    · exact .inl ⟨c, call, hcall, hkey, hpc, le_of_eq hlimit⟩
    · exact .inr ⟨_, hf, rfl, le_rfl⟩
  · intro c call hcall hkey
    have hmemo := hinv.memo hcall
    rw [hkey] at hmemo
    -- The holder of the lock, if it may have been in a mint.
    have hthrown : call.pc.inMint = true → call.pc = .failed error := by
      intro hin
      rcases h with ⟨c', call', hcall', hkey', hfailed, -⟩ | hf
      · have hc := hinv.lock.unique hcall hcall' (hkey.trans hkey'.symm) (locks_of_inMint hin)
          (by rw [hfailed]; rfl)
        rw [← hc, hcall] at hcall'
        cases hcall'
        exact hfailed
      · have hnone := hmemo.cleared hin
        rw [hf] at hnone
        cases hnone
    cases hpc : call.pc with
    | returned r => exact .inl ⟨hcall, r, rfl⟩
    | tryFresh | handOut | waiting | locked | mintAndStore => exact .inr trivial
    | toMint | minting | minted | storing =>
        have heq := hthrown (by rw [hpc]; rfl)
        rw [hpc] at heq
        cases heq
    | failed x =>
        have heq := hthrown (by rw [hpc]; rfl)
        rw [hpc] at heq
        cases heq
        exact .inr rfl
    | releasing r =>
        right
        intro x hx
        obtain ⟨u, hu⟩ := hmemo.stored x (by rw [hpc, hx])
        rcases h with ⟨c', call', hcall', hkey', hfailed, -⟩ | hf
        · have hnone := (hinv.memo hcall').cleared (by rw [hfailed]; rfl)
          rw [hkey', hu] at hnone
          cases hnone
        · rw [hu] at hf
          cases hf
          rfl

theorem BackoffInv.backsOff (h : BackoffInv k error limit s₀ s) (hinv : TokenInv s)
    (hnow : s.now < limit) : BacksOff sources k error s₀ s := by
  refine ⟨h.quiet, h.kept, ?_, ?_⟩
  · intro c call hcall hkey hpc
    subst hkey
    exact ⟨_, step_proceed hcall (h.rethrows hinv hnow hcall rfl hpc), put_call⟩
  · intro c call x hcall hkey hpc
    rcases h.calls hcall hkey with ⟨hold, -⟩ | hthrown
    · exact .inl hold
    · rw [hpc] at hthrown
      exact .inr (hthrown x rfl)

/-- The window, from a mint that has thrown or a failure that is remembered. -/
theorem backsOff_of_run (h₀ : TokenInv s₀) (hfailed : s₀.FailedUntil k error limit)
    (hrun : Runs (TokenThreads.step sources) (fun _ _ _ => True) s₀ s) (hnow : s.now < limit) :
    BacksOff sources k error s₀ s := by
  have hboth : TokenInv s ∧ (s.now < limit → BackoffInv k error limit s₀ s) := by
    refine Runs.inv (I := fun s => TokenInv s ∧ (s.now < limit → BackoffInv k error limit s₀ s))
      ?_ ⟨h₀, fun _ => hfailed.start h₀⟩ hrun
    intro s event s' hinv hs _
    have hsteps := steps_of_step hs
    refine ⟨hinv.1.step hsteps, ?_⟩
    -- The clock was no later before the event.
    intro hnow'
    have hnow : s.now < limit := lt_of_le_of_lt hsteps.now_le hnow'
    exact (hinv.2 hnow).step hinv.1 hnow hsteps
  exact (hboth.2 hnow).backsOff hboth.1 hnow

/-- Of any number of calls rejected with the cached token one mints and all
return what it gave; and a failed mint is followed by none before its window
has passed. -/
theorem token_storm_safe (sources : Str → TokenSource) (k : Str) :
    (∀ {token new : Str} {s₀ s : TokenThreads ε}, Reachable sources s₀ → s₀.Idle k →
      (s₀.entries k).Caches token → (s₀.entries k).failure = none → token ≠ new →
      (sources k).canMint = true →
      Runs (TokenThreads.step sources) (Storm sources k token new (s₀.entries k).mints) s₀ s →
      StormSafe sources k new s₀ s) ∧
    ∀ {error : ε} {limit : Int} {s₀ s : TokenThreads ε}, Reachable sources s₀ →
      s₀.FailedUntil k error limit →
      Runs (TokenThreads.step sources) (fun _ _ _ => True) s₀ s → s.now < limit →
      BacksOff sources k error s₀ s := by
  refine ⟨?_, ?_⟩
  · intro token new s₀ s h₀ hidle hcached hfailure hne hmint hrun
    exact stormSafe_of_run hne hmint h₀.inv hidle hcached hfailure hrun
  · intro error limit s₀ s h₀ hfailed hrun hnow
    exact backsOff_of_run h₀.inv hfailed hrun hnow

-- ===================================================================== two calls

section Two

/-- A source with no age cap. -/
def oneSource (_ : Str) : TokenSource := ⟨true, 0⟩

/-- The token `t` is pasted in. -/
def pasted : TokenThreads Unit :=
  { now := 1000
    entries := Function.update (fun _ => {}) (str "k") (({} : TokenEntry Unit).seed 1000 (str "t")) }

theorem reachable_pasted : Reachable oneSource pasted :=
  ⟨1000, .head ⟨.construct (str "k") (str "t"), rfl, trivial⟩ .refl⟩

theorem Reachable.trans (h : Reachable sources s)
    (hrun : Runs (TokenThreads.step sources) (fun _ _ _ => True) s s') : Reachable sources s' := by
  obtain ⟨now, h⟩ := h
  exact ⟨now, Relation.ReflTransGen.trans h hrun⟩

/-- Two calls, the first one up to its mint. -/
def firstCall : List (TokenEvent Unit) :=
  [.call 1 (str "k") (.refresh (str "t")), .call 2 (str "k") (.refresh (str "t")), .proceed 1,
    .proceed 1, .proceed 1, .proceed 1]

/-- The mint gives `n`, and both calls return. -/
def bothCalls : List (TokenEvent Unit) :=
  firstCall ++ [.mintReturns 1 ⟨str "n", 5000, 0⟩, .proceed 1, .proceed 1, .proceed 1, .proceed 2,
    .proceed 2, .proceed 2]

/-- The mint has thrown; the second call is about to ask for another one. -/
def secondCall : List (TokenEvent Unit) :=
  [.proceed 1, .tick 5, .proceed 1, .proceed 2, .proceed 2]

/-- What the events of a storm lead to. -/
def stormOf (events : List (TokenEvent Unit)) : Option (TokenThreads Unit) :=
  events.foldlM (fun s event => (s.step oneSource event).filter fun s' =>
    decide (Storm oneSource (str "k") (str "t") (str "n") [] s event s')) pasted

/-- What events lead to. -/
def plainOf (events : List (TokenEvent Unit)) (s : TokenThreads Unit) : TokenThreads Unit :=
  (events.foldlM (step oneSource) s).getD s

/-- The mint of the first call has thrown. -/
def thrown : TokenThreads Unit := plainOf (firstCall ++ [.mintThrows 1 ()]) pasted

/-- Two rejected calls, one mint; and a mint that throws, with a call that comes
after it. -/
theorem token_storm_safe_two :
    (∃ s, s.calls 1 = some ⟨str "k", .refresh (str "t"), .returned (.ok (str "n"))⟩ ∧
      s.calls 2 = some ⟨str "k", .refresh (str "t"), .returned (.ok (str "n"))⟩ ∧
      StormSafe oneSource (str "k") (str "n") pasted s) ∧
    ∃ s₀ s, s₀.calls 1 = some ⟨str "k", .refresh (str "t"), .failed ()⟩ ∧
      s.calls 2 = some ⟨str "k", .refresh (str "t"), .mintAndStore⟩ ∧
      BacksOff oneSource (str "k") () s₀ s := by
  refine ⟨?_, ?_⟩
  · have hsome : (stormOf bothCalls).isSome = true := by decide +kernel
    refine ⟨(stormOf bothCalls).get hsome, by rfl, by rfl, ?_⟩
    refine (token_storm_safe oneSource (str "k")).1 reachable_pasted ?_ ⟨_, rfl, rfl⟩ rfl
      (by decide : str "t" ≠ str "n") rfl (Runs.of_checked (Option.some_get hsome).symm)
    intro c call hcall
    cases hcall
  · have hthrown : (firstCall ++ [TokenEvent.mintThrows 1 ()]).foldlM (step oneSource) pasted =
        some thrown := by rfl
    have hlater : secondCall.foldlM (step oneSource) thrown = some (plainOf secondCall thrown) := by
      rfl
    have hfirst := Runs.of_events (P := fun _ _ _ => True) hthrown trivial
    have hsecond := Runs.of_events (P := fun _ _ _ => True) hlater trivial
    exact ⟨thrown, plainOf secondCall thrown, by rfl, by rfl,
      (token_storm_safe oneSource (str "k")).2 (reachable_pasted.trans hfirst)
        (.inl ⟨1, _, rfl, rfl, rfl, rfl⟩) hsecond (by decide +kernel)⟩

end Two

end TokenThreads

end GDrive
