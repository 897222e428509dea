/-
Token sources (gdrive_auth.cpp, gdrive_token_policy.cpp) under concurrency:
any number of `Token` and `Refresh` calls, interleaved at the granularity of
the locks.

# The model

What the process keeps of a cache key is a `TokenEntry`: the cached token, the
last failed mint, the mint lock. A call goes through its critical sections one
event at a time (`TokenPc`); a mint takes its own time, during which its call
holds the key's mint lock and other calls, the clock and other keys go on. A
source's mint function and age cap are those of its key.

# What holds

The holder of the mint lock is the one call between taking and releasing it
(`LockInv`), so a mint and what is recorded of it are never overtaken. From
this come the two halves of `token_storm_safe`: of many calls rejected with one
token the first mints and the others find what it minted (`StormInv`), and a
failed mint is all that the key's calls get for as long as it is remembered
(`BackoffInv`).
-/
import GDrive.Interaction.Threads
import GDrive.Base.Str

namespace GDrive

open Interaction

-- ================================================================= the policy

def kTokenRefreshSlackSeconds : Int := 60

/-- The largest 64-bit time. -/
def int64Max : Int := 2 ^ 63 - 1

/-- The expiry of a token whose lifetime nobody has told. -/
def kUnknownExpiry : Int := int64Max

structure CachedTokenState where
  accessToken : Str
  expiresAtUnix : Int := 0
  mintedAtUnix : Int := 0
  deriving DecidableEq

def saturatingAdd (a b : Int) : Int := if int64Max - b < a then int64Max else a + b

/-- Usable for another minute, by its expiry and by its age. -/
def tokenIsFresh (token : CachedTokenState) (now maxAge : Int) : Bool :=
  let horizon := saturatingAdd now kTokenRefreshSlackSeconds
  if token.expiresAtUnix ≤ horizon then false
  else decide (maxAge ≤ 0) || decide (horizon < saturatingAdd token.mintedAtUnix maxAge)

inductive RejectionAction
  | reuseCached | mint | giveUp
  deriving DecidableEq

def decideAfterRejection (hasCached : Bool) (cached : CachedTokenState) (rejected : Str)
    (now maxAge : Int) (canMint : Bool) : RejectionAction :=
  if hasCached && decide (cached.accessToken ≠ rejected) && tokenIsFresh cached now maxAge then
    .reuseCached
  else if canMint then .mint
  else .giveUp

-- ================================================================= the source

def kMintFailureBackoffSeconds : Int := 30

/-- What the sources of one cache key have in common. -/
structure TokenSource where
  canMint : Bool
  /-- `max_age_seconds`; 0 is no cap. -/
  maxAge : Int

structure MintFailure (ε : Type) where
  error : ε
  untilUnix : Int

/-- What the process keeps of a cache key. -/
structure TokenEntry (ε : Type) where
  cached : Option CachedTokenState := none
  failure : Option (MintFailure ε) := none
  /-- The call that holds the key's mint lock. -/
  mintLock : Option Nat := none
  /-- When each mint was started, the last one first. -/
  mints : List Int := []

inductive TokenRequest
  | token
  | refresh (rejected : Str)
  deriving DecidableEq

/-- How far a call is: before which critical section, or in the mint. -/
inductive TokenPc (ε : Type)
  | tryFresh
  /-- Nothing to mint with: hand out what there is. -/
  | handOut
  | waiting
  /-- The mint lock is held from here on. -/
  | locked
  | mintAndStore
  | toMint
  | minting
  /-- `mint()` has returned, and the token has its time. -/
  | minted (token : CachedTokenState)
  | storing (token : CachedTokenState)
  /-- `mint()` has thrown. -/
  | failed (error : ε)
  | releasing (result : Except ε Str)
  /-- The mint lock is released. -/
  | returned (result : Except ε Str)

/-- Is the mint lock held there? -/
def TokenPc.locks {ε : Type} : TokenPc ε → Bool
  | .tryFresh | .handOut | .waiting | .returned _ => false
  | _ => true

/-- Between the look at the last failure and the end of the mint. -/
def TokenPc.inMint {ε : Type} : TokenPc ε → Bool
  | .toMint | .minting | .minted _ | .storing _ | .failed _ => true
  | _ => false

namespace TokenEntry

variable {ε : Type}

/-- `TryFresh`. -/
def fresh (e : TokenEntry ε) (src : TokenSource) (now : Int) : Option Str :=
  match e.cached with
  | some token => if tokenIsFresh token now src.maxAge then some token.accessToken else none
  | none => none

/-- The first critical section of `Refresh`. -/
def rejection (e : TokenEntry ε) (src : TokenSource) (now : Int) (rejected : Str) :
    RejectionAction :=
  decideAfterRejection e.cached.isSome (e.cached.getD { accessToken := [] }) rejected now
    src.maxAge src.canMint

/-- Under the mint lock: a token to return, or a mint. -/
def underLock (e : TokenEntry ε) (src : TokenSource) (now : Int) : TokenRequest → TokenPc ε
  | .token =>
      match e.fresh src now with
      | some token => .releasing (.ok token)
      | none => .mintAndStore
  | .refresh rejected =>
      match e.rejection src now rejected with
      | .reuseCached => .releasing (.ok (e.cached.elim [] (·.accessToken)))
      | .giveUp => .releasing (.ok [])
      | .mint => .mintAndStore

/-- The next critical section of the call `c`, where it can be entered. -/
def advance (e : TokenEntry ε) (src : TokenSource) (now : Int) (c : Nat) (request : TokenRequest) :
    TokenPc ε → Option (TokenEntry ε × TokenPc ε)
  | .tryFresh =>
      match e.fresh src now with
      | some token => some (e, .returned (.ok token))
      | none => some (e, if src.canMint then .waiting else .handOut)
  | .handOut => some (e, .returned (.ok (e.cached.elim [] (·.accessToken))))
  | .waiting =>
      match e.mintLock with
      | none => some ({ e with mintLock := some c }, .locked)
      | some _ => none
  | .locked => some (e, e.underLock src now request)
  | .mintAndStore =>
      match e.failure with
      | some f =>
          if now < f.untilUnix then some (e, .releasing (.error f.error))
          else some ({ e with failure := none }, .toMint)
      | none => some (e, .toMint)
  | .toMint => some ({ e with mints := now :: e.mints }, .minting)
  | .minting => none
  | .minted token => some (e, .storing { token with mintedAtUnix := now })
  | .storing token => some ({ e with cached := some token }, .releasing (.ok token.accessToken))
  | .failed error =>
      some ({ e with failure := some ⟨error, now + kMintFailureBackoffSeconds⟩ },
        .releasing (.error error))
  | .releasing result => some ({ e with mintLock := none }, .returned result)
  | .returned _ => none

/-- The constructor's seed, used where nothing is cached. -/
def seed (e : TokenEntry ε) (now : Int) (token : Str) : TokenEntry ε :=
  if token.isEmpty then e
  else
    match e.cached with
    | some _ => e
    | none => { e with cached := some ⟨token, kUnknownExpiry, now⟩ }

end TokenEntry

-- ================================================================ the threads

structure TokenCall (ε : Type) where
  key : Str
  request : TokenRequest
  pc : TokenPc ε

structure TokenThreads (ε : Type) where
  now : Int
  entries : Str → TokenEntry ε := fun _ => {}
  calls : Nat → Option (TokenCall ε) := fun _ => none

inductive TokenEvent (ε : Type)
  /-- The clock goes on. -/
  | tick (seconds : Nat)
  /-- A `CachedTokenSource` is constructed. -/
  | construct (key seed : Str)
  | call (c : Nat) (key : Str) (request : TokenRequest)
  | proceed (c : Nat)
  /-- The mint function of a call returns, or throws. -/
  | mintReturns (c : Nat) (token : CachedTokenState)
  | mintThrows (c : Nat) (error : ε)

namespace TokenThreads

variable {ε : Type}

/-- A call and its key's entry are at the next place. -/
def put (s : TokenThreads ε) (c : Nat) (call : TokenCall ε) (next : TokenEntry ε × TokenPc ε) :
    TokenThreads ε :=
  { s with
    entries := Function.update s.entries call.key next.1
    calls := Function.update s.calls c (some { call with pc := next.2 }) }

/-- The mint of a call ends. -/
def endMint (s : TokenThreads ε) (c : Nat) (pc : TokenPc ε) : Option (TokenThreads ε) :=
  match s.calls c with
  | some ⟨key, request, .minting⟩ =>
      some (s.put c ⟨key, request, .minting⟩ (s.entries key, pc))
  | _ => none

/-- Where a call begins. -/
def beginning : TokenRequest → TokenPc ε
  | .token => .tryFresh
  | .refresh _ => .waiting

/-- One event, where it can happen. -/
def step (sources : Str → TokenSource) (s : TokenThreads ε) :
    TokenEvent ε → Option (TokenThreads ε)
  | .tick seconds => some { s with now := s.now + seconds }
  | .construct key seed =>
      some { s with
        entries := Function.update s.entries key ((s.entries key).seed s.now seed) }
  | .call c key request =>
      match s.calls c with
      | none =>
          some { s with
            calls := Function.update s.calls c (some ⟨key, request, beginning request⟩) }
      | some _ => none
  | .proceed c =>
      match s.calls c with
      | some call =>
          ((s.entries call.key).advance (sources call.key) s.now c call.request call.pc).map
            (s.put c call)
      | none => none
  | .mintReturns c token => s.endMint c (.minted token)
  | .mintThrows c error => s.endMint c (.failed error)

/-- What any interleaving of any calls leads to, from a time when nothing is
cached. -/
def Reachable (sources : Str → TokenSource) (s : TokenThreads ε) : Prop :=
  ∃ now, Runs (step sources) (fun _ _ _ => True) { now } s

-- ============================================================== what a step does

variable {sources : Str → TokenSource} {s s' : TokenThreads ε} {k : Str}

/-- All that one event can do. -/
inductive Steps (sources : Str → TokenSource) (s : TokenThreads ε) :
    TokenEvent ε → TokenThreads ε → Prop
  | tick (seconds : Nat) : Steps sources s (.tick seconds) { s with now := s.now + seconds }
  | construct (key seed : Str) :
      Steps sources s (.construct key seed)
        { s with entries := Function.update s.entries key ((s.entries key).seed s.now seed) }
  | call (c : Nat) (key : Str) (request : TokenRequest) : s.calls c = none →
      Steps sources s (.call c key request)
        { s with calls := Function.update s.calls c (some ⟨key, request, beginning request⟩) }
  | proceed (c : Nat) (call : TokenCall ε) (next : TokenEntry ε × TokenPc ε) :
      s.calls c = some call →
      (s.entries call.key).advance (sources call.key) s.now c call.request call.pc = some next →
      Steps sources s (.proceed c) (s.put c call next)
  | mintReturns (c : Nat) (call : TokenCall ε) (token : CachedTokenState) :
      s.calls c = some call → call.pc = .minting →
      Steps sources s (.mintReturns c token) (s.put c call (s.entries call.key, .minted token))
  | mintThrows (c : Nat) (call : TokenCall ε) (error : ε) :
      s.calls c = some call → call.pc = .minting →
      Steps sources s (.mintThrows c error) (s.put c call (s.entries call.key, .failed error))

theorem endMint_eq_some {c : Nat} {pc : TokenPc ε} (h : s.endMint c pc = some s') :
    ∃ call, s.calls c = some call ∧ call.pc = .minting ∧
      s' = s.put c call (s.entries call.key, pc) := by
  unfold endMint at h
  split at h
  · rename_i key request hcall
    cases h
    exact ⟨_, hcall, rfl, rfl⟩
  · cases h

theorem steps_of_step {event : TokenEvent ε} (h : s.step sources event = some s') :
    Steps sources s event s' := by
  cases event with
  | tick seconds =>
      cases h
      exact .tick seconds
  | construct key seed =>
      cases h
      exact .construct key seed
  | call c key request =>
      simp only [step] at h
      split at h
      · rename_i hnone
        cases h
        exact .call c key request hnone
      · cases h
  | proceed c =>
      simp only [step] at h
      split at h
      · rename_i call hcall
        obtain ⟨next, hnext, rfl⟩ := Option.map_eq_some_iff.mp h
        exact .proceed c call next hcall hnext
      · cases h
  | mintReturns c token =>
      obtain ⟨call, hcall, hpc, rfl⟩ := endMint_eq_some h
      exact .mintReturns c call token hcall hpc
  | mintThrows c error =>
      obtain ⟨call, hcall, hpc, rfl⟩ := endMint_eq_some h
      exact .mintThrows c call error hcall hpc

/-- The clock never goes back. -/
theorem Steps.now_le {event : TokenEvent ε} (h : Steps sources s event s') : s.now ≤ s'.now := by
  cases h with
  | tick seconds =>
      show s.now ≤ s.now + seconds
      omega
  | _ => exact le_rfl

section Put

variable {c c' : Nat} {call call' : TokenCall ε} {next : TokenEntry ε × TokenPc ε}

theorem put_entry : (s.put c call next).entries call.key = next.1 := Function.update_self ..

theorem put_entry_of_ne (hk : k ≠ call.key) : (s.put c call next).entries k = s.entries k :=
  Function.update_of_ne hk ..

theorem put_call : (s.put c call next).calls c = some { call with pc := next.2 } :=
  Function.update_self ..

theorem put_call_of_ne (hc : c' ≠ c) : (s.put c call next).calls c' = s.calls c' :=
  Function.update_of_ne hc ..

/-- After an event of `c`: its call, further on, or another one as it was. -/
theorem put_cases (h : (s.put c call next).calls c' = some call') :
    (c' = c ∧ call' = { call with pc := next.2 }) ∨ (c' ≠ c ∧ s.calls c' = some call') := by
  by_cases hc : c' = c
  · rw [hc, put_call] at h
    exact .inl ⟨hc, (Option.some.inj h).symm⟩
  · rw [put_call_of_ne hc] at h
    exact .inr ⟨hc, h⟩

end Put

-- ==================================================================== the lock

/-- What a call does to the mint lock of its key: nothing, or it takes or
releases it. -/
inductive LockStep (c : Nat) (e e' : TokenEntry ε) (pc pc' : TokenPc ε) : Prop
  | keep : e'.mintLock = e.mintLock → pc'.locks = pc.locks → LockStep c e e' pc pc'
  | take : e.mintLock = none → e'.mintLock = some c → pc'.locks = true → LockStep c e e' pc pc'
  | release : pc.locks = true → e'.mintLock = none → pc'.locks = false → LockStep c e e' pc pc'

theorem locks_underLock (e : TokenEntry ε) (src : TokenSource) (now : Int) (request : TokenRequest) :
    (e.underLock src now request).locks = true := by
  unfold TokenEntry.underLock
  split
  · split <;> rfl
  · split <;> rfl

theorem lockStep_advance {e : TokenEntry ε} {src : TokenSource} {now : Int} {c : Nat}
    {request : TokenRequest} {pc : TokenPc ε} {next : TokenEntry ε × TokenPc ε}
    (h : e.advance src now c request pc = some next) : LockStep c e next.1 pc next.2 := by
  cases pc with
  | tryFresh =>
      simp only [TokenEntry.advance] at h
      split at h
      · cases h
        exact .keep rfl rfl
      · cases h
        refine .keep rfl ?_
        show TokenPc.locks (if src.canMint then .waiting else .handOut) = false
        split <;> rfl
  | waiting =>
      simp only [TokenEntry.advance] at h
      split at h
      · rename_i hfree
        cases h
        exact .take hfree rfl rfl
      · cases h
  | locked =>
      cases h
      exact .keep rfl (locks_underLock ..)
  | mintAndStore =>
      simp only [TokenEntry.advance] at h
      split at h
      · split at h
        · cases h
          exact .keep rfl rfl
        · cases h
          exact .keep rfl rfl
      · cases h
        exact .keep rfl rfl
  | releasing result =>
      cases h
      exact .release rfl rfl rfl
  | minting => cases h
  | returned result => cases h
  | _ =>
      cases h
      exact .keep rfl rfl

/-- The holder of a key's mint lock is the call that has taken it. -/
structure LockInv (s : TokenThreads ε) : Prop where
  holder : ∀ {k c}, (s.entries k).mintLock = some c →
    ∃ call, s.calls c = some call ∧ call.key = k ∧ call.pc.locks = true
  locked : ∀ {c call}, s.calls c = some call → call.pc.locks = true →
    (s.entries call.key).mintLock = some c

/-- One holder at most. -/
theorem LockInv.unique (h : LockInv s) {c c' : Nat} {call call' : TokenCall ε}
    (hc : s.calls c = some call) (hc' : s.calls c' = some call') (hkey : call.key = call'.key)
    (hlocks : call.pc.locks = true) (hlocks' : call'.pc.locks = true) : c = c' := by
  have hlock := h.locked hc hlocks
  rw [hkey, h.locked hc' hlocks'] at hlock
  exact (Option.some.inj hlock).symm

theorem LockInv.put (h : LockInv s) {c : Nat} {call : TokenCall ε}
    {next : TokenEntry ε × TokenPc ε} (hcall : s.calls c = some call)
    (hstep : LockStep c (s.entries call.key) next.1 call.pc next.2) :
    LockInv (s.put c call next) := by
  refine ⟨?_, ?_⟩
  · intro k c' hlock
    by_cases hk : k = call.key
    · subst hk
      rw [put_entry] at hlock
      cases hstep with
      | keep hsame hlocks =>
          rw [hsame] at hlock
          obtain ⟨call', hcall', hkey, hlocked⟩ := h.holder hlock
          by_cases hc : c' = c
          · subst hc
            rw [hcall] at hcall'
            cases hcall'
            exact ⟨_, put_call, rfl, hlocks.trans hlocked⟩
          · exact ⟨call', (put_call_of_ne hc).trans hcall', hkey, hlocked⟩
      | take _ htake hlocks =>
          rw [htake] at hlock
          cases hlock
          exact ⟨_, put_call, rfl, hlocks⟩
      | release _ hfree _ =>
          rw [hfree] at hlock
          cases hlock
    · rw [put_entry_of_ne hk] at hlock
      obtain ⟨call', hcall', hkey, hlocked⟩ := h.holder hlock
      have hc : c' ≠ c := by
        intro hc
        rw [hc, hcall] at hcall'
        cases hcall'
        exact hk hkey.symm
      exact ⟨call', (put_call_of_ne hc).trans hcall', hkey, hlocked⟩
  · intro c' call' hcall' hlocks
    rcases put_cases hcall' with ⟨rfl, rfl⟩ | ⟨hc, hcall'⟩
    · rw [put_entry]
      cases hstep with
      | keep hsame hsame' =>
          rw [hsame]
          exact h.locked hcall (hsame'.symm.trans hlocks)
      | take _ htake _ => exact htake
      | release _ _ hfree =>
          rw [show next.2.locks = true from hlocks] at hfree
          cases hfree
    · have hlock := h.locked hcall' hlocks
      by_cases hk : call'.key = call.key
      · rw [hk] at hlock ⊢
        rw [put_entry]
        cases hstep with
        | keep hsame _ => rw [hsame, hlock]
        | take hfree _ _ =>
            rw [hfree] at hlock
            cases hlock
        | release hlocked _ _ =>
            exact absurd (h.unique hcall' hcall hk hlocks hlocked) hc
      · rw [put_entry_of_ne hk]
        exact hlock

theorem seed_rest (e : TokenEntry ε) (now : Int) (token : Str) :
    (e.seed now token).mintLock = e.mintLock ∧ (e.seed now token).failure = e.failure ∧
      (e.seed now token).mints = e.mints ∧
      ∀ t, e.cached = some t → (e.seed now token).cached = some t := by
  unfold TokenEntry.seed
  split
  · exact ⟨rfl, rfl, rfl, fun _ => id⟩
  · split
    · exact ⟨rfl, rfl, rfl, fun _ => id⟩
    · rename_i hnone
      refine ⟨rfl, rfl, rfl, ?_⟩
      intro t ht
      rw [hnone] at ht
      cases ht

/-- After an entry is seeded: what the key's entry is. -/
theorem seeded_entry (key seed : Str) :
    (Function.update s.entries key ((s.entries key).seed s.now seed) k = s.entries k) ∨
      Function.update s.entries key ((s.entries key).seed s.now seed) k =
        (s.entries k).seed s.now seed := by
  by_cases hk : k = key
  · right
    rw [hk, Function.update_self]
  · left
    exact Function.update_of_ne hk ..

theorem LockInv.step (h : LockInv s) {event : TokenEvent ε} (hs : Steps sources s event s') :
    LockInv s' := by
  cases hs with
  | tick seconds => exact ⟨h.holder, h.locked⟩
  | construct key seed =>
      have hlock : ∀ k, (Function.update s.entries key ((s.entries key).seed s.now seed) k).mintLock =
          (s.entries k).mintLock := by
        intro k
        rcases seeded_entry (s := s) (k := k) key seed with heq | heq
        · rw [heq]
        · rw [heq]
          exact (seed_rest ..).1
      refine ⟨?_, ?_⟩
      · intro k c hc
        exact h.holder ((hlock k).symm.trans hc)
      · intro c call hcall hlocks
        exact (hlock _).trans (h.locked hcall hlocks)
  | call c key request hnone =>
      refine ⟨?_, ?_⟩
      · intro k c' hc
        obtain ⟨call, hcall, hrest⟩ := h.holder hc
        refine ⟨call, ?_, hrest⟩
        have hne : c' ≠ c := by
          intro heq
          rw [heq, hnone] at hcall
          cases hcall
        exact (Function.update_of_ne hne ..).trans hcall
      · intro c' call hcall hlocks
        by_cases hc : c' = c
        · simp only [hc, Function.update_self] at hcall
          cases hcall
          cases request <;> cases hlocks
        · simp only [Function.update_of_ne hc] at hcall
          exact h.locked hcall hlocks
  | proceed c call next hcall hnext => exact h.put hcall (lockStep_advance hnext)
  | mintReturns c call token hcall hpc => exact h.put hcall (.keep rfl (by rw [hpc]; rfl))
  | mintThrows c call error hcall hpc => exact h.put hcall (.keep rfl (by rw [hpc]; rfl))

-- ================================================================== the failure

/-- The key's entry is changed by calls that hold its lock, or take it. -/
theorem entry_advance {e : TokenEntry ε} {src : TokenSource} {now : Int} {c : Nat}
    {request : TokenRequest} {pc : TokenPc ε} {next : TokenEntry ε × TokenPc ε}
    (h : e.advance src now c request pc = some next) :
    next.1 = e ∨ pc.locks = true ∨ next.2.locks = true := by
  cases pc with
  | tryFresh =>
      simp only [TokenEntry.advance] at h
      split at h
      · cases h
        exact .inl rfl
      · cases h
        exact .inl rfl
  | handOut =>
      cases h
      exact .inl rfl
  | waiting =>
      simp only [TokenEntry.advance] at h
      split at h
      · cases h
        exact .inr (.inr rfl)
      · cases h
  | returned result => cases h
  | _ => exact .inr (.inl rfl)

/-- The other calls of the key do not hold the lock where the entry changes. -/
theorem LockInv.others_unlocked (h : LockInv s) {c c' : Nat} {call call' : TokenCall ε}
    {next : TokenEntry ε × TokenPc ε} (hcall : s.calls c = some call)
    (hnext : LockStep c (s.entries call.key) next.1 call.pc next.2)
    (hlocks : call.pc.locks = true ∨ next.2.locks = true) (hcall' : s.calls c' = some call')
    (hkey : call'.key = call.key) (hc : c' ≠ c) : call'.pc.locks = false := by
  cases hother : call'.pc.locks with
  | false => rfl
  | true =>
      have hlock := h.locked hcall' hother
      rw [hkey] at hlock
      cases hnext with
      | keep hsame hlocks' =>
          have hmine : call.pc.locks = true := by
            rcases hlocks with hmine | hmine
            · exact hmine
            · exact hlocks'.symm.trans hmine
          exact absurd (h.unique hcall' hcall hkey hother hmine) hc
      | take hfree _ _ =>
          rw [hfree] at hlock
          cases hlock
      | release hmine _ _ => exact absurd (h.unique hcall' hcall hkey hother hmine) hc

/-- What the holder of the lock knows of the remembered failure. -/
structure MemoPc (e : TokenEntry ε) (pc : TokenPc ε) : Prop where
  cleared : pc.inMint = true → e.failure = none
  stored : ∀ x, pc = .releasing (.error x) → ∃ u, e.failure = some ⟨x, u⟩

theorem memoPc_unlocked {e : TokenEntry ε} {pc : TokenPc ε} (h : pc.locks = false) : MemoPc e pc := by
  refine ⟨?_, ?_⟩
  · intro hin
    cases pc with
    | tryFresh | handOut | waiting | returned => exact absurd hin Bool.false_ne_true
    | _ => cases h
  · intro x hpc
    rw [hpc] at h
    cases h

theorem memoPc_advance {e : TokenEntry ε} {src : TokenSource} {now : Int} {c : Nat}
    {request : TokenRequest} {pc : TokenPc ε} {next : TokenEntry ε × TokenPc ε}
    (h : MemoPc e pc) (hnext : e.advance src now c request pc = some next) :
    MemoPc next.1 next.2 := by
  cases pc with
  | tryFresh =>
      simp only [TokenEntry.advance] at hnext
      split at hnext
      · cases hnext
        exact memoPc_unlocked rfl
      · cases hnext
        refine memoPc_unlocked ?_
        show TokenPc.locks (if src.canMint then .waiting else .handOut) = false
        split <;> rfl
  | handOut =>
      cases hnext
      exact memoPc_unlocked rfl
  | waiting =>
      simp only [TokenEntry.advance] at hnext
      split at hnext
      · cases hnext
        exact ⟨nofun, nofun⟩
      · cases hnext
  | locked =>
      cases hnext
      show MemoPc e (e.underLock src now request)
      unfold TokenEntry.underLock
      split
      · split <;> exact ⟨nofun, nofun⟩
      · split <;> exact ⟨nofun, nofun⟩
  | mintAndStore =>
      simp only [TokenEntry.advance] at hnext
      split at hnext
      · rename_i f hf
        split at hnext
        · cases hnext
          refine ⟨nofun, ?_⟩
          intro x hx
          cases hx
          exact ⟨_, hf⟩
        · cases hnext
          exact ⟨fun _ => rfl, nofun⟩
      · rename_i hnone
        cases hnext
        exact ⟨fun _ => hnone, nofun⟩
  | toMint =>
      cases hnext
      exact ⟨fun _ => h.cleared rfl, nofun⟩
  | minting => cases hnext
  | minted token =>
      cases hnext
      exact ⟨fun _ => h.cleared rfl, nofun⟩
  | storing token =>
      cases hnext
      exact ⟨nofun, nofun⟩
  | failed error =>
      cases hnext
      refine ⟨nofun, ?_⟩
      intro x hx
      cases hx
      exact ⟨_, rfl⟩
  | releasing result =>
      cases hnext
      exact memoPc_unlocked rfl
  | returned result => cases hnext

/-- What holds in every interleaving. -/
structure TokenInv (s : TokenThreads ε) : Prop where
  lock : LockInv s
  memo : ∀ {c call}, s.calls c = some call → MemoPc (s.entries call.key) call.pc

theorem TokenInv.put (h : TokenInv s) {c : Nat} {call : TokenCall ε}
    {next : TokenEntry ε × TokenPc ε} (hcall : s.calls c = some call)
    (hstep : LockStep c (s.entries call.key) next.1 call.pc next.2)
    (hentry : next.1 = s.entries call.key ∨ call.pc.locks = true ∨ next.2.locks = true)
    (hmemo : MemoPc next.1 next.2) : TokenInv (s.put c call next) := by
  refine ⟨h.lock.put hcall hstep, ?_⟩
  intro c' call' hcall'
  rcases put_cases hcall' with ⟨rfl, rfl⟩ | ⟨hc, hcall'⟩
  · show MemoPc ((s.put c' call next).entries call.key) next.2
    rw [put_entry]
    exact hmemo
  · by_cases hk : call'.key = call.key
    · rw [hk, put_entry]
      rcases hentry with hsame | hlocks
      · rw [hsame, ← hk]
        exact h.memo hcall'
      · exact memoPc_unlocked (h.lock.others_unlocked hcall hstep hlocks hcall' hk hc)
    · rw [put_entry_of_ne hk]
      exact h.memo hcall'

theorem TokenInv.step (h : TokenInv s) {event : TokenEvent ε} (hs : Steps sources s event s') :
    TokenInv s' := by
  have hlock := h.lock.step hs
  cases hs with
  | tick seconds => exact ⟨hlock, h.memo⟩
  | construct key seed =>
      refine ⟨hlock, ?_⟩
      intro c call hcall
      have hmemo := h.memo hcall
      rcases seeded_entry (s := s) (k := call.key) key seed with heq | heq
      · show MemoPc (Function.update s.entries key _ call.key) call.pc
        rw [heq]
        exact hmemo
      · show MemoPc (Function.update s.entries key _ call.key) call.pc
        rw [heq]
        have hsame := (seed_rest (s.entries call.key) s.now seed).2.1
        exact ⟨fun hin => hsame.trans (hmemo.cleared hin), fun x hx => by
          rw [hsame]
          exact hmemo.stored x hx⟩
  | call c key request hnone =>
      refine ⟨hlock, ?_⟩
      intro c' call hcall
      by_cases hc : c' = c
      · simp only [hc, Function.update_self] at hcall
        cases hcall
        exact memoPc_unlocked (by cases request <;> rfl)
      · simp only [Function.update_of_ne hc] at hcall
        exact h.memo hcall
  | proceed c call next hcall hnext =>
      exact h.put hcall (lockStep_advance hnext) (entry_advance hnext)
        (memoPc_advance (h.memo hcall) hnext)
  | mintReturns c call token hcall hpc =>
      refine h.put hcall (.keep rfl (by rw [hpc]; rfl)) (.inl rfl) ⟨?_, nofun⟩
      intro _
      exact (h.memo hcall).cleared (by rw [hpc]; rfl)
  | mintThrows c call error hcall hpc =>
      refine h.put hcall (.keep rfl (by rw [hpc]; rfl)) (.inl rfl) ⟨?_, nofun⟩
      intro _
      exact (h.memo hcall).cleared (by rw [hpc]; rfl)

theorem TokenInv.run {P : TokenThreads ε → TokenEvent ε → TokenThreads ε → Prop} (h : TokenInv s)
    (hrun : Runs (TokenThreads.step sources) P s s') : TokenInv s' :=
  Runs.inv (fun hinv hs _ => hinv.step (steps_of_step hs)) h hrun

theorem tokenInv_start (now : Int) : TokenInv ({ now } : TokenThreads ε) := by
  refine ⟨⟨?_, ?_⟩, ?_⟩
  · intro k c hlock
    cases hlock
  · intro c call hcall
    cases hcall
  · intro c call hcall
    cases hcall

theorem Reachable.inv (h : Reachable sources s) : TokenInv s := by
  obtain ⟨now, hrun⟩ := h
  exact (tokenInv_start now).run hrun

end TokenThreads

end GDrive
