/-
The process: what all its token sources share, and the threads that resolve
secrets and use what they got.

# The world

`AuthWorld` is the clock, what the process keeps of every cache key (the
`TokenEntry` of TokenThreads, whose functions say what each critical section
does), and a record of what came from outside and went there: the secrets that
were looked up and written back, the requests to token endpoints with their
answers, the tokens of browser flows, the files that were read. `authRel`
answers a thread; the endpoints, the files, the secrets and the settings answer
as they like, and the clock goes on by itself.

# The threads

A thread resolves a path to a context, or asks the source of a context that
some thread has resolved for a token, or to replace a token that was rejected
(`Starts`). That is all that a process of any number of databases, handles and
threads does with its credentials.
-/
import GDrive.Auth.Sources
import GDrive.Interaction.Pool

namespace GDrive

open Interaction

-- ==================================================================== the world

/-- What is written back into a secret after a browser flow. -/
structure SecretUpdate where
  secretName : Str
  accessToken : Str
  expiresIn : Int
  refreshToken : Str

structure AuthWorld where
  now : Int
  entries : Str → TokenEntry Exn := fun _ => {}
  lookups : List (Str × KeyValueSecret) := []
  posts : List (TokenPost × Option TokenReply) := []
  consents : List (OAuth2Config × OAuth2Tokens) := []
  reads : List (Str × Str) := []
  updates : List SecretUpdate := []

/-- What is kept of a cache key is replaced. -/
def AuthWorld.set (w : AuthWorld) (cacheKey : Str) (e : TokenEntry Exn) : AuthWorld :=
  { w with entries := Function.update w.entries cacheKey e }

/-- No separator in any value: what the fingerprints rely on. -/
def KeyValueSecret.Plain (kv : KeyValueSecret) : Prop :=
  31 ∉ kv.name ∧ ∀ f ∈ kv.fields, ∀ value, f.2 = some value → 31 ∉ value

/-- A value from outside that may go into a fingerprint. -/
def PlainValue (value : Option Str) : Prop := ∀ s, value = some s → 31 ∉ s

/-- The token that is cached, or nothing. -/
def TokenEntry.cachedToken (e : TokenEntry Exn) : Str := e.cached.elim [] (·.accessToken)

/-- What a thread has come to. -/
inductive AuthOutcome
  | resolved (path : Str) (r : Except Exn GDriveAuthContext)
  | token (path : Str) (ctx : GDriveAuthContext) (r : Except Exn Str)

section Threads

variable (pj : Picojson) (expiresIn : Str → Int) (sign : Str → Str → Str)
  (sha256 : Str → Option Str)

/-- What a thread can be started with, given what others have come to. -/
inductive Starts (given : AuthOutcome → Prop) : Prog Auth AuthOutcome → Prop
  | resolve (posixNonApple : Bool) (address : Nat) (path : Str) :
      Starts given
        ((getAuthContext pj expiresIn sign sha256 posixNonApple address path).bind fun r =>
          .ret (.resolved path r))
  | token (path : Str) (ctx : GDriveAuthContext) : given (.resolved path (.ok ctx)) →
      Starts given
        ((ctx.tokens.token pj expiresIn sign sha256).bind fun r => .ret (.token path ctx r))
  | refresh (path : Str) (ctx : GDriveAuthContext) (rejected : Str) :
      given (.resolved path (.ok ctx)) →
      Starts given
        ((ctx.tokens.refresh pj expiresIn sign sha256 rejected).bind fun r =>
          .ret (.token path ctx r))

end Threads

-- ================================================================ what goes on

/-- The records only grow. -/
structure AuthWorld.Grows (w w' : AuthWorld) : Prop where
  lookups : ∀ l ∈ w.lookups, l ∈ w'.lookups
  posts : ∀ p ∈ w.posts, p ∈ w'.posts
  consents : ∀ c ∈ w.consents, c ∈ w'.consents
  reads : ∀ r ∈ w.reads, r ∈ w'.reads
  updates : ∀ u ∈ w.updates, u ∈ w'.updates

theorem AuthWorld.Grows.refl (w : AuthWorld) : w.Grows w :=
  ⟨fun _ h => h, fun _ h => h, fun _ h => h, fun _ h => h, fun _ h => h⟩

theorem AuthWorld.Grows.trans {w w' w'' : AuthWorld} (h : w.Grows w') (h' : w'.Grows w'') :
    w.Grows w'' :=
  ⟨fun l hl => h'.lookups l (h.lookups l hl), fun p hp => h'.posts p (h.posts p hp),
    fun c hc => h'.consents c (h.consents c hc), fun r hr => h'.reads r (h.reads r hr),
    fun u hu => h'.updates u (h.updates u hu)⟩

theorem AuthWorld.Grows.set (w : AuthWorld) (cacheKey : Str) (e : TokenEntry Exn) :
    w.Grows (w.set cacheKey e) :=
  ⟨fun _ h => h, fun _ h => h, fun _ h => h, fun _ h => h, fun _ h => h⟩

end GDrive
