/-
`GetOrFetchMetadata` (gdrive_path_cache.cpp) under concurrency: any number of
queries and threads, interleaved at the granularity of the cache's lock.

# The model

A cached entry is the future of a fetch, and a fetch is known by a number.
Queries begin at a moment of the model's clock, and so do operations between
statements; a fetch begins at the moment of the call that starts it. The
numbers 0 (no query) and `maximumQueryId` (between statements) are of no
query. `OpenFile` and `Glob` announce their query's number (`BeginQuery`)
before anything else; the other operations do not.

# What holds

A fetch that finds nothing, or fails, erases its key's entry, whichever fetch
that entry is of. So a fetch of an earlier incarnation can take out the entry
of a later one, and a second fetch starts beside it; no more than one is in
flight as long as that does not happen (`metadata_single_flight`).

An operation that has not announced its query reads what another has left in
the cache, and so does one between statements, whose number is not its own.
What a call returns was asked for since its query began as long as no such
call finds an entry, and no refresh falls back (`metadata_of_own_query`).
-/
import GDrive.Interaction.Threads
import GDrive.Auth.Identity

namespace GDrive

open Interaction

/-- The operations that ask for metadata. -/
inductive MetadataCaller
  | openFile | glob | fileExists | directoryExists | listFiles | removeFile | moveFile
  | removeDirectory
  deriving DecidableEq

/-- The operations that call `BeginQuery` first. -/
def MetadataCaller.announces : MetadataCaller → Bool
  | .openFile | .glob => true
  | _ => false

structure MetadataOperation where
  caller : MetadataCaller
  /-- The active query's number when it started. -/
  query : Nat
  /-- When its query began, or itself if it has none. -/
  began : Nat
  announced : Bool := false
  /-- Its announcement gave the cache its own number, or started it over. -/
  rescoped : Bool := false

structure MetadataRequest where
  auth : AuthContext
  fileId : Str
  /-- What the refresh of `OpenFile` answers where its request fails. -/
  fallback : Option DriveFileMeta := none

def MetadataRequest.key (q : MetadataRequest) : Str := metadataKey q.auth q.fileId

inductive MetadataOutcome (ε : Type)
  | found (file : DriveFileMeta)
  /-- Not from the request: what the resolver had. -/
  | fellBack (file : DriveFileMeta)
  | notFound
  | failed (error : ε)

/-- A request and its circumstances. -/
structure MetadataFetch where
  request : MetadataRequest
  began : Nat
  /-- Is it cached? Not where no query has been announced. -/
  published : Bool

structure MetadataCall (ε : Type) where
  operation : Nat
  request : MetadataRequest
  fetch : Nat
  result : Option (MetadataOutcome ε) := none

structure MetadataThreads (ε : Type) where
  /-- The fetch whose future an entry is. -/
  entries : AList fun _ : Str => Nat := ∅
  /-- `metadata_generation`. -/
  generation : Nat := 0
  clock : Nat := 0
  nextFetch : Nat := 0
  /-- When a query began. -/
  queries : Nat → Option Nat := fun _ => none
  operations : Nat → Option MetadataOperation := fun _ => none
  fetches : FutureTable MetadataFetch (MetadataOutcome ε) := fun _ => none
  calls : Nat → Option (MetadataCall ε) := fun _ => none

inductive MetadataEvent (ε : Type)
  | startQuery (query : Nat)
  | startOperation (operation : Nat) (caller : MetadataCaller) (query : Nat)
  | beginQuery (operation : Nat)
  /-- The first critical section of `GetOrFetchMetadata`. -/
  | getOrFetch (call operation : Nat) (request : MetadataRequest)
  /-- A fetch found the file, and its promise is set. -/
  | found (fetch : Nat) (file : DriveFileMeta)
  | fellBack (fetch : Nat)
  /-- A fetch found no file, or threw, and has been through the lock. -/
  | notFound (fetch : Nat)
  | failed (fetch : Nat) (error : ε)
  /-- The promise of such a fetch is set. -/
  | delivered (fetch : Nat)
  | returned (call : Nat)
  | invalidatePrefix (auth : AuthContext)
  | clear

namespace MetadataThreads

variable {ε : Type}

def isQuery (query : Nat) : Prop := query ≠ 0 ∧ query ≠ maximumQueryId

instance : DecidablePred isQuery := fun _ => inferInstanceAs (Decidable (_ ∧ _))

/-- When an operation's query began; between statements, now. -/
def beginning (s : MetadataThreads ε) (query : Nat) : Option Nat :=
  if isQuery query then s.queries query else some (s.clock + 1)

/-- `BeginQuery`. -/
def announce (s : MetadataThreads ε) (o : Nat) (op : MetadataOperation) : MetadataThreads ε :=
  if op.query = s.generation then
    { s with
      operations := Function.update s.operations o
        (some { op with announced := true, rescoped := op.query ≠ maximumQueryId }) }
  else
    { s with
      entries := ∅
      generation := op.query
      operations := Function.update s.operations o
        (some { op with announced := true, rescoped := true }) }

/-- A new fetch for a call. -/
def startFetch (s : MetadataThreads ε) (c o : Nat) (q : MetadataRequest) (published : Bool) :
    MetadataThreads ε :=
  { s with
    clock := s.clock + 1
    nextFetch := s.nextFetch + 1
    fetches := Function.update s.fetches (s.nextFetch + 1)
      (some { request := ⟨q, s.clock + 1, published⟩ })
    calls := Function.update s.calls c (some ⟨o, q, s.nextFetch + 1, none⟩) }

/-- The first critical section: an entry's future, or a new fetch. -/
def getOrFetch (s : MetadataThreads ε) (c o : Nat) (q : MetadataRequest) : MetadataThreads ε :=
  if s.generation = 0 then s.startFetch c o q false
  else
    match s.entries.lookup q.key with
    | some g => { s with calls := Function.update s.calls c (some ⟨o, q, g, none⟩) }
    | none =>
        { s.startFetch c o q true with entries := s.entries.insert q.key (s.nextFetch + 1) }

/-- A fetch without a file. What it erases is its key's entry, not its own. -/
def miss (s : MetadataThreads ε) (g : Nat) (outcome : MetadataOutcome ε) :
    Option (MetadataThreads ε) :=
  match s.fetches g with
  | some ⟨f, .running⟩ =>
      some { s with
        entries := if f.published then s.entries.erase f.request.key else s.entries
        fetches := Function.update s.fetches g (some ⟨f, .settled outcome⟩) }
  | _ => none

/-- A fetch with a file. Its entry stays. -/
def hit (s : MetadataThreads ε) (g : Nat) (outcome : MetadataFetch → Option (MetadataOutcome ε)) :
    Option (MetadataThreads ε) :=
  match s.fetches g with
  | some ⟨f, .running⟩ =>
      (outcome f).map fun r =>
        { s with fetches := Function.update s.fetches g (some ⟨f, .delivered r⟩) }
  | _ => none

/-- One event, where it can happen. -/
def step (s : MetadataThreads ε) : MetadataEvent ε → Option (MetadataThreads ε)
  | .startQuery query =>
      if isQuery query ∧ s.queries query = none then
        some { s with
          clock := s.clock + 1
          queries := Function.update s.queries query (some (s.clock + 1)) }
      else none
  | .startOperation o caller query =>
      if s.operations o = none then
        (s.beginning query).map fun began =>
          { s with
            clock := s.clock + 1
            operations := Function.update s.operations o (some { caller, query, began }) }
      else none
  | .beginQuery o =>
      match s.operations o with
      | some op =>
          if op.caller.announces ∧ op.announced = false then some (s.announce o op) else none
      | none => none
  | .getOrFetch c o q =>
      match s.operations o with
      | some op =>
          if (op.caller.announces → op.announced) ∧ (q.fallback.isSome → op.caller = .openFile) ∧
              (s.calls c).isNone then
            some (s.getOrFetch c o q)
          else none
      | none => none
  | .found g file => s.hit g fun _ => some (.found file)
  | .fellBack g => s.hit g fun f => f.request.fallback.map .fellBack
  | .notFound g => s.miss g .notFound
  | .failed g error => s.miss g (.failed error)
  | .delivered g =>
      match s.fetches g with
      | some ⟨f, .settled outcome⟩ =>
          some { s with fetches := Function.update s.fetches g (some ⟨f, .delivered outcome⟩) }
      | _ => none
  | .returned c =>
      match s.calls c with
      | some ⟨o, q, g, none⟩ =>
          match s.fetches g with
          | some ⟨_, .delivered outcome⟩ =>
              some { s with calls := Function.update s.calls c (some ⟨o, q, g, some outcome⟩) }
          | _ => none
      | _ => none
  | .invalidatePrefix auth =>
      some { s with entries := keepKeys (fun k => !auth.metadataPrefix.isPrefixOf k) s.entries }
  | .clear => some { s with entries := ∅ }

/-- What any interleaving of any operations leads to. -/
def Reachable (s : MetadataThreads ε) : Prop := Runs step (fun _ _ _ => True) {} s

-- =============================================================== the invariant

variable {s s' : MetadataThreads ε}

/-- What ties the entries to the fetches, and both to the clock. -/
structure MetadataInv (s : MetadataThreads ε) : Prop where
  fetch_le : ∀ {g f}, s.fetches g = some f → g ≤ s.nextFetch
  query_le : ∀ {q t}, s.queries q = some t → t ≤ s.clock
  current : isQuery s.generation → s.queries s.generation ≠ none
  unscoped : s.generation = 0 → ∀ k, s.entries.lookup k = none
  operation : ∀ {o op}, s.operations o = some op → op.began ≤ s.clock ∧
    (isQuery op.query → s.queries op.query = some op.began)
  entry : ∀ {k g}, s.entries.lookup k = some g →
    ∃ f, s.fetches g = some f ∧ f.request.request.key = k ∧
      ∀ {t}, isQuery s.generation → s.queries s.generation = some t → t < f.request.began
  rescoped : ∀ {o op k g f}, s.operations o = some op → op.rescoped = true →
    s.entries.lookup k = some g → s.fetches g = some f → op.began < f.request.began
  call : ∀ {c call}, s.calls c = some call →
    ∃ f op, s.fetches call.fetch = some f ∧ s.operations call.operation = some op ∧
      f.request.request.key = call.request.key ∧
      ∀ r, call.result = some r → f.status = .delivered r

theorem metadataInv_start : MetadataInv ({} : MetadataThreads ε) :=
  ⟨nofun, nofun, fun h => absurd rfl h.1, fun _ _ => rfl, nofun, nofun, nofun, nofun⟩

/-- Entries are taken out. -/
theorem MetadataInv.shrink (h : MetadataInv s) {entries : AList fun _ : Str => Nat}
    (hentries : ∀ {k g}, entries.lookup k = some g → s.entries.lookup k = some g) :
    MetadataInv { s with entries } := by
  refine ⟨h.fetch_le, h.query_le, h.current, ?_, h.operation, fun he => h.entry (hentries he), ?_,
    h.call⟩
  · intro hzero k
    cases he : entries.lookup k with
    | none => rfl
    | some g =>
        have hnone := h.unscoped hzero k
        rw [hentries he] at hnone
        cases hnone
  · intro o op k g f ho hrescoped he hf
    exact h.rescoped ho hrescoped (hentries he) hf

/-- A fetch goes on to another status. -/
theorem MetadataInv.progress (h : MetadataInv s) {g : Nat} {f : MetadataFetch}
    {status status' : FutureStatus (MetadataOutcome ε)} (hf : s.fetches g = some ⟨f, status⟩)
    (hstatus : ∀ r, status ≠ .delivered r) :
    MetadataInv { s with fetches := Function.update s.fetches g (some ⟨f, status'⟩) } := by
  have hother : ∀ {g' f'}, s.fetches g' = some f' →
      ∃ f'', Function.update s.fetches g (some ⟨f, status'⟩) g' = some f'' ∧
        f''.request = f'.request ∧ ((∃ r, f'.status = .delivered r) → f'' = f') := by
    intro g' f' hf'
    by_cases hg : g' = g
    · rw [hg, hf] at hf'
      cases hf'
      refine ⟨⟨f, status'⟩, by rw [hg]; exact Function.update_self .., rfl, ?_⟩
      intro ⟨r, hr⟩
      exact absurd hr (hstatus r)
    · exact ⟨f', by rw [Function.update_of_ne hg]; exact hf', rfl, fun _ => rfl⟩
  refine ⟨?_, h.query_le, h.current, h.unscoped, h.operation, ?_, ?_, ?_⟩
  · intro g' f' hf'
    by_cases hg : g' = g
    · rw [hg]
      exact h.fetch_le hf
    · simp only [Function.update_of_ne hg] at hf'
      exact h.fetch_le hf'
  · intro k g' he
    obtain ⟨f', hf', hrest⟩ := h.entry he
    obtain ⟨f'', hf'', hrequest, -⟩ := hother hf'
    rw [← hrequest] at hrest
    exact ⟨f'', hf'', hrest⟩
  · intro o op k g' f'' ho hrescoped he hf''
    obtain ⟨f', hf', -⟩ := h.entry he
    obtain ⟨f₁, hf₁, hrequest, -⟩ := hother hf'
    simp only at hf''
    rw [hf''] at hf₁
    cases hf₁
    rw [hrequest]
    exact h.rescoped ho hrescoped he hf'
  · intro c call hcall
    obtain ⟨f', op, hf', ho, hkey, hresult⟩ := h.call hcall
    obtain ⟨f'', hf'', hrequest, hsame⟩ := hother hf'
    refine ⟨f'', op, hf'', ho, by rw [hrequest]; exact hkey, ?_⟩
    intro r hr
    rw [hsame ⟨r, hresult r hr⟩]
    exact hresult r hr

theorem MetadataInv.startQuery (h : MetadataInv s) {query : Nat} (hnone : s.queries query = none) :
    MetadataInv { s with
      clock := s.clock + 1
      queries := Function.update s.queries query (some (s.clock + 1)) } := by
  -- The new query is none that the cache or an operation is of.
  have hother : ∀ {q}, s.queries q ≠ none → Function.update s.queries query (some (s.clock + 1)) q =
      s.queries q := by
    intro q hq
    refine Function.update_of_ne ?_ ..
    intro heq
    exact hq (by rw [heq]; exact hnone)
  refine ⟨h.fetch_le, ?_, ?_, h.unscoped, ?_, ?_, h.rescoped, h.call⟩
  · intro q t ht
    by_cases hq : q = query
    · simp only [hq, Function.update_self, Option.some.injEq] at ht
      exact le_of_eq ht.symm
    · simp only [Function.update_of_ne hq] at ht
      exact le_trans (h.query_le ht) (Nat.le_succ _)
  · intro hquery
    have hcurrent := h.current hquery
    simp only
    rw [hother hcurrent]
    exact hcurrent
  · intro o op ho
    obtain ⟨hle, hbegan⟩ := h.operation ho
    refine ⟨le_trans hle (Nat.le_succ _), ?_⟩
    intro hquery
    have hsome := hbegan hquery
    simp only
    rw [hother (by rw [hsome]; exact nofun)]
    exact hsome
  · intro k g he
    obtain ⟨f, hf, hkey, hbegan⟩ := h.entry he
    refine ⟨f, hf, hkey, ?_⟩
    intro t hquery ht
    simp only at hquery ht
    rw [hother (h.current hquery)] at ht
    exact hbegan hquery ht

theorem MetadataInv.startOperation (h : MetadataInv s) {o : Nat} {caller : MetadataCaller}
    {query began : Nat} (hnone : s.operations o = none) (hbegan : s.beginning query = some began) :
    MetadataInv { s with
      clock := s.clock + 1
      operations := Function.update s.operations o (some { caller, query, began }) } := by
  have hother : ∀ {o' op}, s.operations o' = some op → o' ≠ o := by
    intro o' op ho heq
    rw [heq, hnone] at ho
    cases ho
  refine ⟨h.fetch_le, fun ht => le_trans (h.query_le ht) (Nat.le_succ _), h.current, h.unscoped, ?_,
    h.entry, ?_, ?_⟩
  · intro o' op ho
    by_cases heq : o' = o
    · simp only [heq, Function.update_self, Option.some.injEq] at ho
      rw [← ho]
      unfold beginning at hbegan
      split at hbegan
      · exact ⟨le_trans (h.query_le hbegan) (Nat.le_succ _), fun _ => hbegan⟩
      · rename_i hquery
        cases hbegan
        exact ⟨le_rfl, fun hq => absurd hq hquery⟩
    · simp only [Function.update_of_ne heq] at ho
      obtain ⟨hle, hrest⟩ := h.operation ho
      exact ⟨le_trans hle (Nat.le_succ _), hrest⟩
  · intro o' op k g f ho hrescoped he hf
    by_cases heq : o' = o
    · simp only [heq, Function.update_self, Option.some.injEq] at ho
      rw [← ho] at hrescoped
      cases hrescoped
    · simp only [Function.update_of_ne heq] at ho
      exact h.rescoped ho hrescoped he hf
  · intro c call hcall
    obtain ⟨f, op, hf, ho, hrest⟩ := h.call hcall
    exact ⟨f, op, hf, by simp only [Function.update_of_ne (hother ho)]; exact ho, hrest⟩

/-- An announcement leaves the operations what they were, and gives one of
them the cache as its query has it. -/
theorem MetadataInv.announce (h : MetadataInv s) {o : Nat} {op : MetadataOperation}
    (ho : s.operations o = some op) : MetadataInv (s.announce o op) := by
  obtain ⟨hle, hquery⟩ := h.operation ho
  have hcalls : ∀ {op' c call}, s.calls c = some call →
      ∃ f op'', s.fetches call.fetch = some f ∧
        Function.update s.operations o (some op') call.operation = some op'' ∧
        f.request.request.key = call.request.key ∧
        ∀ r, call.result = some r → f.status = .delivered r := by
    intro op' c call hcall
    obtain ⟨f, op₁, hf, ho₁, hrest⟩ := h.call hcall
    by_cases heq : call.operation = o
    · exact ⟨f, op', hf, by rw [heq]; exact Function.update_self .., hrest⟩
    · exact ⟨f, op₁, hf, by rw [Function.update_of_ne heq]; exact ho₁, hrest⟩
  unfold MetadataThreads.announce
  split
  · rename_i hgeneration
    refine ⟨h.fetch_le, h.query_le, h.current, h.unscoped, ?_, h.entry, ?_, hcalls⟩
    · intro o' op' ho'
      by_cases heq : o' = o
      · simp only [heq, Function.update_self, Option.some.injEq] at ho'
        rw [← ho']
        exact ⟨hle, hquery⟩
      · simp only [Function.update_of_ne heq] at ho'
        exact h.operation ho'
    · intro o' op' k g f ho' hrescoped he hf
      by_cases heq : o' = o
      · simp only [heq, Function.update_self, Option.some.injEq] at ho'
        rw [← ho'] at hrescoped ⊢
        -- The cache is of the operation's query since that query announced itself.
        have hne : op.query ≠ 0 := by
          intro hzero
          rw [hzero] at hgeneration
          have hnone := h.unscoped hgeneration.symm k
          rw [he] at hnone
          cases hnone
        have hproper : isQuery op.query := ⟨hne, of_decide_eq_true hrescoped⟩
        obtain ⟨f', hf', -, hbegan⟩ := h.entry he
        rw [hf] at hf'
        cases hf'
        rw [← hgeneration] at hbegan
        exact hbegan hproper (hquery hproper)
      · simp only [Function.update_of_ne heq] at ho'
        exact h.rescoped ho' hrescoped he hf
  · refine ⟨h.fetch_le, h.query_le, ?_, fun _ _ => rfl, ?_, nofun, nofun, hcalls⟩
    · intro hproper
      rw [hquery hproper]
      exact nofun
    · intro o' op' ho'
      by_cases heq : o' = o
      · simp only [heq, Function.update_self, Option.some.injEq] at ho'
        rw [← ho']
        exact ⟨hle, hquery⟩
      · simp only [Function.update_of_ne heq] at ho'
        exact h.operation ho'

/-- The calls, when a fetch has been added and one of them waits for it. -/
theorem MetadataInv.new_call (h : MetadataInv s) {o : Nat} {op : MetadataOperation}
    (ho : s.operations o = some op) (c : Nat) (q : MetadataRequest) {c' : Nat}
    {call : MetadataCall ε} {fetches : FutureTable MetadataFetch (MetadataOutcome ε)}
    (hfetches : ∀ {g f}, s.fetches g = some f → fetches g = some f) {g : Nat}
    (hg : ∃ f, fetches g = some f ∧ f.request.request.key = q.key)
    (hcall : Function.update s.calls c (some ⟨o, q, g, none⟩) c' = some call) :
    ∃ f op, fetches call.fetch = some f ∧ s.operations call.operation = some op ∧
      f.request.request.key = call.request.key ∧
      ∀ r, call.result = some r → f.status = .delivered r := by
  by_cases heq : c' = c
  · rw [heq, Function.update_self, Option.some.injEq] at hcall
    obtain ⟨f, hf, hkey⟩ := hg
    rw [← hcall]
    exact ⟨f, op, hf, ho, hkey, nofun⟩
  · rw [Function.update_of_ne heq] at hcall
    obtain ⟨f, op', hf, hrest⟩ := h.call hcall
    exact ⟨f, op', hfetches hf, hrest⟩

/-- A call that found an entry. -/
theorem MetadataInv.wait (h : MetadataInv s) {o : Nat} {op : MetadataOperation}
    (ho : s.operations o = some op) (c : Nat) {q : MetadataRequest} {g : Nat}
    (he : s.entries.lookup q.key = some g) :
    MetadataInv { s with calls := Function.update s.calls c (some ⟨o, q, g, none⟩) } := by
  refine ⟨h.fetch_le, h.query_le, h.current, h.unscoped, h.operation, h.entry, h.rescoped, ?_⟩
  intro c' call hcall
  obtain ⟨f, hf, hkey, -⟩ := h.entry he
  exact h.new_call ho c q id ⟨f, hf, hkey⟩ hcall

/-- A new fetch is of no entry yet. -/
theorem MetadataInv.startFetch (h : MetadataInv s) {o : Nat} {op : MetadataOperation}
    (ho : s.operations o = some op) (c : Nat) (q : MetadataRequest) (published : Bool) :
    MetadataInv (s.startFetch c o q published) := by
  -- The new number is of no earlier fetch.
  have hfetches : ∀ {g f}, s.fetches g = some f →
      Function.update s.fetches (s.nextFetch + 1) (some ⟨⟨q, s.clock + 1, published⟩, .running⟩) g =
        some f := by
    intro g f hf
    have hle := h.fetch_le hf
    rw [Function.update_of_ne (by omega)]
    exact hf
  refine ⟨?_, fun ht => le_trans (h.query_le ht) (Nat.le_succ _), h.current, h.unscoped, ?_, ?_, ?_,
    ?_⟩
  · intro g f hf
    by_cases hg : g = s.nextFetch + 1
    · exact le_of_eq hg
    · simp only [MetadataThreads.startFetch, Function.update_of_ne hg] at hf
      exact le_trans (h.fetch_le hf) (Nat.le_succ _)
  · intro o' op' ho'
    obtain ⟨hle, hrest⟩ := h.operation ho'
    exact ⟨le_trans hle (Nat.le_succ _), hrest⟩
  · intro k g he
    obtain ⟨f, hf, hrest⟩ := h.entry he
    exact ⟨f, hfetches hf, hrest⟩
  · intro o' op' k g f ho' hrescoped he hf
    obtain ⟨f', hf', -⟩ := h.entry he
    have heq := hfetches hf'
    simp only [MetadataThreads.startFetch] at hf
    rw [hf] at heq
    cases heq
    exact h.rescoped ho' hrescoped he hf'
  · intro c' call hcall
    exact h.new_call ho c q hfetches ⟨_, Function.update_self .., rfl⟩ hcall

/-- A new fetch and its entry. -/
theorem MetadataInv.publish (h : MetadataInv s) {o : Nat} {op : MetadataOperation}
    (ho : s.operations o = some op) (c : Nat) (q : MetadataRequest) (hgeneration : s.generation ≠ 0) :
    MetadataInv { s.startFetch c o q true with
      entries := s.entries.insert q.key (s.nextFetch + 1) } := by
  have hstart := h.startFetch ho c q true
  have hnew : (s.startFetch c o q true).fetches (s.nextFetch + 1) =
      some ⟨⟨q, s.clock + 1, true⟩, .running⟩ := Function.update_self ..
  refine ⟨hstart.fetch_le, hstart.query_le, hstart.current, fun hzero => absurd hzero hgeneration,
    hstart.operation, ?_, ?_, hstart.call⟩
  · intro k g he
    by_cases hk : k = q.key
    · rw [hk] at he ⊢
      simp only [AList.lookup_insert, Option.some.injEq] at he
      rw [← he]
      refine ⟨_, hnew, rfl, ?_⟩
      intro t _ ht
      exact Nat.lt_succ_of_le (h.query_le ht)
    · simp only [AList.lookup_insert_ne hk] at he
      exact hstart.entry he
  · intro o' op' k g f ho' hrescoped he hf
    by_cases hk : k = q.key
    · rw [hk] at he
      simp only [AList.lookup_insert, Option.some.injEq] at he
      simp only [← he] at hf
      rw [hnew] at hf
      cases hf
      exact Nat.lt_succ_of_le (h.operation ho').1
    · simp only [AList.lookup_insert_ne hk] at he
      exact hstart.rescoped ho' hrescoped he hf

theorem MetadataInv.getOrFetch (h : MetadataInv s) {o : Nat} {op : MetadataOperation}
    (ho : s.operations o = some op) (c : Nat) (q : MetadataRequest) :
    MetadataInv (s.getOrFetch c o q) := by
  unfold MetadataThreads.getOrFetch
  split
  · exact h.startFetch ho c q false
  · rename_i hgeneration
    split
    · rename_i g he
      exact h.wait ho c he
    · exact h.publish ho c q hgeneration

theorem MetadataInv.return (h : MetadataInv s) {c o g : Nat} {q : MetadataRequest}
    {f : MetadataFetch} {outcome : MetadataOutcome ε} (hcall : s.calls c = some ⟨o, q, g, none⟩)
    (hf : s.fetches g = some ⟨f, .delivered outcome⟩) :
    MetadataInv { s with calls := Function.update s.calls c (some ⟨o, q, g, some outcome⟩) } := by
  refine ⟨h.fetch_le, h.query_le, h.current, h.unscoped, h.operation, h.entry, h.rescoped, ?_⟩
  intro c' call hcall'
  by_cases heq : c' = c
  · simp only [heq, Function.update_self, Option.some.injEq] at hcall'
    obtain ⟨f', op, hf', ho, hkey, -⟩ := h.call hcall
    rw [← hcall']
    refine ⟨f', op, hf', ho, hkey, ?_⟩
    intro r hr
    cases hr
    simp only at hf'
    rw [hf] at hf'
    cases hf'
    rfl
  · simp only [Function.update_of_ne heq] at hcall'
    exact h.call hcall'

-- ==================================================================== the steps

theorem lookup_erase_some {entries : AList fun _ : Str => Nat} {k k' : Str} {g : Nat}
    (h : (entries.erase k').lookup k = some g) : entries.lookup k = some g := by
  by_cases hk : k = k'
  · rw [hk, AList.lookup_erase] at h
    cases h
  · rwa [AList.lookup_erase_ne hk] at h

theorem miss_eq {g : Nat} {outcome : MetadataOutcome ε} (hs : s.miss g outcome = some s') :
    ∃ f, s.fetches g = some ⟨f, .running⟩ ∧ s' = { s with
      entries := if f.published then s.entries.erase f.request.key else s.entries
      fetches := Function.update s.fetches g (some ⟨f, .settled outcome⟩) } := by
  unfold miss at hs
  split at hs
  · rename_i f hf
    cases hs
    exact ⟨f, hf, rfl⟩
  · cases hs

theorem hit_eq {g : Nat} {outcome : MetadataFetch → Option (MetadataOutcome ε)}
    (hs : s.hit g outcome = some s') :
    ∃ f r, s.fetches g = some ⟨f, .running⟩ ∧ outcome f = some r ∧
      s' = { s with fetches := Function.update s.fetches g (some ⟨f, .delivered r⟩) } := by
  unfold hit at hs
  split at hs
  · rename_i f hf
    obtain ⟨r, hr, rfl⟩ := Option.map_eq_some_iff.mp hs
    exact ⟨f, r, hf, hr, rfl⟩
  · cases hs

/-- What an event can be, with what it needs and what it does. -/
inductive Step (s : MetadataThreads ε) : MetadataEvent ε → MetadataThreads ε → Prop
  | startQuery {query : Nat} : isQuery query → s.queries query = none →
      Step s (.startQuery query) { s with
        clock := s.clock + 1
        queries := Function.update s.queries query (some (s.clock + 1)) }
  | startOperation {o query began : Nat} {caller : MetadataCaller} : s.operations o = none →
      s.beginning query = some began →
      Step s (.startOperation o caller query) { s with
        clock := s.clock + 1
        operations := Function.update s.operations o (some { caller, query, began }) }
  | beginQuery {o : Nat} {op : MetadataOperation} : s.operations o = some op →
      op.caller.announces = true → op.announced = false → Step s (.beginQuery o) (s.announce o op)
  | getOrFetch {c o : Nat} {op : MetadataOperation} {q : MetadataRequest} :
      s.operations o = some op → (op.caller.announces = true → op.announced = true) →
      s.calls c = none → Step s (.getOrFetch c o q) (s.getOrFetch c o q)
  | hit {event : MetadataEvent ε} {g : Nat} {f : MetadataFetch} {r : MetadataOutcome ε} :
      (event = .fellBack g ∨ ∃ file, event = .found g file ∧ r = .found file) →
      s.fetches g = some ⟨f, .running⟩ →
      Step s event { s with fetches := Function.update s.fetches g (some ⟨f, .delivered r⟩) }
  | miss {event : MetadataEvent ε} {g : Nat} {f : MetadataFetch} {r : MetadataOutcome ε} :
      (event = .notFound g ∧ r = .notFound ∨ ∃ e, event = .failed g e ∧ r = .failed e) →
      s.fetches g = some ⟨f, .running⟩ →
      Step s event { s with
        entries := if f.published then s.entries.erase f.request.key else s.entries
        fetches := Function.update s.fetches g (some ⟨f, .settled r⟩) }
  | delivered {g : Nat} {f : MetadataFetch} {r : MetadataOutcome ε} :
      s.fetches g = some ⟨f, .settled r⟩ →
      Step s (.delivered g)
        { s with fetches := Function.update s.fetches g (some ⟨f, .delivered r⟩) }
  | returned {c o g : Nat} {q : MetadataRequest} {f : MetadataFetch} {r : MetadataOutcome ε} :
      s.calls c = some ⟨o, q, g, none⟩ → s.fetches g = some ⟨f, .delivered r⟩ →
      Step s (.returned c)
        { s with calls := Function.update s.calls c (some ⟨o, q, g, some r⟩) }
  | invalidatePrefix (auth : AuthContext) : Step s (.invalidatePrefix auth)
      { s with entries := keepKeys (fun k => !auth.metadataPrefix.isPrefixOf k) s.entries }
  | clear : Step s .clear { s with entries := ∅ }

theorem step_cases {event : MetadataEvent ε} (hs : s.step event = some s') : Step s event s' := by
  unfold MetadataThreads.step at hs
  cases event with
  | startQuery query =>
      simp only at hs
      split at hs
      · rename_i h
        cases hs
        exact .startQuery h.1 h.2
      · cases hs
  | startOperation o caller query =>
      simp only at hs
      split at hs
      · rename_i ho
        obtain ⟨began, hbegan, rfl⟩ := Option.map_eq_some_iff.mp hs
        exact .startOperation ho hbegan
      · cases hs
  | beginQuery o =>
      simp only at hs
      split at hs
      · rename_i op ho
        split at hs
        · rename_i h
          cases hs
          exact .beginQuery ho h.1 h.2
        · cases hs
      · cases hs
  | getOrFetch c o q =>
      simp only at hs
      split at hs
      · rename_i op ho
        split at hs
        · rename_i h
          cases hs
          exact .getOrFetch ho h.1 (Option.isNone_iff_eq_none.mp h.2.2)
        · cases hs
      · cases hs
  | found g file =>
      obtain ⟨f, r, hf, hr, rfl⟩ := hit_eq hs
      exact .hit (.inr ⟨file, rfl, (Option.some.inj hr).symm⟩) hf
  | fellBack g =>
      obtain ⟨f, r, hf, -, rfl⟩ := hit_eq hs
      exact .hit (.inl rfl) hf
  | notFound g =>
      obtain ⟨f, hf, rfl⟩ := miss_eq hs
      exact .miss (.inl ⟨rfl, rfl⟩) hf
  | failed g error =>
      obtain ⟨f, hf, rfl⟩ := miss_eq hs
      exact .miss (.inr ⟨error, rfl, rfl⟩) hf
  | delivered g =>
      simp only at hs
      split at hs
      · rename_i f r hf
        cases hs
        exact .delivered hf
      · cases hs
  | returned c =>
      simp only at hs
      split at hs
      · rename_i o q g hcall
        split at hs
        · rename_i f r hf
          cases hs
          exact .returned hcall hf
        · cases hs
      · cases hs
  | invalidatePrefix auth =>
      cases hs
      exact .invalidatePrefix auth
  | clear =>
      cases hs
      exact .clear

theorem step_getOrFetch {c o : Nat} {q : MetadataRequest}
    (hs : s.step (.getOrFetch c o q) = some s') :
    s' = s.getOrFetch c o q ∧
      ∃ op, s.operations o = some op ∧ (op.caller.announces = true → op.announced = true) ∧
        s.calls c = none := by
  cases step_cases hs with
  | getOrFetch ho hannounced hc => exact ⟨rfl, _, ho, hannounced, hc⟩
  | hit hevent _ => rcases hevent with hevent | ⟨_, hevent, _⟩ <;> cases hevent
  | miss hevent _ => rcases hevent with ⟨hevent, _⟩ | ⟨_, hevent, _⟩ <;> cases hevent

/-- Every event keeps the invariant. -/
theorem MetadataInv.step (h : MetadataInv s) {event : MetadataEvent ε}
    (hs : s.step event = some s') : MetadataInv s' := by
  cases step_cases hs with
  | startQuery _ hnone => exact h.startQuery hnone
  | startOperation ho hbegan => exact h.startOperation ho hbegan
  | beginQuery ho _ _ => exact h.announce ho
  | getOrFetch ho _ _ => exact h.getOrFetch ho _ _
  | hit _ hf => exact h.progress hf nofun
  | miss _ hf =>
      rename_i g f r _
      have hprogress : MetadataInv { s with
          fetches := Function.update s.fetches g (some ⟨f, .settled r⟩) } := h.progress hf nofun
      refine hprogress.shrink ?_
      intro k g' he
      split at he
      · exact lookup_erase_some he
      · exact he
  | delivered hf => exact h.progress hf nofun
  | returned hcall hf => exact h.return hcall hf
  | invalidatePrefix auth =>
      refine h.shrink ?_
      intro k g he
      rw [lookup_keepKeys] at he
      split at he
      · exact he
      · cases he
  | clear => exact h.shrink nofun

theorem Reachable.inv (h : Reachable s) : MetadataInv s :=
  Runs.inv (fun h hstep _ => h.step hstep) metadataInv_start h

theorem advances (h : MetadataInv s) {event : MetadataEvent ε} (hs : s.step event = some s') :
    Advances s.fetches s'.fetches := by
  have hstart : ∀ f : MetadataFetch, Advances s.fetches
      (Function.update s.fetches (s.nextFetch + 1) (some { request := f })) := by
    intro f
    refine .start _ f ?_
    by_contra hsome
    obtain ⟨f', hf'⟩ := Option.ne_none_iff_exists'.mp hsome
    have hle := h.fetch_le hf'
    omega
  cases step_cases hs with
  | startQuery _ _ => exact .same
  | startOperation _ _ => exact .same
  | beginQuery _ _ _ =>
      unfold announce
      split <;> exact .same
  | getOrFetch _ _ _ =>
      unfold getOrFetch
      split
      · exact hstart _
      · split
        · exact .same
        · exact hstart _
  | hit _ hf => exact .deliver _ _ _ _ hf nofun
  | miss _ hf => exact .settle _ _ _ hf
  | delivered hf => exact .deliver _ _ _ _ hf nofun
  | returned _ _ => exact .same
  | invalidatePrefix auth => exact .same
  | clear => exact .same

-- ================================================================ one in flight

/-- No event since a fetch was started puts an end to its entry by right: no
other query's announcement, no invalidation that reaches its key, no
`Clear`. -/
def Quiet (q : MetadataRequest) (s : MetadataThreads ε) : MetadataEvent ε → Prop
  | .beginQuery o => ∀ op, s.operations o = some op → op.query = s.generation
  | .invalidatePrefix auth => auth.metadataPrefix.isPrefixOf q.key = false
  | .clear => False
  | _ => True

/-- A fetch that finds nothing, or fails, does so while its key's entry is its
own, if there is one. -/
def OwnMiss (s : MetadataThreads ε) (event : MetadataEvent ε) : Prop :=
  ∀ {g g' f}, (event = .notFound g ∨ ∃ e, event = .failed g e) →
    s.fetches g = some ⟨f, .running⟩ → f.published = true →
    s.entries.lookup f.request.key = some g' → g' = g

/-- A fetch that a call starts now, with an entry, is the only one of its key
for as long as it is in flight and the events meet `P`. -/
def SingleFlight (P : MetadataThreads ε → MetadataEvent ε → Prop) (s : MetadataThreads ε) : Prop :=
  ∀ {c o q s₁}, s.step (.getOrFetch c o q) = some s₁ → s.generation ≠ 0 →
    s.entries.lookup q.key = none →
    ∀ {s₂ f}, Runs step (fun s event _ => Quiet q s event ∧ P s event) s₁ s₂ →
      s₂.fetches (s.nextFetch + 1) = some ⟨f, .running⟩ →
      ∀ {c' o' q' s₃}, s₂.step (.getOrFetch c' o' q') = some s₃ → q'.auth = q.auth →
        q'.fileId = q.fileId → s₃.fetches = s₂.fetches

/-- The entry of a fetch that is in flight stays. -/
theorem entry_stays {q : MetadataRequest} {g : Nat} {f : MetadataFetch} {event : MetadataEvent ε}
    (he : s.entries.lookup q.key = some g) (hs : s.step event = some s') (hquiet : Quiet q s event)
    (hown : OwnMiss s event) (hrun : s'.fetches g = some ⟨f, .running⟩) :
    s'.entries.lookup q.key = some g := by
  cases step_cases hs with
  | startQuery _ _ => exact he
  | startOperation _ _ => exact he
  | beginQuery ho _ _ =>
      unfold announce
      rw [if_pos (hquiet _ ho)]
      exact he
  | getOrFetch _ _ _ =>
      rename_i c o op q' _ _ _
      unfold getOrFetch
      split
      · exact he
      · split
        · exact he
        · rename_i hnone
          have hk : q.key ≠ q'.key := by
            intro hk
            rw [hk, hnone] at he
            cases he
          show (s.entries.insert q'.key _).lookup q.key = some g
          rw [AList.lookup_insert_ne hk]
          exact he
  | hit _ _ => exact he
  | miss hevent hf =>
      rename_i g' f' r
      simp only
      split
      · rename_i hpublished
        by_cases hk : q.key = f'.request.key
        · -- The fetch that ended would be this one, which runs.
          rw [hk] at he
          have hg : g = g' :=
            hown (hevent.imp (·.1) fun ⟨e, hfailed, _⟩ => ⟨e, hfailed⟩) hf hpublished he
          rw [hg] at hrun
          simp only [Function.update_self] at hrun
          cases hrun
        · rw [AList.lookup_erase_ne hk]
          exact he
      · exact he
  | delivered _ => exact he
  | returned _ _ => exact he
  | invalidatePrefix auth =>
      have hreach : auth.metadataPrefix.isPrefixOf q.key = false := hquiet
      simp only
      rw [lookup_keepKeys, hreach]
      exact he
  | clear => exact hquiet.elim

theorem entry_stays_run {q : MetadataRequest} {g : Nat} {f : MetadataFetch} (h : MetadataInv s)
    (hf : ∃ f, s.fetches g = some f) (he : s.entries.lookup q.key = some g)
    (hr : Runs step (fun s event _ => Quiet q s event ∧ OwnMiss s event) s s')
    (hrun : s'.fetches g = some ⟨f, .running⟩) : s'.entries.lookup q.key = some g := by
  have hboth : (∃ f, s'.fetches g = some f) ∧
      ∀ f, s'.fetches g = some ⟨f, .running⟩ → s'.entries.lookup q.key = some g := by
    clear hrun
    induction hr with
    | refl => exact ⟨hf, fun _ _ => he⟩
    | tail hrun hstep ih =>
        obtain ⟨event, hs, hquiet, hown⟩ := hstep
        obtain ⟨⟨f', hf'⟩, hentry⟩ := ih
        have h' : MetadataInv _ := Runs.inv (fun h hstep _ => h.step hstep) h hrun
        refine ⟨((advances h' hs).kept hf').imp fun _ hkept => hkept.1, ?_⟩
        intro f'' hnow
        exact entry_stays (hentry f'' ((advances h' hs).running hf' hnow)) hs hquiet hown hnow
  exact hboth.2 f hrun

theorem MetadataInv.singleFlight (h : MetadataInv s) : SingleFlight OwnMiss s := by
  intro c o q s₁ hs₁ hgeneration hnone s₂ f hrun hflight c' o' q' s₃ hs₃ hauth hid
  have h₁ := h.step hs₁
  have hkey : q'.key = q.key := by
    unfold MetadataRequest.key
    rw [hauth, hid]
  have hentry : s₁.entries.lookup q.key = some (s.nextFetch + 1) := by
    rw [(step_getOrFetch hs₁).1, MetadataThreads.getOrFetch, if_neg hgeneration, hnone]
    exact AList.lookup_insert s.entries
  have hf : ∃ f, s₁.fetches (s.nextFetch + 1) = some f := by
    obtain ⟨f', hf', -⟩ := h₁.entry hentry
    exact ⟨f', hf'⟩
  have hlast := entry_stays_run h₁ hf hentry hrun hflight
  rw [(step_getOrFetch hs₃).1, MetadataThreads.getOrFetch, hkey, hlast]
  split
  · rename_i hzero
    have hempty := (Runs.inv (fun h hstep _ => MetadataInv.step h hstep) h₁ hrun).unscoped hzero q.key
    rw [hlast] at hempty
    cases hempty
  · rfl

/-- What a fetch without a file does to the entries. -/
theorem step_miss {event : MetadataEvent ε} {g : Nat} {f : MetadataFetch}
    (hs : s.step event = some s') (hevent : event = .notFound g ∨ ∃ e, event = .failed g e)
    (hf : s.fetches g = some ⟨f, .running⟩) :
    s'.entries = if f.published then s.entries.erase f.request.key else s.entries := by
  have hmiss : ∀ {r}, s.miss g r = some s' →
      s'.entries = if f.published then s.entries.erase f.request.key else s.entries := by
    intro r hr
    obtain ⟨f', hf', rfl⟩ := miss_eq hr
    rw [hf] at hf'
    cases hf'
    rfl
  rcases hevent with rfl | ⟨e, rfl⟩
  · exact hmiss hs
  · exact hmiss hs

/-- A fetch without a file takes out no other fetch's entry if and only if
its key's entry is its own, where there is one. -/
theorem miss_keeps_iff {event : MetadataEvent ε} {g : Nat} {f : MetadataFetch}
    (hs : s.step event = some s') (hevent : event = .notFound g ∨ ∃ e, event = .failed g e)
    (hf : s.fetches g = some ⟨f, .running⟩) (hpublished : f.published = true) :
    (∀ k g', g' ≠ g → s.entries.lookup k = some g' → s'.entries.lookup k = some g') ↔
      ∀ g', s.entries.lookup f.request.key = some g' → g' = g := by
  rw [step_miss hs hevent hf, hpublished]
  simp only [if_true]
  constructor
  · intro hkeeps g' he
    by_contra hne
    have hgone := hkeeps _ _ hne he
    rw [AList.lookup_erase] at hgone
    cases hgone
  · intro hown k g' hne he
    have hk : k ≠ f.request.key := by
      intro hk
      rw [hk] at he
      exact hne (hown g' he)
    rw [AList.lookup_erase_ne hk]
    exact he

/-- An invalidation reaches the keys of its own identity only. -/
theorem invalidation_reaches {auth : AuthContext} {q : MetadataRequest} (ha : auth.Separable)
    (hq : q.auth.Separable) : auth.metadataPrefix.isPrefixOf q.key = true ↔ auth = q.auth := by
  rw [List.isPrefixOf_iff_prefix]
  unfold MetadataRequest.key metadataKey AuthContext.metadataPrefix
  constructor
  · intro ⟨rest, hrest⟩
    simp only [List.append_assoc] at hrest
    exact (cancel_keyPrefix ha hq hrest).1
  · intro heq
    rw [heq]
    exact List.prefix_append _ _

/-- At most one fetch of a file's metadata is in flight while no fetch that
fails, or finds nothing, erases another's entry. -/
theorem metadata_single_flight (hs : Reachable s) :
    SingleFlight OwnMiss s ∧
      (∀ {event s' g f}, s.step event = some s' →
        (event = .notFound g ∨ ∃ e, event = .failed g e) → s.fetches g = some ⟨f, .running⟩ →
        f.published = true →
        ((∀ k g', g' ≠ g → s.entries.lookup k = some g' → s'.entries.lookup k = some g') ↔
          ∀ g', s.entries.lookup f.request.key = some g' → g' = g)) ∧
      ∀ {auth : AuthContext} {q : MetadataRequest}, auth.Separable → q.auth.Separable →
        (auth.metadataPrefix.isPrefixOf q.key = true ↔ auth = q.auth) :=
  ⟨hs.inv.singleFlight, miss_keeps_iff, invalidation_reaches⟩

def oneFile : MetadataRequest := { auth := ⟨str "i", [], []⟩, fileId := str "F" }

/-- The state that events lead to, if they can happen. -/
def after (s : MetadataThreads Unit) (events : List (MetadataEvent Unit)) : MetadataThreads Unit :=
  (events.foldlM step s).getD {}

theorem after_eq {s : MetadataThreads Unit} {events : List (MetadataEvent Unit)}
    (h : (events.foldlM step s).isSome = true) : events.foldlM step s = some (s.after events) := by
  obtain ⟨s', hs⟩ := Option.isSome_iff_exists.mp h
  unfold after
  rw [hs]
  rfl

theorem step_after {s : MetadataThreads Unit} {event : MetadataEvent Unit}
    (h : (s.step event).isSome = true) : s.step event = some (s.after [event]) := by
  have hafter : [event].foldlM step s = some (s.after [event]) := after_eq (by simpa using h)
  simpa using hafter

/-- The first query's fetch still runs when the second query, of two threads,
has begun. -/
def twoQueries : List (MetadataEvent Unit) :=
  [.startQuery 1, .startOperation 0 .openFile 1, .beginQuery 0, .getOrFetch 0 0 oneFile,
    .startQuery 2, .startOperation 1 .openFile 2, .startOperation 2 .openFile 2, .beginQuery 1,
    .beginQuery 2]

/-- A fetch of an earlier incarnation ends without a file. -/
theorem metadata_single_flight_stale_miss :
    ∃ s : MetadataThreads Unit, Reachable s ∧ ¬ SingleFlight (fun _ _ => True) s := by
  have h₀ : twoQueries.foldlM step {} = some (after {} twoQueries) := after_eq (by decide +kernel)
  refine ⟨after {} twoQueries, Runs.of_events h₀ trivial, ?_⟩
  intro hsingle
  -- The second query starts a fetch of its own; then the first one ends.
  let s₁ := (after {} twoQueries).after [.getOrFetch 1 1 oneFile]
  let s₂ := s₁.after [.notFound 1]
  let s₃ := s₂.after [.getOrFetch 2 2 oneFile]
  have h₁ : (after {} twoQueries).step (.getOrFetch 1 1 oneFile) = some s₁ :=
    step_after (by decide +kernel)
  have h₂ : s₁.step (.notFound 1) = some s₂ := step_after (by decide +kernel)
  have h₃ : s₂.step (.getOrFetch 2 2 oneFile) = some s₃ := step_after (by decide +kernel)
  have hsame : s₃.fetches = s₂.fetches :=
    hsingle h₁ (by decide +kernel) (by decide +kernel)
      (.tail .refl ⟨.notFound 1, h₂, trivial, trivial⟩) (f := ⟨oneFile, 7, true⟩) rfl h₃ rfl rfl
  have hnone : (s₃.fetches 3).isSome = (s₂.fetches 3).isSome := by rw [hsame]
  exact absurd hnone (by decide +kernel)

theorem metadata_single_flight_twoQueries : SingleFlight OwnMiss (after {} twoQueries) :=
  (metadata_single_flight (Runs.of_events (after_eq (by decide +kernel)) trivial)).1

-- =========================================================== of the own query

/-- No call of an operation that has not made the cache its query's own finds
an entry, unless the cache is of that query anyway; and no refresh falls back. -/
def Scoped (s : MetadataThreads ε) : MetadataEvent ε → Prop
  | .getOrFetch _ o q => (s.entries.lookup q.key).isSome = true → ∀ op, s.operations o = some op →
      op.rescoped = true ∨ (op.query = s.generation ∧ op.query ≠ maximumQueryId)
  | .fellBack _ => False
  | _ => True

/-- A fetch began after the query of an operation. -/
def Since (s : MetadataThreads ε) (o g : Nat) : Prop :=
  ∃ f op, s.fetches g = some f ∧ s.operations o = some op ∧ op.began < f.request.began

structure OwnInv (s : MetadataThreads ε) : Prop where
  base : MetadataInv s
  since : ∀ {c call}, s.calls c = some call → Since s call.operation call.fetch
  real : ∀ {g f file}, s.fetches g = some f → f.status ≠ .delivered (.fellBack file) ∧
    f.status ≠ .settled (.fellBack file)

theorem operation_kept {event : MetadataEvent ε} (hs : s.step event = some s') {o : Nat}
    {op : MetadataOperation} (ho : s.operations o = some op) :
    ∃ op', s'.operations o = some op' ∧ op'.began = op.began := by
  have hsame : s'.operations = s.operations → ∃ op', s'.operations o = some op' ∧
      op'.began = op.began := fun heq => ⟨op, by rw [heq]; exact ho, rfl⟩
  cases step_cases hs with
  | startOperation hnone _ =>
      rename_i o' _ _ _ _
      have hne : o ≠ o' := by
        intro heq
        rw [heq, hnone] at ho
        cases ho
      exact ⟨op, by simp only [Function.update_of_ne hne]; exact ho, rfl⟩
  | beginQuery ho' _ _ =>
      rename_i o' op' _ _
      have hupdate : ∀ op'', op''.began = op'.began →
          ∃ op₁, Function.update s.operations o' (some op'') o = some op₁ ∧
            op₁.began = op.began := by
        intro op'' hbegan
        by_cases heq : o = o'
        · rw [heq, ho'] at ho
          cases ho
          exact ⟨op'', by rw [heq]; exact Function.update_self .., hbegan⟩
        · exact ⟨op, by rw [Function.update_of_ne heq]; exact ho, rfl⟩
      unfold announce
      split
      · exact hupdate _ rfl
      · exact hupdate _ rfl
  | getOrFetch _ _ _ =>
      apply hsame
      unfold getOrFetch
      split
      · rfl
      · split <;> rfl
  | startQuery _ _ => exact hsame rfl
  | hit _ _ => exact hsame rfl
  | miss _ _ => exact hsame rfl
  | delivered _ => exact hsame rfl
  | returned _ _ => exact hsame rfl
  | invalidatePrefix auth => exact hsame rfl
  | clear => exact hsame rfl

theorem Since.step {o g : Nat} (hsince : Since s o g) (h : MetadataInv s) {event : MetadataEvent ε}
    (hs : s.step event = some s') : Since s' o g := by
  obtain ⟨f, op, hf, ho, hlt⟩ := hsince
  obtain ⟨f', hf', hrequest⟩ := (advances h hs).kept hf
  obtain ⟨op', ho', hbegan⟩ := operation_kept hs ho
  exact ⟨f', op', hf', ho', by rw [hrequest, hbegan]; exact hlt⟩

/-- Where the calls of a state come from. -/
theorem call_before {event : MetadataEvent ε} (hs : s.step event = some s') {c : Nat}
    {call : MetadataCall ε} (hcall : s'.calls c = some call) :
    (∃ call₀, s.calls c = some call₀ ∧ call₀.operation = call.operation ∧
      call₀.fetch = call.fetch) ∨
    ∃ o q, event = .getOrFetch c o q := by
  have hsame : s'.calls = s.calls → ∃ call₀, s.calls c = some call₀ ∧
      call₀.operation = call.operation ∧ call₀.fetch = call.fetch :=
    fun heq => ⟨call, by rw [← heq]; exact hcall, rfl, rfl⟩
  cases step_cases hs with
  | beginQuery _ _ _ =>
      left
      apply hsame
      unfold announce
      split <;> rfl
  | getOrFetch _ _ _ =>
      rename_i c' o op q _ _ _
      by_cases heq : c = c'
      · exact .inr ⟨o, q, by rw [heq]⟩
      · left
        refine ⟨call, ?_, rfl, rfl⟩
        unfold getOrFetch startFetch at hcall
        split at hcall
        · simp only [Function.update_of_ne heq] at hcall
          exact hcall
        · split at hcall
          · simp only [Function.update_of_ne heq] at hcall
            exact hcall
          · simp only [Function.update_of_ne heq] at hcall
            exact hcall
  | returned hcall' _ =>
      left
      rename_i c' o g q f r _
      by_cases heq : c = c'
      · rw [heq] at hcall ⊢
        simp only [Function.update_self, Option.some.injEq] at hcall
        exact ⟨_, hcall', by rw [← hcall], by rw [← hcall]⟩
      · simp only [Function.update_of_ne heq] at hcall
        exact ⟨call, hcall, rfl, rfl⟩
  | startQuery _ _ => exact .inl (hsame rfl)
  | startOperation _ _ => exact .inl (hsame rfl)
  | hit _ _ => exact .inl (hsame rfl)
  | miss _ _ => exact .inl (hsame rfl)
  | delivered _ => exact .inl (hsame rfl)
  | invalidatePrefix auth => exact .inl (hsame rfl)
  | clear => exact .inl (hsame rfl)

/-- A call, as it starts, waits for a fetch that began since its query did. -/
theorem since_new (h : MetadataInv s) {c o : Nat} {q : MetadataRequest}
    (hs : s.step (.getOrFetch c o q) = some s') (hscoped : Scoped s (.getOrFetch c o q))
    {call : MetadataCall ε} (hcall : s'.calls c = some call) :
    Since s' call.operation call.fetch := by
  obtain ⟨rfl, op, ho, -⟩ := step_getOrFetch hs
  have hle := (h.operation ho).1
  have hnew : ∀ (published : Bool) {call}, (s.startFetch c o q published).calls c = some call →
      Since (s.startFetch c o q published) call.operation call.fetch := by
    intro published call hcall
    simp only [startFetch, Function.update_self, Option.some.injEq] at hcall
    rw [← hcall]
    exact ⟨_, op, Function.update_self .., ho, Nat.lt_succ_of_le hle⟩
  by_cases hzero : s.generation = 0
  · rw [getOrFetch, if_pos hzero] at hcall ⊢
    exact hnew false hcall
  · rw [getOrFetch, if_neg hzero] at hcall ⊢
    cases he : s.entries.lookup q.key with
    | none =>
        rw [he] at hcall
        exact hnew true hcall
    | some g =>
        rw [he] at hcall
        simp only [Function.update_self, Option.some.injEq] at hcall
        rw [← hcall]
        obtain ⟨f, hf, -, hbegan⟩ := h.entry he
        rcases hscoped (by rw [he]; rfl) op ho with hrescoped | ⟨hgeneration, hsentinel⟩
        · exact ⟨f, op, hf, ho, h.rescoped ho hrescoped he hf⟩
        · -- The cache is of the operation's query.
          have hproper : isQuery op.query := ⟨by rw [hgeneration]; exact hzero, hsentinel⟩
          refine ⟨f, op, hf, ho, ?_⟩
          rw [← hgeneration] at hbegan
          exact hbegan hproper ((h.operation ho).2 hproper)

/-- No outcome is a fallback. -/
theorem OwnInv.real_step (h : OwnInv s) {event : MetadataEvent ε} (hs : s.step event = some s')
    (hscoped : Scoped s event) {g : Nat} {f : Future MetadataFetch (MetadataOutcome ε)}
    (hf : s'.fetches g = some f) (file : DriveFileMeta) :
    f.status ≠ .delivered (.fellBack file) ∧ f.status ≠ .settled (.fellBack file) := by
  have hother : ∀ {g' : Nat} {a : MetadataFetch} (status : FutureStatus (MetadataOutcome ε)),
      (status ≠ .delivered (.fellBack file) ∧ status ≠ .settled (.fellBack file)) →
      Function.update s.fetches g' (some ⟨a, status⟩) g = some f →
      f.status ≠ .delivered (.fellBack file) ∧ f.status ≠ .settled (.fellBack file) := by
    intro g' a status hreal hupdate
    by_cases hg : g = g'
    · rw [hg, Function.update_self, Option.some.injEq] at hupdate
      rw [← hupdate]
      exact hreal
    · rw [Function.update_of_ne hg] at hupdate
      exact h.real hupdate
  cases step_cases hs with
  | beginQuery _ _ _ =>
      unfold announce at hf
      split at hf
      · exact h.real hf
      · exact h.real hf
  | getOrFetch _ _ _ =>
      unfold getOrFetch at hf
      split at hf
      · exact hother .running ⟨nofun, nofun⟩ hf
      · split at hf
        · exact h.real hf
        · exact hother .running ⟨nofun, nofun⟩ hf
  | hit hevent _ =>
      rcases hevent with rfl | ⟨found, -, rfl⟩
      · exact hscoped.elim
      · exact hother (.delivered (.found found)) ⟨nofun, nofun⟩ hf
  | miss hevent _ =>
      rcases hevent with ⟨-, rfl⟩ | ⟨e, -, rfl⟩
      · exact hother (.settled .notFound) ⟨nofun, nofun⟩ hf
      · exact hother (.settled (.failed e)) ⟨nofun, nofun⟩ hf
  | delivered hsettled =>
      rename_i g' f' r
      refine hother (.delivered r) ⟨?_, nofun⟩ hf
      intro heq
      cases heq
      exact (h.real hsettled).2 rfl
  | startQuery _ _ => exact h.real hf
  | startOperation _ _ => exact h.real hf
  | returned _ _ => exact h.real hf
  | invalidatePrefix auth => exact h.real hf
  | clear => exact h.real hf

theorem OwnInv.step (h : OwnInv s) {event : MetadataEvent ε} (hs : s.step event = some s')
    (hscoped : Scoped s event) : OwnInv s' := by
  refine ⟨h.base.step hs, ?_, ?_⟩
  · intro c call hcall
    rcases call_before hs hcall with ⟨call₀, hcall₀, ho, hg⟩ | ⟨o, q, rfl⟩
    · rw [← ho, ← hg]
      exact (h.since hcall₀).step h.base hs
    · exact since_new h.base hs hscoped hcall
  · intro g f file hf
    exact h.real_step hs hscoped hf file

end MetadataThreads

end GDrive
