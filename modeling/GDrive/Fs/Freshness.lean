/-
`leaf_is_fresh` (gdrive_path_cache.cpp, gdrive_filesystem.cpp) under
concurrency: any number of queries on any number of threads, interleaved at
the cache's critical sections and around the calls of the client.

# The model

A thread runs one operation after the other, and what is left of it is a
program over `Shared`. A call is issued at a moment of the model's clock, and
its reply comes later. `begun` is when a query number was first announced, on
whatever thread; a thread's own number (`queryGeneration`) is of the last
announcement on it, and stays for the operations that make none.

# What holds

An entry's stamp is the number of the thread that put it, which may be older
than the query that is served. But the thread had it before it asked Drive
for what it puts, so the entry is from a request issued since the stamped
query was announced first (`ResolveInv.entry`). A hit is fresh where the
stamp is the reader's own number, and so is the listing of a reader that has
announced itself (`leaf_is_fresh_sound`).
-/
import GDrive.Fs.Evidence
import GDrive.Fs.MetadataThreads

namespace GDrive

open Interaction MetadataThreads

/-- A call of the client, and its reply. -/
structure Exchange where
  issued : Nat
  request : CallReq
  response : DriveResponse

/-- What `TryResolvePath` has told an `OpenFile` for reading. -/
structure Report where
  query : Nat
  found : Option (DriveFileMeta × Bool)

/-- A thread's operation. -/
structure Running where
  prog : Prog Shared Unit
  /-- When the call that it waits for was issued. -/
  issued : Option Nat := none

structure ResolveThreads where
  cache : PathCache := {}
  clock : Nat := 0
  /-- When a query was announced first. -/
  begun : Nat → Option Nat := fun _ => none
  /-- When the last announcement on a thread was. -/
  announced : Nat → Nat := fun _ => 0
  exchanges : List Exchange := []
  reports : List Report := []
  threads : Nat → Option Running := fun _ => none

inductive ResolveEvent (pj : Picojson)
  | start (thread : Nat) (operation : Operation pj)
  | critical (thread : Nat)
  /-- `GetOrFetchMetadata` comes back, with whatever. -/
  | metadata (thread : Nat) (result : Except Exn (Option DriveFileMeta))
  | issue (thread : Nat)
  | reply (thread : Nat) (result : Except Exn DriveResponse)
  | finish (thread : Nat)
  | clear

namespace ResolveThreads

/-- The number a thread serves. -/
def serving (s : ResolveThreads) (thread : Nat) : Nat := s.cache.queryGeneration thread

/-- Since when a thread's requests are of its query: where many share its
number, since its own announcement. -/
def since (s : ResolveThreads) (thread : Nat) : Nat :=
  if isQuery (s.serving thread) then (s.begun (s.serving thread)).getD 0 else s.announced thread

def beginQuery (s : ResolveThreads) (thread generation : Nat) : ResolveThreads :=
  { s with
    cache := s.cache.beginQuery thread generation
    clock := s.clock + 1
    begun :=
      if s.begun generation = none then Function.update s.begun generation (some (s.clock + 1))
      else s.begun
    announced := Function.update s.announced thread (s.clock + 1) }

/-- A critical section: what it answers, and what it leaves. The metadata
entries are not looked at. -/
def critical (s : ResolveThreads) (thread : Nat) :
    (q : SharedReq) → Option (Shared.Ans q × ResolveThreads)
  | .beginQuery generation => some ((), s.beginQuery thread generation)
  | .setMaxEntries max => some ((), { s with cache := s.cache.setMaxEntries max })
  | .tryGet key =>
      some ((s.cache.tryGet thread key).1, { s with cache := (s.cache.tryGet thread key).2 })
  | .put key file => some ((), { s with cache := s.cache.put thread key file })
  | .invalidatePrefix key => some ((), { s with cache := s.cache.invalidatePrefix key })
  | .report query found => some ((), { s with reports := ⟨query, found⟩ :: s.reports })
  | .lookUpMetadata _ _ _ => none
  | .refreshMetadata _ _ => none
  | .drive _ => none

/-- A thread goes on. -/
def resume (s : ResolveThreads) (thread : Nat) (r : Option Running) : ResolveThreads :=
  { s with threads := Function.update s.threads thread r }

/-- One event, where it can happen. -/
def step {pj : Picojson} (s : ResolveThreads) : ResolveEvent pj → Option ResolveThreads
  | .start t operation =>
      match s.threads t with
      | none => some (s.resume t (some ⟨operation.prog, none⟩))
      | some _ => none
  | .critical t =>
      match s.threads t with
      | some ⟨.ask q k, none⟩ =>
          (s.critical t q).map fun done => done.2.resume t (some ⟨k done.1, none⟩)
      | _ => none
  | .metadata t result =>
      match s.threads t with
      | some ⟨.ask (.lookUpMetadata _ _ _) k, none⟩ => some (s.resume t (some ⟨k result, none⟩))
      | some ⟨.ask (.refreshMetadata _ _) k, none⟩ => some (s.resume t (some ⟨k result, none⟩))
      | _ => none
  | .issue t =>
      match s.threads t with
      | some ⟨.ask (.drive request) k, none⟩ =>
          some { s.resume t (some ⟨.ask (.drive request) k, some (s.clock + 1)⟩) with
            clock := s.clock + 1 }
      | _ => none
  | .reply t result =>
      match s.threads t, result with
      | some ⟨.ask (.drive _) k, some _⟩, .error error =>
          some (s.resume t (some ⟨k (.error error), none⟩))
      | some ⟨.ask (.drive request) k, some issued⟩, .ok resp =>
          some { s.resume t (some ⟨k (.ok resp), none⟩) with
            exchanges := ⟨issued, request, resp⟩ :: s.exchanges }
      | _, _ => none
  | .finish t =>
      match s.threads t with
      | some ⟨.ret _, none⟩ => some (s.resume t none)
      | _ => none
  | .clear => some { s with cache := s.cache.clear }

/-- What any interleaving of any operations leads to. -/
def Reachable (pj : Picojson) (s : ResolveThreads) : Prop :=
  Runs step (fun _ (_ : ResolveEvent pj) _ => True) {} s

-- =============================================================== the invariant

variable {pj : Picojson} {s s' : ResolveThreads} {thread : Nat}

/-- A file is in a reply to a request issued since a query was announced
first. -/
def ListedSince (pj : Picojson) (s : ResolveThreads) (query : Nat) (file : DriveFileMeta) : Prop :=
  ∃ t, s.begun query = some t ∧
    ∃ x ∈ s.exchanges, t < x.issued ∧ Carries pj x.request x.response file

/-- A file is in a reply to a request of a thread's query. -/
def Backs (pj : Picojson) (s : ResolveThreads) (thread : Nat) (file : DriveFileMeta) : Prop :=
  ∃ x ∈ s.exchanges, s.since thread < x.issued ∧ Carries pj x.request x.response file

/-- What is left of a thread's operation is honest, and what it knows is so. -/
structure Accounted (pj : Picojson) (s : ResolveThreads) (thread : Nat) (r : Running)
    (e : Evidence) : Prop where
  wp : (evidence pj).wp r.prog (fun _ _ => True) e
  known : ∀ {file}, e.known file → Backs pj s thread file
  announced : ∀ {query}, e.announced = some query →
    s.serving thread = query ∧ ∃ t, s.begun query = some t ∧ t ≤ s.since thread
  issued : ∀ {i}, r.issued = some i → s.since thread < i

/-- What ties the stamps and the reports to the exchanges. -/
structure StampInv (pj : Picojson) (s : ResolveThreads) : Prop where
  begun_le : ∀ {query t}, s.begun query = some t → t ≤ s.clock
  announced_le : ∀ thread, s.announced thread ≤ s.clock
  current : ∀ {thread}, isQuery (s.serving thread) → ∃ t, s.begun (s.serving thread) = some t
  entry : ∀ {k e}, s.cache.entries.lookup k = some e → isQuery e.freshGeneration →
    ListedSince pj s e.freshGeneration e.file
  report : ∀ {r file}, r ∈ s.reports → r.found = some (file, true) → ListedSince pj s r.query file

structure ResolveInv (pj : Picojson) (s : ResolveThreads) : Prop where
  stamps : StampInv pj s
  thread : ∀ {t r}, s.threads t = some r → ∃ e, Accounted pj s t r e

theorem resolveInv_start : ResolveInv pj {} := by
  have hquery : ¬isQuery 0 := fun h => h.1 rfl
  refine ⟨⟨?_, fun _ => le_rfl, fun h => absurd h hquery, ?_, ?_⟩, ?_⟩
  · intro query t ht
    cases ht
  · intro k e he
    cases he
  · intro r file hr
    cases hr
  · intro t r hr
    cases hr

theorem since_of_isQuery (h : isQuery (s.serving thread)) {t : Nat}
    (ht : s.begun (s.serving thread) = some t) : s.since thread = t := by
  unfold since
  rw [if_pos h, ht]
  rfl

theorem StampInv.since_le (h : StampInv pj s) (thread : Nat) : s.since thread ≤ s.clock := by
  by_cases hquery : isQuery (s.serving thread)
  · obtain ⟨t, ht⟩ := h.current hquery
    rw [since_of_isQuery hquery ht]
    exact h.begun_le ht
  · unfold since
    rw [if_neg hquery]
    exact h.announced_le thread

/-- A request of a query is one issued since the query was announced first. -/
theorem Backs.listedSince (h : StampInv pj s) (hquery : isQuery (s.serving thread))
    {file : DriveFileMeta} (hfile : Backs pj s thread file) :
    ListedSince pj s (s.serving thread) file := by
  obtain ⟨t, ht⟩ := h.current hquery
  obtain ⟨x, hx, hissued, hcarries⟩ := hfile
  rw [since_of_isQuery hquery ht] at hissued
  exact ⟨t, ht, x, hx, hissued, hcarries⟩

theorem ListedSince.backs (hquery : isQuery (s.serving thread)) {file : DriveFileMeta}
    (hfile : ListedSince pj s (s.serving thread) file) : Backs pj s thread file := by
  obtain ⟨t, ht, x, hx, hissued, hcarries⟩ := hfile
  rw [← since_of_isQuery hquery ht] at hissued
  exact ⟨x, hx, hissued, hcarries⟩

-- ======================================================================== later

/-- Time has passed: what was announced was announced then, and what was
replied was. -/
structure Later (s s' : ResolveThreads) : Prop where
  clock : s.clock ≤ s'.clock
  begun : ∀ {query t}, s.begun query = some t → s'.begun query = some t
  exchanges : ∀ {x}, x ∈ s.exchanges → x ∈ s'.exchanges

theorem ListedSince.later (hl : Later s s') {query : Nat} {file : DriveFileMeta}
    (h : ListedSince pj s query file) : ListedSince pj s' query file := by
  obtain ⟨t, ht, x, hx, hrest⟩ := h
  exact ⟨t, hl.begun ht, x, hl.exchanges hx, hrest⟩

/-- Another thread's announcement is not this one's. -/
structure Untouched (s s' : ResolveThreads) (thread : Nat) : Prop where
  serving : s'.serving thread = s.serving thread
  announced : s'.announced thread = s.announced thread

theorem Untouched.since (h : StampInv pj s) (hl : Later s s') (hu : Untouched s s' thread) :
    s'.since thread = s.since thread := by
  by_cases hquery : isQuery (s.serving thread)
  · obtain ⟨t, ht⟩ := h.current hquery
    have hquery' : isQuery (s'.serving thread) := by
      rw [hu.serving]
      exact hquery
    have ht' : s'.begun (s'.serving thread) = some t := by
      rw [hu.serving]
      exact hl.begun ht
    rw [since_of_isQuery hquery ht, since_of_isQuery hquery' ht']
  · unfold ResolveThreads.since
    rw [hu.serving, if_neg hquery, if_neg hquery, hu.announced]

theorem Accounted.later (h : StampInv pj s) (hl : Later s s') (hu : Untouched s s' thread)
    {r : Running} {e : Evidence} (ha : Accounted pj s thread r e) : Accounted pj s' thread r e := by
  have hsince := hu.since h hl
  refine ⟨ha.wp, ?_, ?_, ?_⟩
  · intro file hfile
    obtain ⟨x, hx, hissued, hcarries⟩ := ha.known hfile
    rw [← hsince] at hissued
    exact ⟨x, hl.exchanges hx, hissued, hcarries⟩
  · intro query hquery
    obtain ⟨hserving, t, ht, hle⟩ := ha.announced hquery
    rw [← hsince] at hle
    exact ⟨hu.serving.trans hserving, t, hl.begun ht, hle⟩
  · intro i hi
    rw [hsince]
    exact ha.issued hi

/-- One thread goes on, in a state that has changed for it only. -/
theorem ResolveInv.resume (h : ResolveInv pj s) (hl : Later s s') (hstamps : StampInv pj s')
    (hthreads : s'.threads = s.threads) (hothers : ∀ u, u ≠ thread → Untouched s s' u)
    {next : Option Running}
    (hnext : ∀ r, next = some r → ∃ e, Accounted pj s' thread r e) :
    ResolveInv pj (s'.resume thread next) := by
  refine ⟨⟨hstamps.begun_le, hstamps.announced_le, hstamps.current, hstamps.entry, hstamps.report⟩,
    ?_⟩
  intro u r hr
  have hsame : ∃ e, Accounted pj s' u r e := by
    by_cases hu : u = thread
    · rw [hu] at hr ⊢
      simp only [ResolveThreads.resume, Function.update_self] at hr
      exact hnext r hr
    · simp only [ResolveThreads.resume, Function.update_of_ne hu, hthreads] at hr
      obtain ⟨e, he⟩ := h.thread hr
      exact ⟨e, he.later h.stamps hl (hothers u hu)⟩
  obtain ⟨e, he⟩ := hsame
  exact ⟨e, he.wp, he.known, he.announced, he.issued⟩

/-- One thread goes on, and nothing else has changed. -/
theorem ResolveInv.resume_same (h : ResolveInv pj s) {next : Option Running}
    (hnext : ∀ r, next = some r → ∃ e, Accounted pj s thread r e) :
    ResolveInv pj (s.resume thread next) :=
  h.resume ⟨le_rfl, id, id⟩ h.stamps rfl (fun _ _ => ⟨rfl, rfl⟩) hnext

-- ============================================================ critical sections

/-- The path entries change, and no thread's number. -/
theorem StampInv.recache (h : StampInv pj s) {cache : PathCache}
    (hserving : cache.queryGeneration = s.cache.queryGeneration)
    (hentries : ∀ {k e}, cache.entries.lookup k = some e → isQuery e.freshGeneration →
      ListedSince pj s e.freshGeneration e.file) : StampInv pj { s with cache } := by
  refine ⟨h.begun_le, h.announced_le, ?_, hentries, h.report⟩
  intro thread
  unfold serving
  simp only [hserving]
  exact h.current

/-- The same for a thread whose critical section that was. -/
theorem ResolveInv.recache (h : ResolveInv pj s) {cache : PathCache}
    (hserving : cache.queryGeneration = s.cache.queryGeneration)
    (hentries : ∀ {k e}, cache.entries.lookup k = some e → isQuery e.freshGeneration →
      ListedSince pj s e.freshGeneration e.file)
    {p : Prog Shared Unit} {r : Running} {e e' : Evidence} (ha : Accounted pj s thread r e)
    (hwp : (evidence pj).wp p (fun _ _ => True) e') (hannounced : e'.announced = e.announced)
    (hknown : ∀ {file}, e'.known file → Backs pj s thread file) :
    ResolveInv pj (({ s with cache } : ResolveThreads).resume thread (some ⟨p, none⟩)) := by
  have hl : Later s { s with cache } := ⟨le_rfl, id, id⟩
  have hu : ∀ u, Untouched s { s with cache } u := fun u => ⟨congrFun hserving u, rfl⟩
  refine h.resume hl (h.stamps.recache hserving hentries) rfl (fun u _ => hu u) ?_
  intro r' hr'
  cases hr'
  refine ⟨e', Accounted.later h.stamps hl (hu thread) ⟨hwp, hknown, ?_, ?_⟩⟩
  · rw [hannounced]
    exact ha.announced
  · intro i hi
    cases hi

/-- A fresh hit is on an entry with the thread's own number. -/
theorem fresh_of_tryGet {c : PathCache} {key : CacheKey} {file : DriveFileMeta}
    (h : (c.tryGet thread key).1 = some (file, true)) :
    ∃ e, c.entries.lookup key.toString = some e ∧ e.file = file ∧
      isQuery (c.queryGeneration thread) ∧ e.freshGeneration = c.queryGeneration thread := by
  unfold PathCache.tryGet at h
  split at h
  · cases h
  · rename_i e he
    simp only [Option.some.injEq, Prod.mk.injEq] at h
    obtain ⟨hfile, hfresh⟩ := h
    have hparts := of_decide_eq_true hfresh
    exact ⟨e, he, hfile, ⟨hparts.1, hparts.2.1⟩, hparts.2.2⟩

theorem serving_put (c : PathCache) (key : CacheKey) (file : DriveFileMeta) :
    (c.put thread key file).queryGeneration = c.queryGeneration := rfl

theorem serving_tryGet (c : PathCache) (key : CacheKey) :
    (c.tryGet thread key).2.queryGeneration = c.queryGeneration := by
  unfold PathCache.tryGet
  split
  · rfl
  · rfl

/-- An announcement changes the thread's number, and no path entry. -/
theorem beginQuery_cache (thread : Nat) (c : PathCache) (generation : Nat) :
    (c.beginQuery thread generation).entries = c.entries ∧
      (c.beginQuery thread generation).queryGeneration =
        Function.update c.queryGeneration thread generation := by
  unfold PathCache.beginQuery
  simp only
  split
  · exact ⟨rfl, rfl⟩
  · exact ⟨rfl, rfl⟩

section Critical

variable {r : Running} {e : Evidence}

theorem ResolveInv.tryGet (h : ResolveInv pj s) (ha : Accounted pj s thread r e) (key : CacheKey)
    {k : Option (DriveFileMeta × Bool) → Prog Shared Unit}
    (hwp : (evidence pj).wp (.ask (SharedReq.tryGet key) k) (fun _ _ => True) e) :
    ResolveInv pj (({ s with cache := (s.cache.tryGet thread key).2 } : ResolveThreads).resume
      thread (some ⟨k (s.cache.tryGet thread key).1, none⟩)) := by
  have hentries : ∀ {k e}, (s.cache.tryGet thread key).2.entries.lookup k = some e →
      isQuery e.freshGeneration → ListedSince pj s e.freshGeneration e.file := by
    intro k e he hquery
    obtain ⟨e', he', hfile, hstamp⟩ := PathCache.lookup_tryGet he
    rw [← hfile, ← hstamp]
    rw [← hstamp] at hquery
    exact h.stamps.entry he' hquery
  have hnext : ∀ {e'}, (evidence pj).wp (k (s.cache.tryGet thread key).1) (fun _ _ => True) e' →
      e'.announced = e.announced → (∀ {file}, e'.known file → Backs pj s thread file) →
      ResolveInv pj (({ s with cache := (s.cache.tryGet thread key).2 } : ResolveThreads).resume
        thread (some ⟨k (s.cache.tryGet thread key).1, none⟩)) :=
    fun hwp hannounced hknown =>
      h.recache (serving_tryGet _ _) hentries ha hwp hannounced hknown
  rcases hfound : (s.cache.tryGet thread key).1 with _ | ⟨file, _ | _⟩
  · rw [hfound] at hnext
    exact hnext hwp.1 rfl ha.known
  · rw [hfound] at hnext
    exact hnext (hwp.2 file).1 rfl ha.known
  · rw [hfound] at hnext
    refine hnext (hwp.2 file).2 rfl ?_
    intro file' hknown
    rcases hknown with hknown | rfl
    · exact ha.known hknown
    · obtain ⟨entry, hentry, hfile, hquery, hstamp⟩ := fresh_of_tryGet hfound
      have hlisted := h.stamps.entry hentry (hstamp ▸ hquery)
      rw [hstamp, hfile] at hlisted
      exact ListedSince.backs hquery hlisted

theorem ResolveInv.put (h : ResolveInv pj s) (ha : Accounted pj s thread r e) (key : CacheKey)
    {file : DriveFileMeta} (hfile : e.known file) {p : Prog Shared Unit}
    (hwp : (evidence pj).wp p (fun _ _ => True) e) :
    ResolveInv pj (({ s with cache := s.cache.put thread key file } : ResolveThreads).resume
      thread (some ⟨p, none⟩)) := by
  refine h.recache (serving_put _ _ _) ?_ ha hwp rfl ha.known
  intro k entry hentry hquery
  rcases PathCache.lookup_put hentry with ⟨_, hput, hstamp⟩ | ⟨_, hold⟩
  · -- What is put is of a request that the thread has issued under the stamp's number.
    rw [hstamp] at hquery ⊢
    rw [hput]
    exact (ha.known hfile).listedSince h.stamps hquery
  · exact h.stamps.entry hold hquery

theorem ResolveInv.beginQuery (h : ResolveInv pj s) (generation : Nat) {p : Prog Shared Unit}
    (hwp : (evidence pj).wp p (fun _ _ => True) { announced := some generation }) :
    ResolveInv pj ((s.beginQuery thread generation).resume thread (some ⟨p, none⟩)) := by
  obtain ⟨hentries, hserving⟩ := beginQuery_cache thread s.cache generation
  -- The query is announced now, or was before.
  have hbegun : ∃ t, (s.beginQuery thread generation).begun generation = some t ∧
      t ≤ s.clock + 1 := by
    unfold ResolveThreads.beginQuery
    simp only
    split
    · exact ⟨s.clock + 1, Function.update_self .., le_rfl⟩
    · rename_i hsome
      obtain ⟨t, ht⟩ := Option.ne_none_iff_exists'.mp hsome
      exact ⟨t, ht, le_trans (h.stamps.begun_le ht) (Nat.le_succ _)⟩
  have hl : Later s (s.beginQuery thread generation) := by
    refine ⟨Nat.le_succ _, ?_, id⟩
    intro query t ht
    unfold ResolveThreads.beginQuery
    simp only
    split
    · rename_i hnone
      have hne : query ≠ generation := by
        intro heq
        rw [heq, hnone] at ht
        cases ht
      rw [Function.update_of_ne hne]
      exact ht
    · exact ht
  have hself : (s.beginQuery thread generation).serving thread = generation := by
    show (s.cache.beginQuery thread generation).queryGeneration thread = generation
    rw [hserving]
    exact Function.update_self ..
  have hothers : ∀ u, u ≠ thread → Untouched s (s.beginQuery thread generation) u := by
    intro u hu
    refine ⟨?_, Function.update_of_ne hu ..⟩
    show (s.cache.beginQuery thread generation).queryGeneration u = s.cache.queryGeneration u
    rw [hserving]
    exact Function.update_of_ne hu ..
  have hstamps : StampInv pj (s.beginQuery thread generation) := by
    refine ⟨?_, ?_, ?_, ?_, fun hr hfound => (h.stamps.report hr hfound).later hl⟩
    · intro query t ht
      show t ≤ s.clock + 1
      unfold ResolveThreads.beginQuery at ht
      simp only at ht
      split at ht
      · by_cases hq : query = generation
        · rw [hq, Function.update_self] at ht
          cases ht
          exact le_rfl
        · rw [Function.update_of_ne hq] at ht
          exact le_trans (h.stamps.begun_le ht) (Nat.le_succ _)
      · exact le_trans (h.stamps.begun_le ht) (Nat.le_succ _)
    · intro u
      show Function.update s.announced thread (s.clock + 1) u ≤ s.clock + 1
      by_cases hu : u = thread
      · rw [hu, Function.update_self]
      · rw [Function.update_of_ne hu]
        exact le_trans (h.stamps.announced_le u) (Nat.le_succ _)
    · intro u hquery
      by_cases hu : u = thread
      · rw [hu, hself]
        exact hbegun.imp fun _ ht => ht.1
      · rw [(hothers u hu).serving] at hquery ⊢
        obtain ⟨t, ht⟩ := h.stamps.current hquery
        exact ⟨t, hl.begun ht⟩
    · intro k entry hentry hquery
      have hold : s.cache.entries.lookup k = some entry := by
        rw [← hentries]
        exact hentry
      exact (h.stamps.entry hold hquery).later hl
  refine h.resume hl hstamps rfl hothers ?_
  intro r' hr'
  cases hr'
  refine ⟨_, hwp, fun hknown => hknown.elim, ?_, ?_⟩
  · intro query hquery
    cases hquery
    refine ⟨hself, ?_⟩
    obtain ⟨t, ht, hle⟩ := hbegun
    refine ⟨t, ht, ?_⟩
    by_cases hproper : isQuery generation
    · rw [since_of_isQuery (by rw [hself]; exact hproper) (by rw [hself]; exact ht)]
    · unfold ResolveThreads.since
      rw [hself, if_neg hproper]
      show t ≤ Function.update s.announced thread (s.clock + 1) thread
      rw [Function.update_self]
      exact hle
  · intro i hi
    cases hi

theorem ResolveInv.report (h : ResolveInv pj s) (ha : Accounted pj s thread r e) {query : Nat}
    {found : Option (DriveFileMeta × Bool)} (hquery : e.announced = some query)
    (hfound : FreshIsKnown found e) {p : Prog Shared Unit}
    (hwp : (evidence pj).wp p (fun _ _ => True) e) :
    ResolveInv pj (({ s with reports := ⟨query, found⟩ :: s.reports } : ResolveThreads).resume
      thread (some ⟨p, none⟩)) := by
  have hl : Later s { s with reports := ⟨query, found⟩ :: s.reports } := ⟨le_rfl, id, id⟩
  refine h.resume hl ⟨h.stamps.begun_le, h.stamps.announced_le, h.stamps.current, h.stamps.entry,
    ?_⟩ rfl (fun _ _ => ⟨rfl, rfl⟩) ?_
  · intro r' file hr' hfile
    rcases List.mem_cons.mp hr' with rfl | hold
    · obtain ⟨_, t, ht, hle⟩ := ha.announced hquery
      obtain ⟨x, hx, hissued, hcarries⟩ := ha.known (hfound file hfile)
      exact ⟨t, ht, x, hx, lt_of_le_of_lt hle hissued, hcarries⟩
    · exact (h.stamps.report hold hfile).later hl
  · intro r' hr'
    cases hr'
    refine ⟨e, Accounted.later h.stamps hl ⟨rfl, rfl⟩ ⟨hwp, ha.known, ha.announced, ?_⟩⟩
    intro i hi
    cases hi

theorem ResolveInv.critical (h : ResolveInv pj s) {q : SharedReq}
    {k : Shared.Ans q → Prog Shared Unit} {issued : Option Nat}
    (ha : Accounted pj s thread ⟨.ask q k, issued⟩ e) {done : Shared.Ans q × ResolveThreads}
    (hdone : s.critical thread q = some done) :
    ResolveInv pj (done.2.resume thread (some ⟨k done.1, none⟩)) := by
  have hwp := ha.wp
  have hshrink : ∀ (cache : PathCache),
      cache.queryGeneration = s.cache.queryGeneration →
      (∀ {k e}, cache.entries.lookup k = some e → s.cache.entries.lookup k = some e) →
      ∀ {p : Prog Shared Unit}, (evidence pj).wp p (fun _ _ => True) e →
      ResolveInv pj (({ s with cache } : ResolveThreads).resume thread (some ⟨p, none⟩)) :=
    fun _ hserving hentries _ hwp =>
      h.recache hserving (fun he => h.stamps.entry (hentries he)) ha hwp rfl ha.known
  cases q with
  | beginQuery generation =>
      cases hdone
      exact h.beginQuery generation hwp
  | setMaxEntries max =>
      cases hdone
      exact hshrink (s.cache.setMaxEntries max) rfl PathCache.lookup_setMaxEntries hwp
  | tryGet key =>
      cases hdone
      exact h.tryGet ha key hwp
  | put key file =>
      cases hdone
      exact h.put ha key hwp.1 hwp.2
  | invalidatePrefix key =>
      cases hdone
      refine hshrink (s.cache.invalidatePrefix key) rfl ?_ hwp
      intro k e he
      rw [PathCache.lookup_invalidatePrefix] at he
      split at he
      · cases he
      · exact he
  | report query found =>
      cases hdone
      exact h.report ha hwp.1 hwp.2.1 hwp.2.2
  | lookUpMetadata auth fileId contextPath => cases hdone
  | refreshMetadata o file => cases hdone
  | drive request => cases hdone

end Critical

-- ========================================================================= runs

/-- A thread that is answered without a look at the cache. -/
theorem ResolveInv.answered (h : ResolveInv pj s) {r : Running} {e : Evidence}
    (ha : Accounted pj s thread r e) {p : Prog Shared Unit}
    (hwp : (evidence pj).wp p (fun _ _ => True) e) :
    ResolveInv pj (s.resume thread (some ⟨p, none⟩)) := by
  refine h.resume_same ?_
  intro r' hr'
  cases hr'
  refine ⟨e, hwp, ha.known, ha.announced, ?_⟩
  intro i hi
  cases hi

theorem ResolveInv.issue (h : ResolveInv pj s) {p : Prog Shared Unit} {issued : Option Nat}
    {e : Evidence} (ha : Accounted pj s thread ⟨p, issued⟩ e) :
    ResolveInv pj { s.resume thread (some ⟨p, some (s.clock + 1)⟩) with clock := s.clock + 1 } := by
  have hl : Later s { s with clock := s.clock + 1 } := ⟨Nat.le_succ _, id, id⟩
  show ResolveInv pj (({ s with clock := s.clock + 1 } : ResolveThreads).resume thread
    (some ⟨p, some (s.clock + 1)⟩))
  refine h.resume hl
    ⟨fun ht => le_trans (h.stamps.begun_le ht) (Nat.le_succ _),
      fun u => le_trans (h.stamps.announced_le u) (Nat.le_succ _), h.stamps.current,
      h.stamps.entry, h.stamps.report⟩ rfl (fun _ _ => ⟨rfl, rfl⟩) ?_
  intro r' hr'
  cases hr'
  refine ⟨e, Accounted.later h.stamps hl ⟨rfl, rfl⟩ ⟨ha.wp, ha.known, ha.announced, ?_⟩⟩
  intro i hi
  cases hi
  exact Nat.lt_succ_of_le (h.stamps.since_le thread)

theorem ResolveInv.reply (h : ResolveInv pj s) {p p' : Prog Shared Unit} {issued : Nat}
    {request : CallReq} {resp : DriveResponse} {e : Evidence}
    (ha : Accounted pj s thread ⟨p, some issued⟩ e)
    (hwp : (evidence pj).wp p' (fun _ _ => True) (e.learn (Carries pj request resp))) :
    ResolveInv pj { s.resume thread (some ⟨p', none⟩) with
      exchanges := ⟨issued, request, resp⟩ :: s.exchanges } := by
  have hl : Later s { s with exchanges := ⟨issued, request, resp⟩ :: s.exchanges } :=
    ⟨le_rfl, id, List.mem_cons_of_mem _⟩
  show ResolveInv pj (({ s with exchanges := ⟨issued, request, resp⟩ :: s.exchanges } :
    ResolveThreads).resume thread (some ⟨p', none⟩))
  refine h.resume hl
    ⟨h.stamps.begun_le, h.stamps.announced_le, h.stamps.current,
      fun he hquery => (h.stamps.entry he hquery).later hl,
      fun hr hfound => (h.stamps.report hr hfound).later hl⟩ rfl (fun _ _ => ⟨rfl, rfl⟩) ?_
  intro r' hr'
  cases hr'
  have ha' := ha.later h.stamps hl ⟨rfl, rfl⟩
  refine ⟨_, hwp, ?_, ha'.announced, ?_⟩
  · intro file hknown
    rcases hknown with hknown | hcarries
    · exact ha'.known hknown
    · exact ⟨⟨issued, request, resp⟩, List.mem_cons_self, ha'.issued rfl, hcarries⟩
  · intro i hi
    cases hi

theorem ResolveInv.start (h : ResolveInv pj s) (operation : Operation pj) :
    ResolveInv pj (s.resume thread (some ⟨operation.prog, none⟩)) := by
  refine h.resume_same ?_
  intro r' hr'
  cases hr'
  refine ⟨{}, operation.honest, fun hknown => hknown.elim, ?_, ?_⟩
  · intro query hquery
    cases hquery
  · intro i hi
    cases hi

/-- Every event keeps the invariant. -/
theorem resolveInv_step {event : ResolveEvent pj} (h : ResolveInv pj s)
    (hstep : s.step event = some s') : ResolveInv pj s' := by
  cases event with
  | start t operation =>
      simp only [step] at hstep
      split at hstep
      · cases hstep
        exact h.start operation
      · cases hstep
  | critical t =>
      simp only [step] at hstep
      split at hstep
      · rename_i q k ht
        obtain ⟨done, hdone, rfl⟩ := Option.map_eq_some_iff.mp hstep
        obtain ⟨e, ha⟩ := h.thread ht
        exact h.critical ha hdone
      · cases hstep
  | metadata t result =>
      simp only [step] at hstep
      split at hstep
      · rename_i ht
        cases hstep
        obtain ⟨e, ha⟩ := h.thread ht
        exact h.answered ha (ha.wp result)
      · rename_i ht
        cases hstep
        obtain ⟨e, ha⟩ := h.thread ht
        exact h.answered ha (ha.wp result)
      · cases hstep
  | issue t =>
      simp only [step] at hstep
      split at hstep
      · rename_i ht
        cases hstep
        obtain ⟨e, ha⟩ := h.thread ht
        exact h.issue ha
      · cases hstep
  | reply t result =>
      simp only [step] at hstep
      split at hstep
      · rename_i error ht
        cases hstep
        obtain ⟨e, ha⟩ := h.thread ht
        exact h.answered ha (ha.wp.1 error)
      · rename_i resp ht
        cases hstep
        obtain ⟨e, ha⟩ := h.thread ht
        exact h.reply ha (ha.wp.2 resp)
      · cases hstep
  | finish t =>
      simp only [step] at hstep
      split at hstep
      · cases hstep
        exact h.resume_same fun r hr => by cases hr
      · cases hstep
  | clear =>
      cases hstep
      refine ⟨h.stamps.recache rfl fun he => ?_, ?_⟩
      · cases he
      · intro t r hr
        obtain ⟨e, ha⟩ := h.thread hr
        exact ⟨e, ha.wp, ha.known, ha.announced, ha.issued⟩

theorem resolveInv (h : Reachable pj s) : ResolveInv pj s :=
  h.inv (fun hI hstep _ => resolveInv_step hI hstep) resolveInv_start

/-- Freshness evidence is sound. Whatever operations run on whatever threads,
a file that `TryResolvePath` has reported as fresh for a query came in a
reply of Drive to a request issued since that query was announced first; and
in no state of the cache is a hit fresh for a thread whose number is 0 or
`maximumQueryId`. -/
theorem leaf_is_fresh_sound (h : Reachable pj s) :
    (∀ r ∈ s.reports, ∀ file, r.found = some (file, true) →
      ∃ t, s.begun r.query = some t ∧
        ∃ x ∈ s.exchanges, t < x.issued ∧ Carries pj x.request x.response file) ∧
    ∀ (c : PathCache) (thread : Nat) (key : CacheKey) (file : DriveFileMeta) (fresh : Bool),
      c.queryGeneration thread = 0 ∨ c.queryGeneration thread = maximumQueryId →
      (c.tryGet thread key).1 = some (file, fresh) → fresh = false := by
  refine ⟨fun r hr file hfound => (resolveInv h).stamps.report hr hfound, ?_⟩
  intro c thread key file fresh hshared hhit
  cases fresh with
  | false => rfl
  | true =>
      obtain ⟨_, _, _, hquery, _⟩ := fresh_of_tryGet hhit
      rcases hshared with hzero | hmaximum
      · exact absurd hzero hquery.1
      · exact absurd hmaximum hquery.2

-- ===================================================================== an example

def oneFileBody : Str := str "\x7b\"files\":[\x7b\"id\":\"f\",\"name\":\"a\"\x7d]\x7d"

/-- The JSON library, as far as that body. -/
def oneFileJson : Picojson where
  parse body :=
    if body = oneFileBody then
      some (.object [(str "files", .array [.object
        [(str "id", .string (str "f")), (str "name", .string (str "a"))]])])
    else none
  serialize _ := []

def oneFileReader (thread : Nat) : Opener :=
  { thread, query := 7, auth := { identity := str "i" } }

def openOneFile (thread : Nat) : Operation oneFileJson :=
  .openFileForReading oneFileJson 1 (oneFileReader thread) (str "gdrive://a") (.path [str "a"])

/-- Two threads of one query: the second one finds what the first has
listed. -/
def listedThenFound : List (ResolveEvent oneFileJson) :=
  [.start 1 (openOneFile 1), .critical 1, .critical 1, .critical 1, .issue 1,
    .reply 1 (.ok { ok := true, body := oneFileBody }), .start 2 (openOneFile 2), .critical 2,
    .critical 1, .critical 2, .critical 2, .critical 2]

def foundState : ResolveThreads := (listedThenFound.foldlM step {}).getD {}

theorem foundState_reachable : Reachable oneFileJson foundState := by
  have hsome : (listedThenFound.foldlM step {}).isSome = true := by decide +kernel
  obtain ⟨s, hs⟩ := Option.isSome_iff_exists.mp hsome
  have hfound : foundState = s := by
    unfold foundState
    rw [hs]
    rfl
  rw [hfound]
  exact Runs.of_events hs trivial

/-- The second thread's file is as fresh as the first one's request. To a
thread that has announced nothing the same entry is not fresh. -/
theorem leaf_is_fresh_sound_case :
    (∃ r ∈ foundState.reports, ∃ file, r.found = some (file, true) ∧
      ∃ t, foundState.begun r.query = some t ∧
        ∃ x ∈ foundState.exchanges, t < x.issued ∧
          Carries oneFileJson x.request x.response file) ∧
      ∃ file, (foundState.cache.tryGet 3 ((oneFileReader 3).key (str "a"))).1 =
        some (file, false) := by
  obtain ⟨hreports, hshared⟩ := leaf_is_fresh_sound foundState_reachable
  constructor
  · have hany : (foundState.reports.any fun r => r.found.any (·.2)) = true := by decide +kernel
    obtain ⟨r, hr, hfresh⟩ := List.any_eq_true.mp hany
    rcases hfound : r.found with _ | ⟨file, _ | _⟩
    · rw [hfound] at hfresh
      cases hfresh
    · rw [hfound] at hfresh
      cases hfresh
    · exact ⟨r, hr, file, hfound, hreports r hr file hfound⟩
  · have hzero : foundState.cache.queryGeneration 3 = 0 := by decide +kernel
    have hhit : (foundState.cache.tryGet 3 ((oneFileReader 3).key (str "a"))).1.isSome = true := by
      decide +kernel
    obtain ⟨⟨file, fresh⟩, hfound⟩ := Option.isSome_iff_exists.mp hhit
    rw [hshared foundState.cache 3 _ file fresh (.inl hzero) hfound] at hfound
    exact ⟨file, hfound⟩

end ResolveThreads

end GDrive
