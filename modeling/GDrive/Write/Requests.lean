/-
What the requests of one write handle do to Drive.

`RequestOk` says when a request belongs to an upload of the bytes `full`:
the body of a data PUT is what `full` has at the offset it names, a total
is the length of `full`, a create or an update carries all of it. Only one
`Target` may publish. `UploadInv` is what Drive then looks like, whatever
is applied when; `UploadInv.serves` is the step everything else rests on.
-/
import GDrive.Write.Server
import GDrive.Client.Client

namespace GDrive

open Interaction

-- ================================================================= the invariant

/-- Where the upload will be published: the last chunk of one session, a
create with a reserved id, a single create, or an overwrite. -/
inductive Target
  | session (path : Str)
  | reserved (id : Str)
  | single
  | overwrite

section

variable (pj : Picojson) (fileId full : Str)

/-- A request that belongs to the upload. -/
def RequestOk (target : Option Target) : Upload → Prop
  | .session path range data =>
      (∀ first last total, range = .bytes first last total → data <+: full.drop first) ∧
        ∀ t, range.total = some t → t = full.length ∧ target = some (.session path)
  | .create metadata data =>
      data = full ∧ fileId = [] ∧
        ((∃ id, target = some (.reserved id) ∧ metadata.id = some id) ∨
          (target = some .single ∧ metadata.id = none))
  | .update fileId' data =>
      data = full ∧ fileId ≠ [] ∧ fileId' = fileId ∧ target = some .overwrite

def Upload.isCreate : Upload → Bool
  | .create _ _ => true
  | _ => false

/-- How many creates are still under way. -/
def lateCreates (w : Drive) : Nat := (w.late.filter Upload.isCreate).length

/-- At most one file comes out of it. -/
def Once (fileId : Str) (target : Option Target) (w : Drive) : Prop :=
  match target with
  | none => w.published = []
  | some (.session path) =>
      w.published = [] ∨ (w.published.length = 1 ∧
        ∀ s, w.sessions path = some s → s.published = true)
  | some (.reserved id) => w.published = [] ∨ (w.published.length = 1 ∧ w.Used id)
  | some .single => lateCreates w + w.published.length ≤ 1
  | some .overwrite => fileId ≠ []

/-- Drive during an upload of `full`. -/
structure UploadInv (target : Option Target) (w : Drive) : Prop where
  held : ∀ path s, w.sessions path = some s → s.held <+: full
  file : ∀ path s, w.sessions path = some s → s.fileId = fileId
  announced : ∀ path s, w.sessions path = some s → s.published = true → w.published ≠ []
  late : ∀ r ∈ w.late, RequestOk fileId full target r
  content : ∀ p ∈ w.published, p.content = full
  created : ∀ p ∈ w.published, p.created = fileId.isEmpty
  once : Once fileId target w

end

variable {pj : Picojson} {fileId full : Str} {target : Option Target}

/-- A session of the upload after a request of the upload. -/
theorem Keeps.within {s s' : DriveSession} {path data : Str} {range : ContentRange}
    (hk : Keeps s range data s') (hheld : s.held <+: full)
    (hr : RequestOk fileId full target (.session path range data)) : s'.held <+: full := by
  obtain ⟨kept, hdata, hs', hbytes⟩ := hk.kept
  rw [hs']
  by_cases hnil : kept = []
  · rw [hnil, List.append_nil]
    exact hheld
  · obtain ⟨last, total, hrange⟩ := hbytes hnil
    obtain ⟨rest, rfl⟩ := hheld
    have hslice := hr.1 _ _ _ hrange
    rw [List.drop_left] at hslice
    exact (List.prefix_append_right_inj _).mpr (hdata.trans hslice)

/-- What is published at the right total is everything. -/
theorem eq_of_prefix_of_total {held : Str} (h : held <+: full) {t : Nat}
    (ht : t = full.length) (hl : some t = some held.length) : held = full := by
  refine h.eq_of_length ?_
  rw [← ht]
  exact (Option.some.inj hl).symm

-- ========================================================== a request applied

/-- A request dropped from the late ones. -/
def Drive.withLate (w : Drive) (l : List Upload) : Drive := { w with late := l }

theorem UploadInv.drop {w : Drive} {l₁ l₂ : List Upload} {r : Upload}
    (h : UploadInv fileId full target w) (hl : w.late = l₁ ++ r :: l₂) :
    UploadInv fileId full target (w.withLate (l₁ ++ l₂)) := by
  refine ⟨h.held, h.file, h.announced, ?_, h.content, h.created, ?_⟩
  · intro r' hr'
    refine h.late r' ?_
    rw [hl]
    rcases List.mem_append.mp hr' with hr' | hr'
    · exact List.mem_append_left _ hr'
    · exact List.mem_append_right _ (List.mem_cons_of_mem _ hr')
  · have honce := h.once
    cases target with
    | none => exact honce
    | some t =>
        cases t with
        | single =>
            have hle : lateCreates (w.withLate (l₁ ++ l₂)) ≤ lateCreates w := by
              unfold lateCreates Drive.withLate
              rw [hl]
              simp only [List.filter_append, List.filter_cons, List.length_append]
              split <;> simp
            show lateCreates (w.withLate (l₁ ++ l₂)) + w.published.length ≤ 1
            have : lateCreates w + w.published.length ≤ 1 := honce
            omega
        | _ => exact honce

theorem Drive.sessions_setSession {w : Drive} {path path' : Str} {s s' : DriveSession}
    (h : (w.setSession path (some s')).sessions path' = some s) :
    (path' = path ∧ s = s') ∨ w.sessions path' = some s := by
  unfold Drive.setSession at h
  by_cases hp : path' = path
  · rw [hp] at h
    simp only [Function.update_self, Option.some.injEq] at h
    exact .inl ⟨hp, h.symm⟩
  · simp only [Function.update_of_ne hp] at h
    exact .inr h

/-- A session of the upload, set to one that still is. -/
theorem UploadInv.setSession {w : Drive} {path : Str} {s : DriveSession}
    (h : UploadInv fileId full target w) (hheld : s.held <+: full) (hfile : s.fileId = fileId)
    (hpub : s.published = true → w.published ≠ [])
    (honce : Once fileId target (w.setSession path (some s))) :
    UploadInv fileId full target (w.setSession path (some s)) := by
  refine ⟨?_, ?_, ?_, h.late, h.content, h.created, honce⟩
  · intro path' s' hs'
    rcases Drive.sessions_setSession hs' with ⟨-, rfl⟩ | hs'
    · exact hheld
    · exact h.held _ _ hs'
  · intro path' s' hs'
    rcases Drive.sessions_setSession hs' with ⟨-, rfl⟩ | hs'
    · exact hfile
    · exact h.file _ _ hs'
  · intro path' s' hs' hp
    rcases Drive.sessions_setSession hs' with ⟨-, rfl⟩ | hs'
    · exact hpub hp
    · exact h.announced _ _ hs' hp

theorem UploadInv.publish {w : Drive} {p : Publication} (h : UploadInv fileId full target w)
    (hcontent : p.content = full) (hcreated : p.created = fileId.isEmpty)
    (honce : Once fileId target (w.publish p)) : UploadInv fileId full target (w.publish p) := by
  refine ⟨h.held, h.file, ?_, h.late, ?_, ?_, honce⟩
  · intro _ _ _ _ hnil
    exact List.append_ne_nil_of_right_ne_nil _ (List.cons_ne_nil p []) hnil
  · intro q hq
    rcases List.mem_append.mp hq with hq | hq
    · exact h.content q hq
    · rw [List.mem_singleton.mp hq]
      exact hcontent
  · intro q hq
    rcases List.mem_append.mp hq with hq | hq
    · exact h.created q hq
    · rw [List.mem_singleton.mp hq]
      exact hcreated

/-- Keeping bytes publishes nothing. -/
theorem Once.setSession {w : Drive} {path : Str} {s s' : DriveSession} (h : Once fileId target w)
    (hs : w.sessions path = some s) (hpub : s.published = true → s'.published = true) :
    Once fileId target (w.setSession path (some s')) := by
  cases target with
  | none => exact h
  | some t =>
      cases t with
      | session target =>
          rcases h with hnil | ⟨hone, hall⟩
          · exact .inl hnil
          · refine .inr ⟨hone, ?_⟩
            intro s'' hs''
            rcases Drive.sessions_setSession hs'' with ⟨rfl, rfl⟩ | hs''
            · exact hpub (hall _ hs)
            · exact hall _ hs''
      | _ => exact h

/-- What a request that is applied leaves behind. -/
structure Applied (fileId full : Str) (target : Option Target) (w w' : Drive) : Prop where
  inv : UploadInv fileId full target w'
  published : w.published ≠ [] → w'.published ≠ []
  creates : w'.creates = w.creates
  existing : w'.existing = w.existing

theorem Applied.trans {w w₁ w₂ : Drive} (h₁ : Applied fileId full target w w₁)
    (h₂ : Applied fileId full target w₁ w₂) : Applied fileId full target w w₂ :=
  ⟨h₂.inv, fun h => h₂.published (h₁.published h), h₂.creates.trans h₁.creates,
    h₂.existing.trans h₁.existing⟩

theorem publish_ne_nil (w : Drive) (p : Publication) : (w.publish p).published ≠ [] :=
  List.append_ne_nil_of_right_ne_nil _ (List.cons_ne_nil p [])

/-- A late request of the upload, applied: the upload's invariant again. -/
theorem UploadInv.serves {w w' : Drive} {l₁ l₂ : List Upload} {r : Upload}
    (h : UploadInv fileId full target w) (hl : w.late = l₁ ++ r :: l₂)
    (hserves : Serves (w.withLate (l₁ ++ l₂)) r w') : Applied fileId full target w w' := by
  have hr : RequestOk fileId full target r := by
    refine h.late r ?_
    rw [hl]
    exact List.mem_append_right _ List.mem_cons_self
  have hd := h.drop hl
  cases hserves with
  | gone _ => exact ⟨hd, id, rfl, rfl⟩
  | duplicate _ _ => exact ⟨hd, id, rfl, rfl⟩
  | keep hs hk hpub =>
      refine ⟨hd.setSession (hk.within (hd.held _ _ hs) hr) ?_ ?_ ?_, id, rfl, rfl⟩
      · rw [hk.file]
        exact hd.file _ _ hs
      · intro hp
        rw [hpub] at hp
        exact hd.announced _ _ hs hp
      · exact hd.once.setSession hs hk.stays
  | @publish path range data s s' id hs hk hfalse htrue _ =>
      obtain ⟨ht, htarget⟩ := hr.2 _ (hk.total hfalse htrue)
      have hheld := hk.within (hd.held _ _ hs) hr
      have hfull := eq_of_prefix_of_total hheld ht rfl
      subst htarget
      -- Nothing was published before: the target session had not.
      have hnil : w.published = [] := by
        rcases hd.once with hnil | ⟨-, hall⟩
        · exact hnil
        · rw [hall _ hs] at hfalse
          cases hfalse
      have hone : w.published ++ [⟨s.fileId.isEmpty, id, s'.held⟩] =
          [⟨s.fileId.isEmpty, id, s'.held⟩] := by rw [hnil]; rfl
      refine ⟨⟨?_, ?_, fun _ _ _ _ => publish_ne_nil _ _, hd.late, ?_, ?_, .inr ⟨?_, ?_⟩⟩,
        fun _ => publish_ne_nil _ _, rfl, rfl⟩
      · intro path' s'' hs''
        rcases Drive.sessions_setSession hs'' with ⟨-, rfl⟩ | hs''
        · exact hheld
        · exact hd.held _ _ hs''
      · intro path' s'' hs''
        rcases Drive.sessions_setSession hs'' with ⟨-, rfl⟩ | hs''
        · rw [hk.file]
          exact hd.file _ _ hs
        · exact hd.file _ _ hs''
      · intro p (hp : p ∈ w.published ++ [_])
        rw [hone, List.mem_singleton] at hp
        rw [hp]
        exact hfull
      · intro p (hp : p ∈ w.published ++ [_])
        rw [hone, List.mem_singleton] at hp
        rw [hp, ← hd.file _ _ hs]
      · show (w.published ++ [_]).length = 1
        rw [hone]
        rfl
      · intro s'' hs''
        have hnew : Function.update w.sessions path (some s') path = some s'' := hs''
        rw [Function.update_self] at hnew
        cases hnew
        exact htrue
  | create hid hunused =>
      obtain ⟨rfl, hempty, htarget⟩ := hr
      refine ⟨hd.publish rfl (by rw [hempty]; rfl) ?_, fun _ => publish_ne_nil _ _, rfl, rfl⟩
      rcases htarget with ⟨rid, rfl, hrid⟩ | ⟨rfl, hnone⟩
      · have hnil : w.published = [] := by
          rcases hd.once with hnil | ⟨-, hused⟩
          · exact hnil
          · rw [hid rid hrid] at hunused
            exact absurd hused hunused
        refine .inr ⟨?_, .inr ⟨_, List.mem_append_right _ List.mem_cons_self, rfl, hid rid hrid⟩⟩
        show (w.published ++ [_]).length = 1
        rw [hnil]
        rfl
      · have honce : lateCreates w + w.published.length ≤ 1 := h.once
        have hcount : lateCreates w = lateCreates (w.withLate (l₁ ++ l₂)) + 1 := by
          unfold lateCreates Drive.withLate
          rw [hl]
          simp only [List.filter_append, List.filter_cons, List.length_append]
          simp [Upload.isCreate]
          omega
        show lateCreates (w.withLate (l₁ ++ l₂)) + (w.published ++ [_]).length ≤ 1
        rw [List.length_append, List.length_singleton]
        omega
  | update =>
      obtain ⟨rfl, hne, rfl, rfl⟩ := hr
      refine ⟨hd.publish rfl ?_ hne, fun _ => publish_ne_nil _ _, rfl, rfl⟩
      exact (List.isEmpty_eq_false_iff.mpr hne).symm

-- ============================================================== whole requests

private theorem Drive.withLate_self (w : Drive) (r : Upload) :
    (w.delay r).withLate (w.late ++ []) = w := by
  rw [List.append_nil]
  rfl

theorem Applied.refl {w : Drive} (h : UploadInv fileId full target w) :
    Applied fileId full target w w := ⟨h, id, rfl, rfl⟩

/-- Late requests of the upload keep its invariant, whichever are applied. -/
theorem UploadInv.lates {w w' : Drive} (h : UploadInv fileId full target w)
    (hl : Lates w w') : Applied fileId full target w w' := by
  induction hl with
  | refl => exact .refl h
  | step hlate hserves _ ih =>
      have happlied := h.serves hlate hserves
      exact happlied.trans (ih happlied.inv)

/-- A single create is only ever sent while none is under way and nothing
is published. -/
def Fresh (target : Option Target) (r : Upload) (w : Drive) : Prop :=
  target = some .single → r.isCreate = true → lateCreates w + w.published.length = 0

/-- A request of the upload joins the ones under way. -/
theorem UploadInv.delay {w : Drive} {r : Upload} (h : UploadInv fileId full target w)
    (hr : RequestOk fileId full target r) (hfresh : Fresh target r w) :
    UploadInv fileId full target (w.delay r) := by
  refine ⟨h.held, h.file, h.announced, ?_, h.content, h.created, ?_⟩
  · intro r' hr'
    rcases List.mem_append.mp hr' with hr' | hr'
    · exact h.late r' hr'
    · rw [List.mem_singleton.mp hr']
      exact hr
  · have honce := h.once
    cases target with
    | none => exact honce
    | some t =>
        cases t with
        | single =>
            have hle : lateCreates w + w.published.length ≤ 1 := honce
            show lateCreates (w.delay r) + w.published.length ≤ 1
            have hcount : lateCreates (w.delay r) =
                lateCreates w + (List.filter Upload.isCreate [r]).length := by
              unfold lateCreates Drive.delay
              rw [List.filter_append, List.length_append]
            rw [hcount]
            cases hc : r.isCreate with
            | false => simpa [hc] using hle
            | true =>
                have hzero := hfresh rfl hc
                simp only [List.filter_cons, hc, if_true, List.filter_nil, List.length_singleton]
                omega
        | _ => exact honce

/-- A request of the upload, whenever it is applied. -/
theorem UploadInv.takes {w w' : Drive} {r : Upload} {timing : Timing}
    (h : UploadInv fileId full target w) (hr : RequestOk fileId full target r)
    (hfresh : Fresh target r w) (ht : Takes w r timing w') :
    Applied fileId full target w w' := by
  have hd := h.delay hr hfresh
  cases timing with
  | now =>
      have hserves : Serves ((w.delay r).withLate (w.late ++ [])) r w' := by
        rw [Drive.withLate_self]
        exact ht
      have hlate : (w.delay r).late = w.late ++ r :: [] := rfl
      have happlied := hd.serves hlate hserves
      exact ⟨happlied.inv, happlied.published, happlied.creates, happlied.existing⟩
  | never =>
      obtain rfl : w' = w := ht
      exact .refl h
  | later =>
      obtain rfl : w' = w.delay r := ht
      exact ⟨hd, id, rfl, rfl⟩

-- ======================================================= changing the upload

/-- Before anything may publish, the upload may grow. -/
theorem UploadInv.mono {w : Drive} {full' : Str} (h : UploadInv fileId full none w)
    (hfull : full <+: full') : UploadInv fileId full' none w := by
  have hnil : w.published = [] := h.once
  refine ⟨fun path s hs => (h.held path s hs).trans hfull, h.file, h.announced, ?_, ?_,
    h.created, hnil⟩
  · intro r hr
    have hok := h.late r hr
    cases r with
    | session path range data =>
        refine ⟨fun first last total hrange => (hok.1 _ _ _ hrange).trans (hfull.drop first), ?_⟩
        intro t ht
        cases (hok.2 t ht).2
    | create metadata data =>
        rcases hok.2.2 with ⟨id, ht, -⟩ | ⟨ht, -⟩ <;> cases ht
    | update id data => cases hok.2.2.2
  · intro p hp
    rw [hnil] at hp
    cases hp

/-- Nor is any create under way then. -/
theorem UploadInv.lateCreates_eq {w : Drive} (h : UploadInv fileId full none w) :
    lateCreates w = 0 := by
  unfold lateCreates
  rw [List.length_eq_zero_iff, List.filter_eq_nil_iff]
  intro r hr hc
  have hok := h.late r hr
  cases r with
  | create metadata data =>
      rcases hok.2.2 with ⟨id, ht, -⟩ | ⟨ht, -⟩ <;> cases ht
  | session path range data => cases hc
  | update id data => cases hc

/-- The one publishing attempt is chosen. -/
theorem UploadInv.aim {w : Drive} (h : UploadInv fileId full none w) (t : Target)
    (ht : t = .overwrite → fileId ≠ []) : UploadInv fileId full (some t) w := by
  have hnil : w.published = [] := h.once
  refine ⟨h.held, h.file, h.announced, ?_, h.content, h.created, ?_⟩
  · intro r hr
    have hok := h.late r hr
    cases r with
    | session path range data =>
        refine ⟨hok.1, ?_⟩
        intro n hn
        cases (hok.2 n hn).2
    | create metadata data =>
        rcases hok.2.2 with ⟨id, ht, -⟩ | ⟨ht, -⟩ <;> cases ht
    | update id data => cases hok.2.2.2
  · cases t with
    | session path => exact .inl hnil
    | reserved id => exact .inl hnil
    | single =>
        show lateCreates w + w.published.length ≤ 1
        rw [h.lateCreates_eq, hnil]
        exact Nat.zero_le _
    | overwrite => exact ht rfl

/-- A session given up. -/
theorem UploadInv.eraseSession {w : Drive} (h : UploadInv fileId full target w) (path : Str) :
    UploadInv fileId full target (w.setSession path none) := by
  have hsub : ∀ path' s, (w.setSession path none).sessions path' = some s →
      w.sessions path' = some s := by
    intro path' s hs
    unfold Drive.setSession at hs
    by_cases hp : path' = path
    · rw [hp] at hs
      simp only [Function.update_self, reduceCtorEq] at hs
    · simpa only [Function.update_of_ne hp] using hs
  refine ⟨fun p s hs => h.held p s (hsub p s hs), fun p s hs => h.file p s (hsub p s hs),
    fun p s hs => h.announced p s (hsub p s hs), h.late, h.content, h.created, ?_⟩
  have honce := h.once
  cases target with
  | none => exact honce
  | some t =>
      cases t with
      | session target =>
          rcases honce with hnil | ⟨hone, hall⟩
          · exact .inl hnil
          · exact .inr ⟨hone, fun s hs => hall s (hsub _ s hs)⟩
      | _ => exact honce

end GDrive
