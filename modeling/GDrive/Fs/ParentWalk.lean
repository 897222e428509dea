/-
The parent walk of `OpenFile` for writing.

`wp_walkParents` is its rule: an invariant of the walk has to survive each
way a segment is entered, by the path cache, by a listing, by a new folder.
A folder is only made where its parent was listed to have nothing of the
name, or was itself made a moment ago.
-/
import GDrive.Fs.Coherence
import GDrive.Fs.Open

namespace GDrive

open Interaction Naming

section ParentWalk

variable {pj : Picojson} {rounds : Nat} {mayFail : CallReq → Prop} {R : Rel Client World}
  {o : Opener}

/-- An upload for a folder makes it, or fails and may have made it. -/
theorem treeRel_makeFolder {w w' : World} {parentId name : Str} {r : Except Exn DriveResponse}
    (h : treeRel pj mayFail w (.upload [] parentId name kFolderMimeType [] []) r w') :
    (∃ resp file, r = .ok resp ∧ resp.ok = true ∧ parseFileMeta pj resp.body = some file ∧
        file.isFolder = true ∧ file.name = name ∧ w.Creates parentId file w' ∧
        w'.sessions = w.sessions) ∨
      ((∀ resp, r = .ok resp → resp.ok = false) ∧
        (w' = w ∨ ∃ file, file.isFolder = true ∧ file.name = name ∧
          w.Creates parentId file w' ∧ w'.sessions = w.sessions)) := by
  have hpublishes : ∀ {file},
      w.Publishes ⟨[], parentId, name⟩ (makesFolder kFolderMimeType) 0 file w' →
      file.isFolder = true ∧ file.name = name ∧ w.Creates parentId file w' := by
    intro file hp
    exact ⟨hp.1, hp.2.2.2⟩
  rcases h with ⟨resp, hr, hok, hopen, file, hparse, hp⟩ | ⟨id, resp, hq, -⟩ | ⟨-, hfailed, hw⟩
  · obtain ⟨hfolder, hname, hcreates⟩ := hpublishes hp
    exact .inl ⟨resp, file, hr, hok, hparse, hfolder, hname, hcreates, hopen⟩
  · cases hq
  · refine .inr ⟨fun resp hr => (hfailed resp hr).1, ?_⟩
    rcases hw with rfl | ⟨resp, hopen, file, -, hp⟩
    · exact .inl rfl
    · obtain ⟨hfolder, hname, hcreates⟩ := hpublishes hp
      exact .inr ⟨file, hfolder, hname, hcreates, hopen⟩

/-- What a walk keeps: `I` where it stands, below `done`, at the folder `p`,
which may be new; `J` of the cache and the world when it throws. -/
structure WalkInv (o : Opener) (I : List Str → Str → Bool → PathCache → World → Prop)
    (J : PathCache → World → Prop) : Prop where
  thrown : ∀ {done p new c w}, I done p new c w → J c w
  hit : ∀ {done p s c w file fresh}, (∀ t ∈ done ++ [s], Segment t) → I done p false c w →
    (c.tryGet o.thread (o.key (joinPath (done ++ [s])))).1 = some (file, fresh) →
    file.isFolder = true →
    I (done ++ [s]) file.id false (c.tryGet o.thread (o.key (joinPath (done ++ [s])))).2 w
  looked : ∀ {done p c w} key, I done p false c w → I done p false (c.tryGet o.thread key).2 w
  dropped : ∀ {done p c w} key, I done p false c w → I done p false (c.invalidatePrefix key) w
  adopted : ∀ {done p s c w folder}, (∀ t ∈ done ++ [s], Segment t) → I done p false c w →
    w.foldersNamed (w.deref p) s = [folder] →
    I (done ++ [s]) folder.id false (c.put o.thread (o.key (joinPath (done ++ [s]))) folder) w
  made : ∀ {done p new s c w w' folder}, (∀ t ∈ done ++ [s], Segment t) → I done p new c w →
    (new = false → w.named (w.deref p) s = []) → folder.isFolder = true → folder.name = s →
    w.Creates p folder w' → w'.sessions = w.sessions →
    I (done ++ [s]) folder.id true (c.put o.thread (o.key (joinPath (done ++ [s]))) folder) w' ∧
      J c w'

section Rule

variable {I : List Str → Str → Bool → PathCache → World → Prop} {J : PathCache → World → Prop}
  {done : List Str} {p s : Str} {new : Bool} {c : PathCache} {w : World} {path : Str}

/-- What a step or a whole walk ends in. -/
def WalkPost (I : List Str → Str → Bool → PathCache → World → Prop)
    (J : PathCache → World → Prop) (done : List Str) :
    Except Exn (Str × Bool) → PathCache → World → Prop :=
  Code.outcome (fun folder c w => I done folder.1 folder.2 c w) fun _ c w => J c w

theorem wp_makeFolder (hR : ∀ w q r w', R w q r w' → treeRel pj mayFail w q r w')
    (hI : WalkInv o I J) (hsegs : ∀ t ∈ done ++ [s], Segment t) (h : I done p new c w)
    (hfree : new = false → w.named (w.deref p) s = []) :
    Code.wp (fsEnv R) (makeFolder pj o p (joinPath (done ++ [s])) s path)
      (WalkPost I J (done ++ [s])) c w := by
  unfold makeFolder
  rw [Code.wp_bind, wp_call]
  refine ⟨trivial, ?_⟩
  intro r w' hr
  have hcases := treeRel_makeFolder (hR _ _ _ _ hr)
  have hfail : (∀ resp, r = .ok resp → resp.ok = false) → J c w' := by
    intro hfail
    rcases hcases with ⟨resp, file, hresp, hok, -⟩ |
      ⟨-, rfl | ⟨file, hfolder, hname, hcreates, hopen⟩⟩
    · have hfalse := hfail resp hresp
      rw [hok] at hfalse
      cases hfalse
    · exact hI.thrown h
    · exact (hI.made hsegs h hfree hfolder hname hcreates hopen).2
  cases r with
  | error e => exact hfail nofun
  | ok resp =>
      rw [Code.outcome_ok, Code.wp_bind, Code.wp_when]
      refine ⟨?_, ?_⟩
      · intro hok
        refine hfail ?_
        intro resp' hresp
        cases hresp
        simpa using hok
      · intro hok
        rcases hcases with ⟨resp', file, hresp, -, hparse, hfolder, hname, hcreates, hopen⟩ |
          ⟨hno, -⟩
        · cases hresp
          rw [Code.outcome_ok, hparse]
          exact (hI.made hsegs h hfree hfolder hname hcreates hopen).1
        · rw [hno resp rfl] at hok
          cases hok

/-- Nothing of the name lies beside a folder that is made. -/
theorem wp_makeFreeFolder (hR : ∀ w q r w', R w q r w' → treeRel pj mayFail w q r w')
    (hrounds : 1 ≤ rounds) (hI : WalkInv o I J) (hsegs : ∀ t ∈ done ++ [s], Segment t)
    (h : I done p false c w) (hnone : w.foldersNamed (w.deref p) s = []) :
    Code.wp (fsEnv R) (makeFreeFolder pj rounds o p (joinPath (done ++ [s])) s path)
      (WalkPost I J (done ++ [s])) c w := by
  unfold makeFreeFolder
  rw [Code.wp_bind]
  refine Code.wp_mono (wp_listByName hR hrounds _ _ _ _ _) ?_
  intro out c' w' ⟨hc, hw, hout⟩
  subst hc hw
  rcases hout with rfl | ⟨-, e, rfl⟩
  · rw [Code.outcome_ok, show w'.found (w'.deref p) s false = w'.named (w'.deref p) s from rfl,
      show (w'.named (w'.deref p) s).filter (·.isFolder) = [] from hnone]
    cases hfiles : ((w'.named (w'.deref p) s).filter (!·.isFolder)).getLast? with
    | some file => exact hI.thrown h
    | none =>
        refine wp_makeFolder hR hI hsegs h fun _ => ?_
        have hfiles := List.getLast?_eq_none_iff.mp hfiles
        refine List.eq_nil_iff_forall_not_mem.mpr ?_
        intro f hf
        cases hkind : f.isFolder with
        | true =>
            have hmem : f ∈ w'.foldersNamed (w'.deref p) s :=
              World.mem_foldersNamed.mpr ⟨hf, hkind⟩
            rw [hnone] at hmem
            cases hmem
        | false =>
            have hmem : f ∈ (w'.named (w'.deref p) s).filter (!·.isFolder) :=
              List.mem_filter.mpr ⟨hf, by rw [hkind]; rfl⟩
            rw [hfiles] at hmem
            cases hmem
  · exact hI.thrown h

theorem wp_enterListed (hR : ∀ w q r w', R w q r w' → treeRel pj mayFail w q r w')
    (hrounds : 1 ≤ rounds) (hI : WalkInv o I J) (hsegs : ∀ t ∈ done ++ [s], Segment t)
    (h : I done p false c w) :
    Code.wp (fsEnv R) (enterListed pj rounds o p (joinPath (done ++ [s])) s path)
      (WalkPost I J (done ++ [s])) c w := by
  unfold enterListed
  rw [Code.wp_bind]
  refine Code.wp_mono (wp_listByName hR hrounds _ _ _ _ _) ?_
  intro out c' w' ⟨hc, hw, hout⟩
  subst hc hw
  rcases hout with rfl | ⟨-, e, rfl⟩
  · rw [Code.outcome_ok, show w'.found (w'.deref p) s true = w'.foldersNamed (w'.deref p) s from rfl]
    split
    · rename_i hnone
      exact wp_makeFreeFolder hR hrounds hI hsegs h hnone
    · rename_i folder hfolder
      exact hI.adopted hsegs h hfolder
    · exact hI.thrown h
  · exact hI.thrown h

theorem wp_enterFolder (hR : ∀ w q r w', R w q r w' → treeRel pj mayFail w q r w')
    (hrounds : 1 ≤ rounds) (hI : WalkInv o I J) (hsegs : ∀ t ∈ done ++ [s], Segment t)
    (h : I done p new c w) :
    Code.wp (fsEnv R) (enterFolder pj rounds o new p (joinPath (done ++ [s])) s path)
      (WalkPost I J (done ++ [s])) c w := by
  unfold enterFolder
  cases new with
  | true =>
      rw [if_pos rfl]
      exact wp_makeFolder hR hI hsegs h nofun
  | false =>
      unfold useCache
      rw [if_neg Bool.false_ne_true, Code.wp_bind, Code.wp_bind, Code.wp_get, Code.outcome_ok,
        Code.wp_bind, Code.wp_set, Code.outcome_ok, Code.wp_pure, Code.outcome_ok]
      have h' := hI.looked (o.key (joinPath (done ++ [s]))) h
      split
      · exact wp_enterListed hR hrounds hI hsegs h'
      · rename_i file fresh hget
        by_cases hfolder : file.isFolder = true
        · rw [if_pos hfolder]
          exact hI.hit hsegs h hget hfolder
        · rw [if_neg hfolder, Code.wp_bind, Code.wp_modify, Code.outcome_ok]
          exact wp_enterListed hR hrounds hI hsegs (hI.dropped _ h')

/-- The rule of the walk, by induction on the segments left. -/
theorem wp_walkParents (hR : ∀ w q r w', R w q r w' → treeRel pj mayFail w q r w')
    (hrounds : 1 ≤ rounds) (hI : WalkInv o I J) {segments : List Str}
    (hsegs : ∀ t ∈ done ++ segments, Segment t) (h : I done p new c w) :
    Code.wp (fsEnv R) (walkParents pj rounds o path new p (joinPath done) segments)
      (WalkPost I J (done ++ segments)) c w := by
  induction segments generalizing done p new c w with
  | nil =>
      rw [List.append_nil]
      exact h
  | cons s rest ih =>
      have hall : ∀ t ∈ (done ++ [s]) ++ rest, Segment t := by
        rw [← List.append_cons]
        exact hsegs
      unfold walkParents
      rw [← joinPath_concat, Code.wp_bind]
      refine Code.wp_mono (wp_enterFolder hR hrounds hI
        (fun t ht => hall t (List.mem_append_left _ ht)) h) ?_
      intro out c' w' hout
      cases out with
      | error e => exact hout
      | ok folder =>
          rw [Code.outcome_ok, List.append_cons done s rest]
          exact ih hall hout

end Rule

end ParentWalk

end GDrive
