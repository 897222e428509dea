/-
What `MutateMoveFile` leaves in the path cache where it throws.

It drops what the cache has of its two paths at its end only. So where it
throws and Drive has changed nothing, the cache agrees with the tree as it
did before (`move_failure_coherence`). A move that was made but whose answer
was lost leaves the source's entry in place, and the next resolution of the
source finds what is no longer there
(`move_failure_coherence_unanswered`).
-/
import GDrive.Fs.Move

namespace GDrive

open Interaction Naming

/-- A path that lies at or beneath the one a URI spells. -/
def GDriveUri.Covers : GDriveUri → List Str → Prop
  | .path segments, more => segments <+: more
  | .fileId _, _ => False

/-- No entry at or beneath the two paths contradicts the tree. -/
def MoveCoherent (w : World) (auth : AuthContext) (source target : GDriveUri) (c : PathCache) :
    Prop :=
  ∀ segments e, (∀ s ∈ segments, Segment s) → source.Covers segments ∨ target.Covers segments →
    c.entries.lookup (pathKey auth segments) = some e → w.Names segments e.file

section Failure

variable {pj : Picojson} {rounds : Nat} {mayFail : CallReq → Prop} {R : Rel Client World}
  {o : Opener} {w w' : World} {c c' : PathCache} {source target : GDriveUri} {e : Exn}

theorem Agrees.coherent (h : Agrees w o.auth c) : MoveCoherent w o.auth source target c :=
  fun _ _ hsegments _ he => h.names hsegments he

/-- A move that throws has left the cache in agreement with the tree as it
was. -/
theorem MoveEnds.agrees (h : MoveEnds w o source target (.error e) c' w') :
    Agrees w o.auth c' := by
  cases h with
  | refused _ h => exact h
  | unanswered _ _ h _ => exact h
  | undeleted _ _ h _ _ _ => exact h

/-- Where a move throws and Drive has changed nothing, no entry contradicts
the tree. -/
theorem move_failure_coherence (hR : ∀ w q r w', R w q r w' → treeRel pj mayFail w q r w')
    (hrounds : 1 ≤ rounds) (hroot : rootFolderFor o.auth = w.rootAlias) (hsource : source.Clean)
    (hcache : Agrees w o.auth c)
    (hrun : Reaches R (mutateMoveFile pj rounds o source target c) w (.ret (.error e, c')) w')
    (hsame : w' = w) : MoveCoherent w' o.auth source target c' := by
  have hwp : Code.wp (.ofRel R (MoveReaches w o source target))
      (mutateMoveFile pj rounds o source target) (MoveEnds w o source target) c w :=
    Code.wp_of_total (wp_mutateMoveFile hR hrounds hroot hsource hcache fun _ h => h)
  rw [hsame]
  exact (Code.wp_returns hwp hrun).agrees.coherent

end Failure

-- ============================================================== a lost answer

section LostAnswer

/-- A Drive that moves `a` to `d`, and whose answer does not arrive. -/
def unheard : Nat → (q : CallReq) → Except Exn DriveResponse × Nat
  | 0, .move id newParent newName _ =>
      if id = str "A" ∧ newParent = str "R" ∧ newName = str "d" then (lost, 1) else (lost, 0)
  | n, q => (served mixedJson (overFile n) q, n)

theorem unheard_truthful (n : Nat) (q : CallReq) :
    (treeRel mixedJson fun _ => True).along overFile n q (unheard n q).1 (unheard n q).2 := by
  show treeRel mixedJson _ (overFile n) q _ (overFile _)
  unfold unheard
  split
  · split
    · rename_i heq
      obtain ⟨rfl, rfl, rfl⟩ := heq
      refine .inr (.inr ⟨trivial, nofun, .inr ⟨{}, rfl, ?_⟩⟩)
      exact ⟨by decide +kernel, rfl, rfl, rfl⟩
    · exact lost_truthful trivial
  · exact served_truthful mixedJson (overFile n) q

/-- What a move that threw left in the cache under a path. -/
def leftUnder (p : Prog Client (Except Exn Unit × PathCache)) (segments : List Str) :
    Option PathEntry :=
  match p with
  | .ret (.error _, c) => c.entries.lookup (pathKey me.auth segments)
  | _ => none

theorem eq_ret_of_leftUnder (p : Prog Client (Except Exn Unit × PathCache)) (segments : List Str)
    (h : (leftUnder p segments).isSome = true) :
    ∃ e c entry, p = .ret (.error e, c) ∧
      c.entries.lookup (pathKey me.auth segments) = some entry := by
  obtain ⟨entry, hentry⟩ := Option.isSome_iff_exists.mp h
  unfold leftUnder at hentry
  split at hentry
  · exact ⟨_, _, entry, rfl, hentry⟩
  · cases hentry

theorem clean_singleton {s : Str} (h : Segment s) : (GDriveUri.path [s]).Clean := by
  intro t ht
  rw [List.mem_singleton.mp ht]
  exact h

/-- The move has been made, and the cache still has `a`. -/
theorem move_failure_coherence_unanswered : ∃ e c',
    Reaches (treeRel mixedJson fun _ => True) (moveOfA (str "d")) mixedTree (.ret (.error e, c'))
      (overFile 1) ∧
      ¬MoveCoherent (overFile 1) me.auth (.path [str "a"]) (.path [str "d"]) c' := by
  have hrun := (Prog.play_reaches unheard_truthful (moveOfA (str "d")) 0).seen
  have hplayed : (Prog.play unheard (moveOfA (str "d")) 0).2 = 1 := by decide +kernel
  obtain ⟨e, c', entry, hret, hentry⟩ := eq_ret_of_leftUnder
    (Prog.play unheard (moveOfA (str "d")) 0).1 [str "a"] (by decide +kernel)
  rw [hplayed, hret] at hrun
  refine ⟨e, c', hrun, ?_⟩
  intro hcoherent
  have hsegment : Segment (str "a") := ⟨by decide, by decide⟩
  obtain ⟨init, s, p, hinit, hfolder, ⟨f, hf, -⟩, -⟩ :=
    hcoherent [str "a"] entry (clean_singleton hsegment) (.inl (List.prefix_refl _)) hentry
  have hconcat : [] ++ [str "a"] = init ++ [s] := hinit
  obtain ⟨rfl, hs⟩ := List.append_inj' hconcat rfl
  cases hs
  obtain rfl : str "R" = p := Option.some.inj hfolder
  have hnone : (overFile 1).named (str "R") (str "a") = [] := by decide +kernel
  rw [hnone] at hf
  cases hf

/-- A Drive that refuses the move leaves the cache as right as it was. -/
theorem move_failure_coherence_refused : ∃ e c',
    Reaches (treeRel mixedJson fun _ => True) (moveOfA (str "d")) mixedTree (.ret (.error e, c'))
      mixedTree ∧
      MoveCoherent mixedTree me.auth (.path [str "a"]) (.path [str "d"]) c' := by
  have hrun := reaches_servedRun mixedJson mixedTree (moveOfA (str "d"))
  obtain ⟨e, c', entry, hret, -⟩ := eq_ret_of_leftUnder
    (servedRun mixedJson mixedTree (moveOfA (str "d"))) [str "a"] (by decide +kernel)
  rw [hret] at hrun
  have hsegment : Segment (str "a") := ⟨by decide, by decide⟩
  exact ⟨e, c', hrun, move_failure_coherence (fun _ _ _ _ h => h) le_rfl rfl
    (clean_singleton hsegment) cacheInv_empty hrun rfl⟩

end LostAnswer

end GDrive
