/-
What the paths that `Glob` returns lead to.

A listed file goes by its path where no other listed object has that path,
and by its id elsewhere. Alone at its path it may still lie below one of
several folders of a name, and then the path leads nowhere: the resolution
stops at the folders (`World.Stray`). That is the only way a returned path
fails (`glob_addresses`).
-/
import GDrive.Fs.GlobExact

namespace GDrive

open Interaction Naming

-- ========================================================== objects at a path

/-- The objects at a path below a folder, by whichever folders of its names. -/
def World.objectsAt (w : World) : Str → List Str → Str → List DriveFileMeta
  | p, [], s => w.named p s
  | p, t :: init, s => (w.foldersNamed p t).flatMap fun folder => w.objectsAt folder.id init s

/-- The objects at a path that begins at one of these children. -/
def World.objectsOf (w : World) (recursive : Bool) (children : List DriveFileMeta) :
    List Str → Str → List DriveFileMeta
  | [], s => children.filter (·.name = s)
  | t :: init, s =>
      if recursive then
        ((children.filter (·.name = t)).filter (·.isFolder)).flatMap fun folder =>
          w.objectsAt folder.id init s
      else []

section Objects

variable {w : World} {recursive : Bool}

theorem World.mem_objectsAt {p : Str} {init : List Str} {s : Str} {file : DriveFileMeta} :
    file ∈ w.objectsAt p init s ↔ ∃ q, w.Leads p init q ∧ file ∈ w.named q s := by
  induction init generalizing p with
  | nil =>
      constructor
      · intro h
        exact ⟨p, rfl, h⟩
      · intro ⟨q, hq, h⟩
        obtain rfl : q = p := hq
        exact h
  | cons t init ih =>
      show file ∈ List.flatMap _ _ ↔ _
      rw [List.mem_flatMap]
      constructor
      · intro ⟨folder, hfolder, h⟩
        obtain ⟨q, hq, h⟩ := ih.mp h
        exact ⟨q, ⟨folder, hfolder, hq⟩, h⟩
      · intro ⟨q, ⟨folder, hfolder, hq⟩, h⟩
        exact ⟨folder, hfolder, ih.mpr ⟨q, hq, h⟩⟩

theorem World.objectsOf_children {p : Str} {init : List Str} {s : Str}
    (hrec : init ≠ [] → recursive = true) :
    w.objectsOf recursive (w.children p) init s = w.objectsAt p init s := by
  cases init with
  | nil => rfl
  | cons t init =>
      rw [World.objectsOf, if_pos (hrec (List.cons_ne_nil _ _))]
      rfl

/-- The first child's part, and that of the others. -/
theorem World.objectsOf_cons (first : DriveFileMeta) (rest : List DriveFileMeta) (init : List Str)
    (s : Str) :
    (w.objectsOf recursive (first :: rest) init s).length =
      (w.objectsOf recursive [first] init s).length + (w.objectsOf recursive rest init s).length := by
  cases init with
  | nil =>
      show (List.filter _ _).length = (List.filter _ _).length + (List.filter _ _).length
      rw [← List.length_append, ← List.filter_append]
      rfl
  | cons t init =>
      unfold World.objectsOf
      cases recursive with
      | false => rfl
      | true =>
          simp only [if_true]
          rw [← List.length_append, ← List.flatMap_append, ← List.filter_append,
            ← List.filter_append]
          rfl

/-- A child by its own name. -/
theorem World.objectsOf_here (first : DriveFileMeta) (s : Str) :
    (w.objectsOf recursive [first] [] s).length = if first.name = s then 1 else 0 := by
  rw [World.objectsOf]
  by_cases hname : first.name = s
  · rw [List.filter_cons_of_pos (by simpa using hname), if_pos hname]
    rfl
  · rw [List.filter_cons_of_neg (by simpa using hname), if_neg hname]
    rfl

theorem countRel_eq_zero {l : List Listed} {path : Str} (h : ∀ entry ∈ l, entry.1 ≠ path) :
    countRel l path = 0 := by
  unfold countRel
  rw [List.length_eq_zero_iff, List.filter_eq_nil_iff]
  intro entry hentry
  simpa using h entry hentry

/-- A child's own path is the one that ends where it begins. -/
theorem path_here {rs init : List Str} {name s : Str} (hname : Segment name)
    (hsegments : ∀ t ∈ rs ++ (init ++ [s]), Segment t) :
    extendPath (joinPath rs) name = joinPath (rs ++ (init ++ [s])) ↔ init = [] ∧ name = s := by
  rw [← joinPath_concat]
  constructor
  · intro h
    have hall : ∀ t ∈ rs ++ [name], Segment t := by
      intro t ht
      rcases List.mem_append.mp ht with ht | ht
      · exact hsegments t (List.mem_append_left _ ht)
      · rw [List.mem_singleton.mp ht]
        exact hname
    have hlists : [] ++ [name] = init ++ [s] :=
      List.append_cancel_left (joinPath_injective hall hsegments h)
    obtain ⟨hinit, hs⟩ := List.append_inj' hlists rfl
    exact ⟨hinit.symm, List.singleton_inj.mp hs⟩
  · rintro ⟨rfl, rfl⟩
    rfl

/-- A path is listed exactly as often as there are objects at it. -/
theorem World.Listing.count_eq (hnames : w.Segmented) {rel : Str} {children : List DriveFileMeta}
    {l : List Listed} (hl : w.Listing recursive rel children l) {rs : List Str}
    (hrel : rel = joinPath rs) {p : Str} (hchildren : ∀ child ∈ children, child ∈ w.children p)
    {init : List Str} {s : Str} (hsegments : ∀ t ∈ rs ++ (init ++ [s]), Segment t) :
    countRel l (joinPath (rs ++ (init ++ [s]))) = (w.objectsOf recursive children init s).length := by
  induction hl generalizing rs p init s with
  | nil =>
      cases init with
      | nil => rfl
      | cons t init =>
          rw [World.objectsOf]
          cases recursive <;> rfl
  | @leaf rel first rest others hkind _ ih =>
      rw [List.forall_mem_cons] at hchildren
      subst hrel
      have hhere := path_here (hnames.child hchildren.1) hsegments
      rw [countRel_cons, ih rfl hchildren.2 hsegments, World.objectsOf_cons]
      congr 1
      cases init with
      | nil =>
          rw [World.objectsOf_here]
          exact if_congr (hhere.trans (and_iff_right rfl)) rfl rfl
      | cons t init =>
          rw [if_neg fun heq => List.cons_ne_nil _ _ (hhere.mp heq).1, World.objectsOf]
          cases recursive with
          | false => rfl
          | true =>
              have hnone : ([first].filter (·.name = t)).filter (·.isFolder) = [] := by
                rw [List.filter_eq_nil_iff]
                intro folder hfolder
                rw [List.mem_singleton.mp (List.mem_of_mem_filter hfolder)]
                rw [Bool.true_and] at hkind
                rw [hkind]
                exact Bool.false_ne_true
              rw [if_pos rfl, hnone]
              rfl
  | @folder rel first rest inside others hrec hkind hinside _ ihInside ih =>
      rw [List.forall_mem_cons] at hchildren
      subst hrel hrec
      have hfirst := hnames.child hchildren.1
      have hhere := path_here hfirst hsegments
      have hrs : ∀ t ∈ rs, Segment t := fun t ht => hsegments t (List.mem_append_left _ ht)
      have hbelow : ∀ t ∈ rs ++ [first.name], Segment t := by
        intro t ht
        rcases List.mem_append.mp ht with ht | ht
        · exact hrs t ht
        · rw [List.mem_singleton.mp ht]
          exact hfirst
      have hrel : extendPath (joinPath rs) first.name = joinPath (rs ++ [first.name]) :=
        (joinPath_concat _ _).symm
      -- What lies inside has the folder's name in its path, and more.
      have hother : (∀ more : List Str, init ++ [s] = first.name :: more → more = []) →
          countRel inside (joinPath (rs ++ (init ++ [s]))) = 0 := by
        intro hne
        refine countRel_eq_zero ?_
        intro entry hentry heq
        obtain ⟨inner, -, more, hpath, hall⟩ :=
          hinside.path hnames hrel hbelow (fun _ hchild => hchild) hentry
        rw [← List.append_cons] at hpath hall
        have hlists := List.append_cancel_left
          (joinPath_injective hsegments hall (heq.symm.trans hpath))
        exact List.cons_ne_nil _ _ (hne _ hlists)
      rw [countRel_cons, countRel_append, ih rfl hchildren.2 hsegments, World.objectsOf_cons,
        ← Nat.add_assoc]
      congr 1
      cases init with
      | nil =>
          rw [hother (fun more heq => (List.cons.inj heq).2.symm), World.objectsOf_here]
          exact if_congr (hhere.trans (and_iff_right rfl)) rfl rfl
      | cons t init =>
          rw [if_neg fun heq => List.cons_ne_nil _ _ (hhere.mp heq).1, Nat.zero_add,
            World.objectsOf, if_pos rfl]
          by_cases hname : first.name = t
          · have hsplit : rs ++ (t :: init ++ [s]) = (rs ++ [first.name]) ++ (init ++ [s]) := by
              rw [hname]
              simp
            rw [hsplit] at hsegments ⊢
            rw [ihInside hrel (fun _ hchild => hchild) hsegments,
              World.objectsOf_children fun _ => rfl,
              List.filter_cons_of_pos (by simpa using hname), List.filter_nil,
              List.filter_cons_of_pos hkind, List.filter_nil, List.flatMap_singleton]
          · rw [hother fun more heq => absurd (List.cons.inj heq).1.symm hname,
              List.filter_cons_of_neg (by simpa using hname)]
            rfl

end Objects

-- ==================================================== what a path leads to

section Leads

variable {w : World} {ctx p q s : Str} {init : List Str}

theorem World.objectsAt_of_walk (h : walk w.step p init = some q) :
    w.objectsAt p init s = w.named q s := by
  induction init generalizing p with
  | nil =>
      cases h
      rfl
  | cons t init ih =>
      rw [walk_cons, Option.bind_eq_some_iff] at h
      obtain ⟨r, hstep, hwalk⟩ := h
      obtain ⟨folder, hfolder, rfl⟩ := World.step_eq_some.mp hstep
      rw [World.objectsAt, hfolder, List.flatMap_singleton]
      exact ih hwalk

/-- An uncached resolution goes on in the one folder of a name. -/
theorem World.plain_cons {rest : List Str} (hrest : rest ≠ []) :
    w.plain ctx p (s :: rest) =
      match w.foldersNamed p s with
      | [] => .ok none
      | [folder] => w.plain ctx folder.id rest
      | found => .error (ambiguousError found ctx) := by
  obtain ⟨next, more, rfl⟩ := List.exists_cons_of_ne_nil hrest
  rfl

theorem World.plain_of_walk (h : walk w.step p init = some q) :
    w.plain ctx p (init ++ [s]) = w.plain ctx q [s] := by
  induction init generalizing p with
  | nil =>
      cases h
      rfl
  | cons t init ih =>
      rw [walk_cons, Option.bind_eq_some_iff] at h
      obtain ⟨r, hstep, hwalk⟩ := h
      obtain ⟨folder, hfolder, rfl⟩ := World.step_eq_some.mp hstep
      rw [List.cons_append, World.plain_cons (by simp), hfolder]
      exact ih hwalk

/-- Where it does not lead through single folders, a path leads to nothing. -/
theorem World.plain_of_stuck (h : walk w.step p init = none) (file : DriveFileMeta) :
    w.plain ctx p (init ++ [s]) ≠ .ok (some file) := by
  induction init generalizing p with
  | nil => cases h
  | cons t init ih =>
      rw [List.cons_append, World.plain_cons (by simp)]
      rw [walk_cons] at h
      split
      · nofun
      · rename_i folder hfolder
        rw [World.step_eq_some.mpr ⟨folder, hfolder, rfl⟩, Option.bind_some] at h
        exact ih h
      · nofun

theorem World.plain_of_named {file : DriveFileMeta} (h : w.named p s = [file]) :
    w.plain ctx p [s] = .ok (some file) := by
  rw [World.plain, h]

/-- A file with a name to itself is what its path resolves to. -/
theorem World.plain_of_alone {segments : List Str} {file : DriveFileMeta} {g : Nat}
    (hnames : w.Names segments file) (halone : w.Alone file g) (hkind : file.isFolder = false) :
    ∃ f, w.plain ctx w.rootId segments = .ok (some f) ∧ f.id = file.id := by
  obtain ⟨init, s, p, rfl, hp, ⟨f, hf, hsame⟩, -⟩ := hnames
  obtain ⟨p', s', f', hsole, hsame'⟩ := halone hkind
  have hf' : f' ∈ w.named p' s' := by
    rw [hsole]
    exact List.mem_singleton.mpr rfl
  -- The same object, so the same place and name.
  obtain ⟨hchild, rfl⟩ := World.mem_named.mp hf
  obtain ⟨hchild', rfl⟩ := World.mem_named.mp hf'
  obtain ⟨n, hn, rfl, -, rfl⟩ := World.mem_children.mp hchild
  obtain ⟨n', hn', rfl, -, rfl⟩ := World.mem_children.mp hchild'
  obtain rfl := World.node_unique hn hn' (hsame.1.trans hsame'.1.symm)
  refine ⟨n.file, ?_, hsame.1⟩
  rw [World.plain_of_walk hp]
  exact World.plain_of_named hsole

end Leads

/-- The names that single folders lead by. -/
theorem World.leads_of_walk {w : World} {p q : Str} {init : List Str}
    (h : walk w.step p init = some q) : w.Leads p init q := by
  induction init generalizing p with
  | nil =>
      cases h
      rfl
  | cons t init ih =>
      rw [walk_cons, Option.bind_eq_some_iff] at h
      obtain ⟨r, hstep, hwalk⟩ := h
      obtain ⟨folder, hfolder, rfl⟩ := World.step_eq_some.mp hstep
      refine ⟨folder, ?_, ih hwalk⟩
      rw [hfolder]
      exact List.mem_singleton.mpr rfl

-- =================================================================== addresses

/-- Every resolution of a path from an empty cache, with a Drive that answers,
finds the file. -/
def Addresses (pj : Picojson) (rounds : Nat) (o : Opener) (w : World) (path : Str)
    (file : DriveFileMeta) : Prop :=
  ∃ uri, parseGDriveUri path = .ok uri ∧ ∀ out c' w',
    Reaches (treeRel pj fun _ => False) (tryResolvePath pj rounds o.thread o.auth uri {}) w
        (.ret (out, c')) w' →
      ∃ found fresh, out = .ok (some (found, fresh)) ∧ found.id = file.id

/-- No resolution of a path from an empty cache finds anything. -/
def LeadsNowhere (pj : Picojson) (rounds : Nat) (o : Opener) (w : World) (path : Str) : Prop :=
  ∀ uri, parseGDriveUri path = .ok uri → ∀ out c' w',
    Reaches (treeRel pj fun _ => False) (tryResolvePath pj rounds o.thread o.auth uri {}) w
        (.ret (out, c')) w' →
      ∀ hit, out ≠ .ok (some hit)

section Addresses

variable {pj : Picojson} {rounds : Nat} {o : Opener} {w : World} {path : Str}
  {file : DriveFileMeta}

/-- A resolution from an empty cache, read off a run. -/
theorem plain_of_reaches (hrounds : 1 ≤ rounds) (hroot : rootFolderFor o.auth = w.rootAlias)
    {segments : List Str} (hne : segments ≠ []) (hsegs : ∀ s ∈ segments, Segment s)
    {out : Except Exn (Option (DriveFileMeta × Bool))} {c' : PathCache} {w' : World}
    (hrun : Reaches (treeRel pj fun _ => False)
      (tryResolvePath pj rounds o.thread o.auth (.path segments) {}) w (.ret (out, c')) w') :
    out.map (·.map (·.1)) = w.plain (GDriveUri.path segments).toString w.rootId segments := by
  have hwp : Code.wp (.ofRel (treeRel pj fun _ => False) fun _ => True)
      (tryResolvePath pj rounds o.thread o.auth (.path segments))
      (fun out _ _ => out.map (·.map (·.1)) =
        w.plain (GDriveUri.path segments).toString w.rootId segments) {} w :=
    Code.wp_of_total (wp_tryResolvePath_plain (fun _ _ _ _ h => h) hrounds hroot hne hsegs)
  exact Code.wp_returns hwp hrun

theorem addresses_of_plain (hrounds : 1 ≤ rounds) (hroot : rootFolderFor o.auth = w.rootAlias)
    {segments : List Str} (hparse : parseGDriveUri path = .ok (.path segments))
    (hne : segments ≠ []) {f : DriveFileMeta}
    (hplain : w.plain (GDriveUri.path segments).toString w.rootId segments = .ok (some f))
    (hid : f.id = file.id) : Addresses pj rounds o w path file := by
  refine ⟨_, hparse, ?_⟩
  intro out c' w' hrun
  have hout := plain_of_reaches hrounds hroot hne (segment_of_parse hparse) hrun
  rw [hplain] at hout
  match out with
  | .ok (some (found, fresh)) =>
      cases hout
      exact ⟨found, fresh, rfl, hid⟩

theorem leadsNowhere_of_plain (hrounds : 1 ≤ rounds) (hroot : rootFolderFor o.auth = w.rootAlias)
    {segments : List Str} (hparse : parseGDriveUri path = .ok (.path segments))
    (hne : segments ≠ [])
    (hplain : ∀ f, w.plain (GDriveUri.path segments).toString w.rootId segments ≠ .ok (some f)) :
    LeadsNowhere pj rounds o w path := by
  intro uri huri out c' w' hrun hit hout
  rw [hparse] at huri
  cases huri
  have heq := plain_of_reaches hrounds hroot hne (segment_of_parse hparse) hrun
  rw [hout] at heq
  exact hplain hit.1 heq.symm

/-- What a resolution finds, another one from an empty cache finds too. -/
theorem addresses_of_answers (hrounds : 1 ≤ rounds) (hroot : rootFolderFor o.auth = w.rootAlias)
    {uri : GDriveUri} (hparse : parseGDriveUri path = .ok uri)
    (hanswer : w.Answers uri (some file)) (hkind : file.isFolder = false) :
    Addresses pj rounds o w path file := by
  match uri with
  | .path (s :: rest) =>
      obtain ⟨hnames, g, halone⟩ := hanswer
      obtain ⟨f, hplain, hid⟩ := World.plain_of_alone hnames halone hkind
      exact addresses_of_plain hrounds hroot hparse (List.cons_ne_nil _ _) hplain hid
  | .path [] =>
      refine ⟨_, hparse, ?_⟩
      intro out c' w' hrun
      have htotal : Code.wp (fsEnv (treeRel pj fun _ => False))
          (tryResolvePath pj rounds o.thread o.auth (.path [])) _ {} w :=
        wp_tryResolvePath_root (fun _ _ _ _ h => h) hroot
      obtain ⟨-, -, ⟨found, hout, hmeta⟩ | ⟨hmay, -⟩⟩ :=
        Code.wp_returns (Code.wp_of_total htotal) hrun
      · exact ⟨found, false, hout, hmeta.id_eq.trans (World.Metadata.id_eq hanswer).symm⟩
      · exact hmay.elim
  | .fileId id =>
      obtain ⟨f, hmeta, hsame⟩ := hanswer
      refine ⟨_, hparse, ?_⟩
      intro out c' w' hrun
      have htotal : Code.wp (fsEnv (treeRel pj fun _ => False))
          (tryResolvePath pj rounds o.thread o.auth (.fileId id)) _ {} w :=
        wp_tryResolvePath_id (fun _ _ _ _ h => h) (truths_known w) cacheInv_empty
      obtain ⟨-, -, -, -, hout⟩ := Code.wp_returns (Code.wp_of_total htotal) hrun
      unfold IdAnswer at hout
      split at hout
      · rcases hmeta with ⟨n, hn, rfl, hid⟩ | ⟨-, hroot', -⟩
        · exact absurd hid (hout.2 n hn)
        · exact absurd hroot' hout.1
      · rename_i found fresh
        rcases hout.2 with hfound | ⟨hgeneration, -⟩
        · exact ⟨found, fresh, rfl, (hfound.id_eq.trans hmeta.id_eq.symm).trans hsame.1⟩
        · exact absurd rfl hgeneration
      · exact hout.elim

end Addresses

-- ============================================================== what is listed

/-- A path below a prefix is an id: form only where the prefix is, or where
there is none and the path is. -/
theorem not_id_below {literalPrefix rel : Str}
    (hbegins : (str "id:").isPrefixOf literalPrefix = false)
    (hrel : (str "id:").isPrefixOf rel = false) :
    (str "id:").isPrefixOf (below literalPrefix rel) = false := by
  unfold below
  split
  · exact hrel
  · rw [Bool.eq_false_iff, ne_eq, List.isPrefixOf_iff_prefix] at hbegins ⊢
    intro h
    have hslash : literalPrefix ++ [47] <+: literalPrefix ++ 47 :: rel := ⟨rel, by simp⟩
    rcases List.prefix_or_prefix_of_prefix h hslash with h | h
    · rcases List.prefix_concat_iff.mp h with h | h
      · have hlast := congrArg List.getLast? h
        rw [List.getLast?_concat] at hlast
        exact absurd hlast (by decide)
      · exact hbegins h
    · exact absurd (h.subset (List.mem_append_right _ (List.mem_singleton.mpr rfl))) (by decide)

theorem not_id_joinPath {segments : List Str} (h : ∀ s ∈ segments, Segment s)
    (hid : ∀ s ∈ segments, (str "id:").isPrefixOf s = false) :
    (str "id:").isPrefixOf (joinPath segments) = false := by
  induction segments using List.reverseRecOn with
  | nil => rfl
  | append_singleton init s ih =>
      rw [joinPath_concat]
      exact not_id_below (ih (fun t ht => h t (List.mem_append_left _ ht))
        fun t ht => hid t (List.mem_append_left _ ht)) (hid s (by simp))

/-- What the path of a listed file parses to. -/
theorem parse_below {literalPrefix : Str} {segments : List Str}
    (hbegins : (str "id:").isPrefixOf literalPrefix = false)
    (hbase : ∀ s ∈ splitSegments literalPrefix, isDotSegment s = false)
    (hsegments : ∀ s ∈ segments, Segment s ∧ isDotSegment s = false)
    (hid : ∀ s ∈ segments, (str "id:").isPrefixOf s = false) :
    parseGDriveUri (kGDriveScheme ++ below literalPrefix (joinPath segments)) =
      .ok (.path (splitSegments literalPrefix ++ segments)) := by
  have hall : ∀ s ∈ segments, Segment s := fun s hs => (hsegments s hs).1
  have hsplit : splitSegments (below literalPrefix (joinPath segments)) =
      splitSegments literalPrefix ++ segments := by
    show splitSegments (extendPath _ _) = _
    rw [splitSegments_extendPath, splitSegments_joinPath hall]
  have hdots : (splitSegments literalPrefix ++ segments).find? isDotSegment = none := by
    rw [List.find?_eq_none]
    intro s hs
    rw [Bool.not_eq_true]
    rcases List.mem_append.mp hs with hs | hs
    · exact hbase s hs
    · exact (hsegments s hs).2
  rw [parse_path (not_id_below hbegins (not_id_joinPath hall hid)), hsplit, hdots]

section Listed

variable {w : World} {signed recursive : Bool} {p pattern literalPrefix : Str} {l : List Listed}

/-- The names on the way to an object are names of what Drive has. -/
theorem World.names_on_the_way {init : List Str} {q s : Str} {file : DriveFileMeta}
    (hleads : w.Leads p init q) (hfile : file ∈ w.named q s) :
    ∀ t ∈ init ++ [s], ∃ n ∈ w.nodes, n.trashed = false ∧ n.file.name = t := by
  have hchild : ∀ {r t : Str} {f : DriveFileMeta}, f ∈ w.named r t →
      ∃ n ∈ w.nodes, n.trashed = false ∧ n.file.name = t := by
    intro r t f hf
    obtain ⟨hchild, hname⟩ := World.mem_named.mp hf
    obtain ⟨n, hn, rfl, htrashed, -⟩ := World.mem_children.mp hchild
    exact ⟨n, hn, htrashed, hname⟩
  induction init generalizing p with
  | nil =>
      intro t ht
      rw [List.mem_singleton.mp ht]
      exact hchild hfile
  | cons t init ih =>
      obtain ⟨folder, hfolder, hleads⟩ := hleads
      rw [List.cons_append, List.forall_mem_cons]
      exact ⟨hchild (World.mem_foldersNamed.mp hfolder).1, ih hleads⟩

/-- A file of a listing goes by its id, or it is alone at its path. -/
theorem emitted (hnames : w.Segmented) (hl : w.Listing recursive [] (w.children p) l) {path : Str}
    {file : DriveFileMeta} (hmem : (path, file) ∈ matchListing signed pattern literalPrefix l) :
    file.isFolder = false ∧ (∃ n ∈ w.nodes, n.file = file) ∧
      (path = kGDriveIdScheme ++ file.id ∨
        ∃ init, (init ≠ [] → recursive = true) ∧ w.objectsAt p init file.name = [file] ∧
          matchPath signed pattern (below literalPrefix (joinPath (init ++ [file.name]))) = true ∧
          path = kGDriveScheme ++ below literalPrefix (joinPath (init ++ [file.name]))) := by
  obtain ⟨rel, hentry, hmatch, hkind, hpath⟩ := mem_matchListing.mp hmem
  obtain ⟨init, s, q, hleads, hfile, hrec, hrel⟩ := hl.placed hentry
  simp only at hfile hrel
  obtain ⟨hchild, rfl⟩ := World.mem_named.mp hfile
  obtain ⟨n, hn, hnode, -, -⟩ := World.mem_children.mp hchild
  refine ⟨hkind, ⟨n, hn, hnode⟩, ?_⟩
  subst hrel
  by_cases hcount : countRel l (joinPath (init ++ [file.name])) = 1
  · right
    rw [hcount, bne_self_eq_false, disambiguatePath_path (hnames.child hchild)] at hpath
    refine ⟨init, hrec, ?_, hmatch, hpath⟩
    have hsegments : ∀ t ∈ [] ++ (init ++ [file.name]), Segment t :=
      World.has_named hnames hleads hfile
    have heq := hl.count_eq hnames joinPath_nil.symm (fun _ hchild => hchild) hsegments
    rw [World.objectsOf_children hrec, List.nil_append, hcount] at heq
    exact eq_singleton_of_mem (World.mem_objectsAt.mpr ⟨q, hleads, hfile⟩) (le_of_eq heq.symm)
  · left
    unfold disambiguatePath at hpath
    rwa [if_pos (bne_iff_ne.mpr hcount)] at hpath

/-- A file that is alone at its path is returned by it. -/
theorem emits (hnames : w.Segmented) (hl : w.Listing recursive [] (w.children p) l) {init : List Str}
    {s : Str} {file : DriveFileMeta} (hrec : init ≠ [] → recursive = true)
    (hfile : w.objectsAt p init s = [file]) (hkind : file.isFolder = false)
    (hmatch : matchPath signed pattern (below literalPrefix (joinPath (init ++ [s]))) = true) :
    (kGDriveScheme ++ below literalPrefix (joinPath (init ++ [s])), file) ∈
      matchListing signed pattern literalPrefix l := by
  have hmem : file ∈ w.objectsAt p init s := by
    rw [hfile]
    exact List.mem_singleton.mpr rfl
  obtain ⟨q, hleads, hnamed⟩ := World.mem_objectsAt.mp hmem
  obtain ⟨hchild, rfl⟩ := World.mem_named.mp hnamed
  have hsegments : ∀ t ∈ [] ++ (init ++ [file.name]), Segment t :=
    World.has_named hnames hleads hnamed
  have hcount := hl.count_eq hnames joinPath_nil.symm (fun _ hchild => hchild) hsegments
  rw [World.objectsOf_children hrec, hfile, List.nil_append, List.length_singleton] at hcount
  refine mem_matchListing.mpr ⟨_, hl.lists hleads hnamed hrec, hmatch, hkind, ?_⟩
  rw [hcount, bne_self_eq_false, disambiguatePath_path (hnames.child hchild)]

end Listed

-- ================================================================ the results

/-- A file that the pattern lists and matches lies alone at its path, and
below one of several folders of a name. -/
def World.Stray (w : World) (signed : Bool) (pattern : Str) : Prop :=
  hasGlobMetacharacters pattern = true ∧ ∃ p init s file,
    w.folderAt (splitSegments (splitGlob pattern).literalPrefix) = some p ∧
      (init ≠ [] → (splitGlob pattern).recursive = true) ∧ w.objectsAt p init s = [file] ∧
      file.isFolder = false ∧
      matchPath signed pattern
          (below (splitGlob pattern).literalPrefix (joinPath (init ++ [s]))) = true ∧
      walk w.step p init = none

/-- Names that are not the text of an id: form, and ids that can stand in
one. -/
structure World.Addressable (w : World) : Prop where
  named : w.Named
  plain : ∀ n ∈ w.nodes, n.trashed = false → (str "id:").isPrefixOf n.file.name = false
  ids : ∀ n ∈ w.nodes, n.file.id ≠ [] ∧ 47 ∉ n.file.id

section Results

variable {signed : Bool} {pj : Picojson} {rounds : Nat} {o : Opener} {w : World}

/-- The path of a listed object. -/
theorem World.Addressable.parse_listed (h : w.Addressable) {base init : List Str}
    {literalPrefix p s : Str} {file : DriveFileMeta}
    (hbegins : (str "id:").isPrefixOf literalPrefix = false)
    (hbase : splitSegments literalPrefix = base) (hp : w.folderAt base = some p)
    (hfile : file ∈ w.objectsAt p init s) :
    parseGDriveUri (kGDriveScheme ++ below literalPrefix (joinPath (init ++ [s]))) =
      .ok (.path ((base ++ init) ++ [s])) := by
  obtain ⟨q, hleads, hnamed⟩ := World.mem_objectsAt.mp hfile
  have hway := World.names_on_the_way hleads hnamed
  subst hbase
  rw [List.append_assoc]
  have hnames : ∀ n ∈ w.nodes, n.trashed = false →
      Segment n.file.name ∧ isDotSegment n.file.name = false := h.named
  refine parse_below hbegins ?_
    (World.has_named (P := fun t => Segment t ∧ isDotSegment t = false) hnames hleads hnamed) ?_
  · exact fun t ht => (World.leads_named (P := fun t => Segment t ∧ isDotSegment t = false) hnames
      (World.leads_of_walk hp) t ht).2
  · intro t ht
    obtain ⟨n, hn, htrashed, rfl⟩ := hway t ht
    exact h.plain n hn htrashed

theorem eq_of_mem_literalResult {path : Str} {answer : Option DriveFileMeta} {e : Found}
    (he : e ∈ literalResult path answer) :
    answer = some e.2 ∧ e.1 = path ∧ e.2.isFolder = false := by
  unfold literalResult at he
  split at he
  · split at he
    · cases he
    · rename_i file hkind
      rw [List.mem_singleton.mp he]
      exact ⟨rfl, rfl, Bool.eq_false_iff.mpr hkind⟩
  · cases he

/-- What an expansion finds is found again, where no file is stray. -/
theorem World.Globs.addresses (h : w.Addressable) (hrounds : 1 ≤ rounds)
    (hroot : rootFolderFor o.auth = w.rootAlias) {pattern : Str} (hprefixed : PathPrefixed pattern)
    (hstray : ¬w.Stray signed pattern) {found : List Found}
    (hglobs : w.Globs signed pattern found) : ∀ e ∈ found, Addresses pj rounds o w e.1 e.2 := by
  intro e he
  cases hglobs with
  | missing => cases he
  | rejected => cases he
  | literal hmeta hparse hanswer =>
      obtain ⟨rfl, hpath, hkind⟩ := eq_of_mem_literalResult he
      rw [hpath]
      exact addresses_of_answers hrounds hroot hparse hanswer hkind
  | @listed p l hmeta hat hl =>
      obtain ⟨hkind, ⟨n, hn, hnode⟩, hpath | ⟨init, hrec, hobjects, hmatch, hpath⟩⟩ :=
        emitted h.named.segmented hl he
      · rw [hpath]
        have hids := h.ids n hn
        have hderef := World.deref_node hn
        rw [hnode] at hids hderef
        exact addresses_of_answers hrounds hroot (parse_fileId hids.1 hids.2)
          ⟨e.2, .inl ⟨n, hn, hnode, hderef.symm⟩, rfl, rfl⟩ hkind
      · rcases hat with hp | ⟨-, hnone⟩
        · obtain ⟨q, hwalk⟩ : ∃ q, walk w.step p init = some q := by
            rw [← Option.ne_none_iff_exists']
            intro hwalk
            exact hstray ⟨hmeta, p, init, _, e.2, hp, hrec, hobjects, hkind, hmatch, hwalk⟩
          have hparse := h.parse_listed (hprefixed hmeta) rfl hp
            (by rw [hobjects]; exact List.mem_singleton.mpr rfl)
          have hwhole : walk w.step w.rootId
              (splitSegments (splitGlob pattern).literalPrefix ++ init) = some q := by
            rw [walk_append]
            exact (congrArg (Option.bind · _) hp).trans hwalk
          rw [World.objectsAt_of_walk hwalk] at hobjects
          rw [hpath]
          refine addresses_of_plain hrounds hroot hparse (by simp) ?_ rfl
          rw [World.plain_of_walk hwhole]
          exact World.plain_of_named hobjects
        · rw [hnone] at hl
          cases hl
          cases he

/-- A stray file is returned by a path that leads nowhere. -/
theorem World.Globs.stray (h : w.Addressable) (hrounds : 1 ≤ rounds)
    (hroot : rootFolderFor o.auth = w.rootAlias) {pattern : Str} (hprefixed : PathPrefixed pattern)
    (hstray : w.Stray signed pattern) {found : List Found} (hglobs : w.Globs signed pattern found) :
    ∃ e ∈ found, LeadsNowhere pj rounds o w e.1 := by
  obtain ⟨hmeta, p, init, s, file, hp, hrec, hobjects, hkind, hmatch, hwalk⟩ := hstray
  cases hglobs with
  | rejected hliteral => rw [hmeta] at hliteral; cases hliteral
  | literal hliteral => rw [hmeta] at hliteral; cases hliteral
  | @missing ctx _ hne hplain =>
      -- The folder would have been found.
      exfalso
      obtain ⟨base, t, hbase⟩ := List.eq_nil_or_concat' _ |>.resolve_left hne
      rw [hbase] at hp hplain
      obtain ⟨r, hr, hstep⟩ := walk_concat_eq_some.mp hp
      obtain ⟨folder, hfolder, -⟩ := World.step_eq_some.mp hstep
      have hmem : folder ∈ w.foldersNamed r t := by
        rw [hfolder]
        exact List.mem_singleton.mpr rfl
      rw [World.plain_of_walk hr, World.plain] at hplain
      have hnamed := (World.mem_foldersNamed.mp hmem).1
      split at hplain
      · rename_i hnil
        rw [hnil] at hnamed
        cases hnamed
      · cases hplain
      · cases hplain
  | @listed p' l _ hat hl =>
      have hsame : p' = p := by
        rcases hat with hp' | ⟨hnone, -⟩
        · rw [hp] at hp'
          exact (Option.some.inj hp').symm
        · rw [hp] at hnone
          cases hnone
      subst hsame
      have hparse := h.parse_listed (hprefixed hmeta) rfl hp
        (by rw [hobjects]; exact List.mem_singleton.mpr rfl)
      have hwhole : walk w.step w.rootId
          (splitSegments (splitGlob pattern).literalPrefix ++ init) = none := by
        rw [walk_append]
        exact (congrArg (Option.bind · _) hp).trans hwalk
      exact ⟨_, emits h.named.segmented hl hrec hobjects hkind hmatch,
        leadsNowhere_of_plain hrounds hroot hparse (by simp) fun f => World.plain_of_stuck hwhole f⟩

theorem World.GlobsAll.addresses (h : w.Addressable) (hrounds : 1 ≤ rounds)
    (hroot : rootFolderFor o.auth = w.rootAlias) {patterns : List Str}
    (hprefixed : ∀ pattern ∈ patterns, PathPrefixed pattern)
    (hstray : ∀ pattern ∈ patterns, ¬w.Stray signed pattern) {found : List Found}
    (hall : w.GlobsAll signed patterns found) : ∀ e ∈ found, Addresses pj rounds o w e.1 e.2 := by
  induction patterns generalizing found with
  | nil =>
      obtain rfl : found = [] := hall
      nofun
  | cons pattern rest ih =>
      obtain ⟨here, others, rfl, hhere, hothers⟩ := hall
      rw [List.forall_mem_cons] at hprefixed hstray
      rw [List.forall_mem_append]
      exact ⟨hhere.addresses h hrounds hroot hprefixed.1 hstray.1,
        ih hprefixed.2 hstray.2 hothers⟩

theorem World.GlobsAll.stray (h : w.Addressable) (hrounds : 1 ≤ rounds)
    (hroot : rootFolderFor o.auth = w.rootAlias) {patterns : List Str}
    (hprefixed : ∀ pattern ∈ patterns, PathPrefixed pattern)
    (hstray : ∃ pattern ∈ patterns, w.Stray signed pattern) {found : List Found}
    (hall : w.GlobsAll signed patterns found) : ∃ e ∈ found, LeadsNowhere pj rounds o w e.1 := by
  induction patterns generalizing found with
  | nil =>
      obtain ⟨pattern, hpattern, -⟩ := hstray
      cases hpattern
  | cons pattern rest ih =>
      obtain ⟨here, others, rfl, hhere, hothers⟩ := hall
      rw [List.forall_mem_cons] at hprefixed
      rw [List.exists_mem_cons_iff] at hstray
      rcases hstray with hstray | hstray
      · obtain ⟨e, he, hnowhere⟩ : ∃ e ∈ here, LeadsNowhere pj rounds o w e.1 :=
          hhere.stray h hrounds hroot hprefixed.1 hstray
        exact ⟨e, List.mem_append_left _ he, hnowhere⟩
      · obtain ⟨e, he, hnowhere⟩ := ih hprefixed.2 hstray hothers
        exact ⟨e, List.mem_append_right _ he, hnowhere⟩

theorem mem_of_mem_uniquePaths {seen : List Str} {found : List Found} {e : Found}
    (he : e ∈ uniquePaths seen found) : e ∈ found := by
  fun_induction uniquePaths seen found with
  | case1 => cases he
  | case2 seen first rest hseen ih => exact List.mem_cons_of_mem _ (ih he)
  | case3 seen first rest hseen ih =>
      rcases List.mem_cons.mp he with rfl | he
      · exact List.mem_cons_self
      · exact List.mem_cons_of_mem _ (ih he)

/-- The results of a whole glob. -/
theorem World.GlobEnds.addresses (h : w.Addressable) (hrounds : 1 ≤ rounds)
    (hroot : rootFolderFor o.auth = w.rootAlias) {path : Str}
    (hprefixed : ∀ pattern ∈ globPatterns path, PathPrefixed pattern) {found : List Found}
    (hends : w.GlobEnds signed path found) :
    ((∀ pattern ∈ globPatterns path, ¬w.Stray signed pattern) →
        ∀ e ∈ found, Addresses pj rounds o w e.1 e.2) ∧
      ((∃ pattern ∈ globPatterns path, w.Stray signed pattern) →
        ∃ e ∈ found, LeadsNowhere pj rounds o w e.1) := by
  -- A literal path is listed for no pattern.
  have hliteral : ∀ {uri : GDriveUri} {answer : Option DriveFileMeta},
      parseGDriveUri path = .ok uri → w.Answers uri answer →
      ∀ e ∈ literalResult path answer, Addresses pj rounds o w e.1 e.2 := by
    intro uri answer hparse hanswer e he
    obtain ⟨rfl, hpath, hkind⟩ := eq_of_mem_literalResult he
    rw [hpath]
    exact addresses_of_answers hrounds hroot hparse hanswer hkind
  cases hends with
  | rejected hparse _ =>
      refine ⟨fun _ => nofun, ?_⟩
      intro ⟨pattern, hpattern, _⟩
      unfold globPatterns at hpattern
      rw [hparse] at hpattern
      cases hpattern
  | @literal uri answer hparse hplain hanswer =>
      refine ⟨fun _ => hliteral hparse hanswer, ?_⟩
      intro ⟨pattern, hpattern, _⟩
      unfold globPatterns at hpattern
      rw [hparse] at hpattern
      cases uri with
      | fileId id => cases hpattern
      | path segments =>
          simp only at hpattern
          rw [hplain segments rfl] at hpattern
          cases hpattern
  | @matched segments found hparse hmeta hall hunique =>
      have hpatterns := globPatterns_path hparse hmeta
      rw [hpatterns] at hprefixed ⊢
      refine ⟨?_, ?_⟩
      · intro hstray e he
        exact hall.addresses h hrounds hroot hprefixed hstray e (mem_of_mem_uniquePaths he)
      · intro hstray
        obtain ⟨e, he, hnowhere⟩ : ∃ e ∈ found, LeadsNowhere pj rounds o w e.1 :=
          hall.stray h hrounds hroot hprefixed hstray
        have hpath : e.1 ∈ (uniquePaths [] found).map (·.1) :=
          mem_uniquePaths.mpr ⟨List.mem_map_of_mem he, List.not_mem_nil⟩
        obtain ⟨e', he', heq⟩ := List.mem_map.mp hpath
        refine ⟨e', he', ?_⟩
        rw [heq]
        exact hnowhere
  | @unmatched segments found answer hparse hmeta hall hunique hanswer =>
      have hpatterns := globPatterns_path hparse hmeta
      rw [hpatterns] at hprefixed ⊢
      refine ⟨fun _ => hliteral hparse hanswer, ?_⟩
      intro hstray
      obtain ⟨e, he, -⟩ : ∃ e ∈ found, LeadsNowhere pj rounds o w e.1 :=
        hall.stray h hrounds hroot hprefixed hstray
      have hpath : e.1 ∈ (uniquePaths [] found).map (·.1) :=
        mem_uniquePaths.mpr ⟨List.mem_map_of_mem he, List.not_mem_nil⟩
      rw [hunique] at hpath
      cases hpath

end Results

-- ================================================= two folders of one name

section Twins

end Twins

end GDrive
