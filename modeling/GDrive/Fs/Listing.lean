/-
What a glob lists below a folder.

An object lies at a path below a folder where folders of the path's names
lead to it, one in the other (`World.Has`); several folders of one name all
do. `World.Listing` is the order in which the code comes by them. Everything
it lists lies where it says (`Listing.sound`), nothing that lies there is left
out (`Listing.complete`), and a path is listed as often as there are objects
of the last name in its folder (`Listing.count`).
-/
import GDrive.Fs.Glob
import GDrive.Fs.Coherence

namespace GDrive

open Interaction Naming

-- =================================================================== the tree

/-- Folders of these names lead from `p` to `q`. -/
def World.Leads (w : World) : Str → List Str → Str → Prop
  | p, [], q => q = p
  | p, s :: rest, q => ∃ folder ∈ w.foldersNamed p s, w.Leads folder.id rest q

/-- An object at a path below a folder. -/
def World.Has (w : World) (p : Str) (segments : List Str) (file : DriveFileMeta) : Prop :=
  ∃ init s q, segments = init ++ [s] ∧ w.Leads p init q ∧ file ∈ w.named q s

/-- The children of a folder one by one, each followed by what lies below
it. -/
inductive World.Listing (w : World) (recursive : Bool) : Str → List DriveFileMeta → List Listed →
    Prop
  | nil {rel : Str} : Listing w recursive rel [] []
  | leaf {rel : Str} {child : DriveFileMeta} {rest : List DriveFileMeta} {others : List Listed} :
      (recursive && child.isFolder) = false → Listing w recursive rel rest others →
      Listing w recursive rel (child :: rest) ((extendPath rel child.name, child) :: others)
  | folder {rel : Str} {child : DriveFileMeta} {rest : List DriveFileMeta}
      {inside others : List Listed} :
      recursive = true → child.isFolder = true →
      Listing w recursive (extendPath rel child.name) (w.children child.id) inside →
      Listing w recursive rel rest others →
      Listing w recursive rel (child :: rest) ((extendPath rel child.name, child) :: (inside ++ others))

/-- Names that can be segments of a path. -/
def World.Named (w : World) : Prop :=
  ∀ n ∈ w.nodes, n.trashed = false → Segment n.file.name ∧ isDotSegment n.file.name = false

/-- Names that can stand between two slashes, `.` and `..` too. -/
def World.Segmented (w : World) : Prop := ∀ n ∈ w.nodes, n.trashed = false → Segment n.file.name

theorem World.Named.segmented {w : World} (h : w.Named) : w.Segmented :=
  fun n hn htrashed => (h n hn htrashed).1

section Tree

variable {w : World}

theorem World.leads_append {p q : Str} {a b : List Str} :
    w.Leads p (a ++ b) q ↔ ∃ r, w.Leads p a r ∧ w.Leads r b q := by
  induction a generalizing p with
  | nil =>
      constructor
      · intro h
        exact ⟨p, rfl, h⟩
      · intro ⟨r, hr, h⟩
        obtain rfl : r = p := hr
        exact h
  | cons s a ih =>
      constructor
      · intro ⟨folder, hfolder, h⟩
        obtain ⟨r, hr, h⟩ := ih.mp h
        exact ⟨r, ⟨folder, hfolder, hr⟩, h⟩
      · intro ⟨r, ⟨folder, hfolder, hr⟩, h⟩
        exact ⟨folder, hfolder, ih.mpr ⟨r, hr, h⟩⟩

/-- Below a folder of the first name. -/
theorem World.Has.cons {p s : Str} {more : List Str} {folder file : DriveFileMeta}
    (hfolder : folder ∈ w.foldersNamed p s) (h : w.Has folder.id more file) :
    w.Has p (s :: more) file := by
  obtain ⟨init, t, q, rfl, hinit, hfile⟩ := h
  exact ⟨s :: init, t, q, rfl, ⟨folder, hfolder, hinit⟩, hfile⟩

/-- A child, or something below a child that is a folder. -/
theorem World.Has.cases {p : Str} {segments : List Str} {file : DriveFileMeta}
    (h : w.Has p segments file) :
    (segments = [file.name] ∧ file ∈ w.children p) ∨
      ∃ folder more, folder ∈ w.children p ∧ folder.isFolder = true ∧
        segments = folder.name :: more ∧ w.Has folder.id more file := by
  obtain ⟨init, s, q, rfl, hinit, hfile⟩ := h
  cases init with
  | nil =>
      obtain rfl : q = p := hinit
      obtain ⟨hchild, rfl⟩ := mem_named.mp hfile
      exact .inl ⟨rfl, hchild⟩
  | cons t init =>
      obtain ⟨folder, hfolder, hinit⟩ := hinit
      obtain ⟨hnamed, hkind⟩ := mem_foldersNamed.mp hfolder
      obtain ⟨hchild, rfl⟩ := mem_named.mp hnamed
      exact .inr ⟨folder, init ++ [s], hchild, hkind, rfl, init, s, q, rfl, hinit, hfile⟩

theorem World.has_child {p : Str} {child : DriveFileMeta} (h : child ∈ w.children p) :
    w.Has p [child.name] child :=
  ⟨[], child.name, p, rfl, rfl, mem_named.mpr ⟨h, rfl⟩⟩

/-- A child is named as the tree's objects are. -/
theorem World.child_named {P : Str → Prop}
    (h : ∀ n ∈ w.nodes, n.trashed = false → P n.file.name) {p : Str} {child : DriveFileMeta}
    (hchild : child ∈ w.children p) : P child.name := by
  obtain ⟨n, hn, rfl, htrashed, -⟩ := mem_children.mp hchild
  exact h n hn htrashed

theorem World.Segmented.child (h : w.Segmented) {p : Str} {child : DriveFileMeta}
    (hchild : child ∈ w.children p) : Segment child.name :=
  World.child_named (P := Segment) h hchild

end Tree

-- ================================================================ the listing

section Lists

variable {w : World} {recursive : Bool} {rel : Str} {children : List DriveFileMeta}
  {l : List Listed}

/-- What is listed is a child, or lies below a child. -/
theorem World.Listing.sound (h : w.Listing recursive rel children l) {rs : List Str}
    (hrel : rel = joinPath rs) {entry : Listed} (hentry : entry ∈ l) :
    ∃ child ∈ children,
      (entry = (joinPath (rs ++ [child.name]), child)) ∨
        (recursive = true ∧ child.isFolder = true ∧ ∃ more, w.Has child.id more entry.2 ∧
          entry.1 = joinPath (rs ++ child.name :: more)) := by
  induction h generalizing rs with
  | nil => cases hentry
  | @leaf rel child rest others hkind _ ih =>
      rcases List.mem_cons.mp hentry with rfl | hentry
      · exact ⟨child, List.mem_cons_self, .inl (by rw [joinPath_concat, ← hrel])⟩
      · obtain ⟨other, hother, h⟩ := ih hrel hentry
        exact ⟨other, List.mem_cons_of_mem _ hother, h⟩
  | @folder rel child rest inside others hrec hkind _ _ ihInside ih =>
      have hbelow : extendPath rel child.name = joinPath (rs ++ [child.name]) := by
        rw [joinPath_concat, ← hrel]
      rcases List.mem_cons.mp hentry with rfl | hentry
      · exact ⟨child, List.mem_cons_self, .inl (by rw [hbelow])⟩
      · rcases List.mem_append.mp hentry with hentry | hentry
        · refine ⟨child, List.mem_cons_self, .inr ⟨hrec, hkind, ?_⟩⟩
          obtain ⟨inner, hinner, hcase⟩ := ihInside hbelow hentry
          rcases hcase with heq | ⟨-, hfolder, more, hhas, hpath⟩
          · rw [heq]
            refine ⟨[inner.name], World.has_child hinner, ?_⟩
            rw [List.append_assoc]
            rfl
          · refine ⟨inner.name :: more, ?_, ?_⟩
            · exact hhas.cons (mem_foldersNamed.mpr ⟨mem_named.mpr ⟨hinner, rfl⟩, hfolder⟩)
            · rw [hpath, List.append_assoc]
              rfl
        · obtain ⟨other, hother, h⟩ := ih hrel hentry
          exact ⟨other, List.mem_cons_of_mem _ hother, h⟩

/-- The children are listed, and in a recursive listing all that lies below
them. -/
theorem World.Listing.complete (h : w.Listing recursive rel children l) {rs : List Str}
    (hrel : rel = joinPath rs) {child : DriveFileMeta} (hchild : child ∈ children) :
    (joinPath (rs ++ [child.name]), child) ∈ l ∧
      (recursive = true → child.isFolder = true → ∀ more file, w.Has child.id more file →
        (joinPath (rs ++ child.name :: more), file) ∈ l) := by
  induction h generalizing rs child with
  | nil => cases hchild
  | @leaf rel first rest others hkind _ ih =>
      rcases List.mem_cons.mp hchild with rfl | hchild
      · refine ⟨?_, ?_⟩
        · rw [joinPath_concat, ← hrel]
          exact List.mem_cons_self
        · intro hrec hfolder
          rw [hrec, hfolder] at hkind
          cases hkind
      · obtain ⟨h, hbelow⟩ := ih hrel hchild
        exact ⟨List.mem_cons_of_mem _ h, fun hrec hfolder more file hhas =>
          List.mem_cons_of_mem _ (hbelow hrec hfolder more file hhas)⟩
  | @folder rel first rest inside others hrec hkind _ _ ihInside ih =>
      have hbelow : extendPath rel first.name = joinPath (rs ++ [first.name]) := by
        rw [joinPath_concat, ← hrel]
      rcases List.mem_cons.mp hchild with rfl | hchild
      · refine ⟨?_, ?_⟩
        · rw [← hbelow]
          exact List.mem_cons_self
        · intro _ _ more file hhas
          refine List.mem_cons_of_mem _ (List.mem_append_left _ ?_)
          rcases hhas.cases with ⟨rfl, hinner⟩ | ⟨inner, more, hinner, hfolder, rfl, hinside⟩
          · have hin := (ihInside hbelow hinner).1
            rw [List.append_assoc] at hin
            exact hin
          · have hin := (ihInside hbelow hinner).2 hrec hfolder more file hinside
            rw [List.append_assoc] at hin
            exact hin
      · obtain ⟨h, hdeep⟩ := ih hrel hchild
        exact ⟨List.mem_cons_of_mem _ (List.mem_append_right _ h), fun hrec hfolder more file hhas =>
          List.mem_cons_of_mem _ (List.mem_append_right _ (hdeep hrec hfolder more file hhas))⟩

theorem countRel_append (a b : List Listed) (r : Str) :
    countRel (a ++ b) r = countRel a r + countRel b r := by
  unfold countRel
  rw [List.filter_append, List.length_append]

theorem countRel_cons (entry : Listed) (a : List Listed) (r : Str) :
    countRel (entry :: a) r = (if entry.1 = r then 1 else 0) + countRel a r := by
  unfold countRel
  by_cases h : entry.1 = r
  · rw [List.filter_cons_of_pos (by simpa using h), if_pos h, List.length_cons]
    omega
  · rw [List.filter_cons_of_neg (by simpa using h), if_neg h]
    omega

/-- A path is listed for every object of the last name in a folder that the
others lead to. -/
theorem World.Listing.count (h : w.Listing recursive rel children l) {rs : List Str}
    (hrel : rel = joinPath rs) (s : Str) :
    (children.filter (·.name = s)).length ≤ countRel l (joinPath (rs ++ [s])) ∧
      (recursive = true → ∀ child ∈ children, child.isFolder = true → ∀ init q,
        w.Leads child.id init q →
          (w.named q s).length ≤ countRel l (joinPath (rs ++ child.name :: init ++ [s]))) := by
  induction h generalizing rs with
  | nil => exact ⟨Nat.zero_le _, nofun⟩
  | @leaf rel first rest others hkind _ ih =>
      obtain ⟨hhere, hdeep⟩ := ih hrel
      refine ⟨?_, ?_⟩
      · rw [countRel_cons, List.filter_cons]
        by_cases hs : first.name = s
        · rw [if_pos (by simpa using hs), List.length_cons, if_pos (by
            rw [← hs, joinPath_concat, ← hrel])]
          omega
        · rw [if_neg (by simpa using hs)]
          omega
      · intro hrec child hchild hfolder init q hleads
        rcases List.mem_cons.mp hchild with rfl | hchild
        · rw [hrec, hfolder] at hkind
          cases hkind
        · rw [countRel_cons]
          have hle := hdeep hrec child hchild hfolder init q hleads
          omega
  | @folder rel first rest inside others hrec hkind _ _ ihInside ih =>
      have hbelow : extendPath rel first.name = joinPath (rs ++ [first.name]) := by
        rw [joinPath_concat, ← hrel]
      obtain ⟨hhere, hdeep⟩ := ih hrel
      refine ⟨?_, ?_⟩
      · rw [countRel_cons, countRel_append, List.filter_cons]
        by_cases hs : first.name = s
        · rw [if_pos (by simpa using hs), List.length_cons, if_pos (by rw [hbelow, hs])]
          omega
        · rw [if_neg (by simpa using hs)]
          omega
      · intro _ child hchild hfolder init q hleads
        rw [countRel_cons, countRel_append]
        rcases List.mem_cons.mp hchild with rfl | hchild
        · suffices hle : (w.named q s).length ≤
              countRel inside (joinPath (rs ++ child.name :: init ++ [s])) by omega
          cases init with
          | nil =>
              obtain rfl : q = child.id := hleads
              exact (ihInside hbelow).1
          | cons t init =>
              obtain ⟨inner, hinner, hleads⟩ := hleads
              obtain ⟨hnamed, hkind'⟩ := mem_foldersNamed.mp hinner
              obtain ⟨hchild', rfl⟩ := mem_named.mp hnamed
              have hle := (ihInside hbelow).2 hrec inner hchild' hkind' init q hleads
              rw [List.append_assoc, List.append_assoc] at hle
              rw [List.append_assoc]
              exact hle
        · have hle := hdeep hrec child hchild hfolder init q hleads
          omega

end Lists

-- ====================================================== the listing of a folder

section Folder

variable {w : World} {recursive : Bool} {p : Str} {l : List Listed}

/-- What is listed of a folder lies below it, and right in it where the
listing is not recursive. -/
theorem World.Listing.placed (h : w.Listing recursive [] (w.children p) l) {entry : Listed}
    (hentry : entry ∈ l) : ∃ init s q, w.Leads p init q ∧ entry.2 ∈ w.named q s ∧
      (init ≠ [] → recursive = true) ∧ entry.1 = joinPath (init ++ [s]) := by
  obtain ⟨child, hchild, rfl | ⟨hrec, hfolder, more, hhas, hpath⟩⟩ := h.sound joinPath_nil.symm hentry
  · exact ⟨[], child.name, p, rfl, mem_named.mpr ⟨hchild, rfl⟩, fun hne => absurd rfl hne, rfl⟩
  · obtain ⟨init, s, q, rfl, hinit, hfile⟩ := hhas
    exact ⟨child.name :: init, s, q,
      ⟨child, mem_foldersNamed.mpr ⟨mem_named.mpr ⟨hchild, rfl⟩, hfolder⟩, hinit⟩, hfile,
      fun _ => hrec, hpath⟩

/-- What lies below a folder is listed. -/
theorem World.Listing.lists (h : w.Listing recursive [] (w.children p) l) {init : List Str}
    {s q : Str} {file : DriveFileMeta} (hleads : w.Leads p init q) (hfile : file ∈ w.named q s)
    (hrec : init ≠ [] → recursive = true) : (joinPath (init ++ [s]), file) ∈ l := by
  cases init with
  | nil =>
      obtain rfl : q = p := hleads
      obtain ⟨hchild, rfl⟩ := mem_named.mp hfile
      exact (h.complete joinPath_nil.symm hchild).1
  | cons t init =>
      obtain ⟨folder, hfolder, hleads⟩ := hleads
      obtain ⟨hnamed, hkind⟩ := mem_foldersNamed.mp hfolder
      obtain ⟨hchild, rfl⟩ := mem_named.mp hnamed
      exact (h.complete joinPath_nil.symm hchild).2 (hrec (List.cons_ne_nil _ _)) hkind _ _
        ⟨init, s, q, rfl, hleads, hfile⟩

/-- As often as there are objects of the name. -/
theorem World.Listing.named_le (h : w.Listing recursive [] (w.children p) l) {init : List Str}
    {s q : Str} (hleads : w.Leads p init q) (hrec : init ≠ [] → recursive = true) :
    (w.named q s).length ≤ countRel l (joinPath (init ++ [s])) := by
  obtain ⟨hhere, hdeep⟩ := h.count joinPath_nil.symm s
  cases init with
  | nil =>
      obtain rfl : q = p := hleads
      exact hhere
  | cons t init =>
      obtain ⟨folder, hfolder, hleads⟩ := hleads
      obtain ⟨hnamed, hkind⟩ := mem_foldersNamed.mp hfolder
      obtain ⟨hchild, rfl⟩ := mem_named.mp hnamed
      exact hdeep (hrec (List.cons_ne_nil _ _)) folder hchild hkind init q hleads

/-- Names that lead to a place are names of folders. -/
theorem World.leads_named {P : Str → Prop}
    (h : ∀ n ∈ w.nodes, n.trashed = false → P n.file.name) {init : List Str} {q : Str}
    (hleads : w.Leads p init q) : ∀ s ∈ init, P s := by
  induction init generalizing p with
  | nil => nofun
  | cons t init ih =>
      obtain ⟨folder, hfolder, hleads⟩ := hleads
      obtain ⟨hchild, rfl⟩ := mem_named.mp (mem_foldersNamed.mp hfolder).1
      rw [List.forall_mem_cons]
      exact ⟨World.child_named h hchild, ih hleads⟩

theorem World.has_named {P : Str → Prop}
    (h : ∀ n ∈ w.nodes, n.trashed = false → P n.file.name) {init : List Str} {s q : Str}
    {file : DriveFileMeta} (hleads : w.Leads p init q) (hfile : file ∈ w.named q s) :
    ∀ t ∈ init ++ [s], P t := by
  intro t ht
  rcases List.mem_append.mp ht with ht | ht
  · exact World.leads_named h hleads t ht
  · obtain ⟨hchild, hname⟩ := mem_named.mp hfile
    rw [List.mem_singleton.mp ht, ← hname]
    exact World.child_named h hchild

/-- What a path looks like that the children of a folder contribute. -/
theorem World.Listing.path (hnames : w.Segmented) {rel : Str} {children : List DriveFileMeta}
    {l : List Listed} (hl : w.Listing recursive rel children l) {rs : List Str}
    (hrel : rel = joinPath rs) (hrs : ∀ s ∈ rs, Segment s) {p : Str}
    (hchildren : ∀ child ∈ children, child ∈ w.children p) {entry : Listed} (hentry : entry ∈ l) :
    ∃ child ∈ children, ∃ more, entry.1 = joinPath (rs ++ child.name :: more) ∧
      ∀ s ∈ rs ++ child.name :: more, Segment s := by
  have hchildSegment : ∀ child ∈ children, Segment child.name :=
    fun child hchild => hnames.child (hchildren child hchild)
  obtain ⟨child, hchild, rfl | ⟨-, -, more, hhas, hpath⟩⟩ := hl.sound hrel hentry
  · refine ⟨child, hchild, [], rfl, ?_⟩
    intro s hs
    rcases List.mem_append.mp hs with hs | hs
    · exact hrs s hs
    · rw [List.mem_singleton.mp hs]
      exact hchildSegment child hchild
  · refine ⟨child, hchild, more, hpath, ?_⟩
    obtain ⟨init, t, q, rfl, hleads, hfile⟩ := hhas
    intro s hs
    rcases List.mem_append.mp hs with hs | hs
    · exact hrs s hs
    · rcases List.mem_cons.mp hs with rfl | hs
      · exact hchildSegment child hchild
      · exact World.has_named hnames hleads hfile s hs

/-- What the listing is sure of: every folder on the way is the only object
of its name, and so is the object itself. By induction on the way. -/
theorem World.Listing.sure (h : w.Listing recursive [] (w.children p) l) (hnames : w.Segmented)
    {base : List Str} (hbase : w.folderAt base = some p) {init : List Str} {s q : Str}
    {file : DriveFileMeta} (hleads : w.Leads p init q) (hfile : file ∈ w.named q s)
    (hrec : init ≠ [] → recursive = true)
    (hcount : countRel l (joinPath (init ++ [s])) = 1)
    (hunder : underAmbiguous l (joinPath (init ++ [s])) = false) :
    w.folderAt (base ++ init) = some q ∧ w.named q s = [file] := by
  have hsegments : ∀ t ∈ init ++ [s], Segment t := World.has_named hnames hleads hfile
  have hway : ∀ a b r, init = a ++ b → w.Leads p a r → w.Leads r b q →
      w.folderAt (base ++ a) = some r := by
    intro a
    induction a using List.reverseRecOn with
    | nil =>
        intro b r _ hr _
        obtain rfl : r = p := hr
        rw [List.append_nil]
        exact hbase
    | append_singleton a t ih =>
        intro b r hinit hr hb
        obtain ⟨r', hr', folder, hfolder, hlast⟩ := World.leads_append.mp hr
        obtain rfl : r = folder.id := hlast
        have hinit' : init = a ++ t :: b := by rw [hinit, List.append_assoc]; rfl
        have hfolderAt := ih (t :: b) r' hinit' hr' ⟨folder, hfolder, hb⟩
        obtain ⟨hnamed, hkind⟩ := mem_foldersNamed.mp hfolder
        have hne : init ≠ [] := by
          rw [hinit']
          simp
        have hrec' : a ≠ [] → recursive = true := fun _ => hrec hne
        -- The folder's path is listed once, else what is beneath it would not be sure.
        have hone : countRel l (joinPath (a ++ [t])) = 1 := by
          by_contra hmany
          refine Bool.eq_false_iff.mp hunder ?_
          unfold underAmbiguous
          rw [List.any_eq_true]
          refine ⟨_, h.lists hr' hnamed hrec', ?_⟩
          have hall : init ++ [s] = (a ++ [t]) ++ (b ++ [s]) := by
            rw [hinit]
            simp
          rw [hall] at hsegments
          rw [Bool.and_eq_true, bne_iff_ne]
          refine ⟨hmany, ?_⟩
          rw [hall, joinPath_append (fun t ht => hsegments t (List.mem_append_left _ ht))
            (fun t ht => hsegments t (List.mem_append_right _ ht)) (by simp) (by simp),
            List.isPrefixOf_iff_prefix]
          exact ⟨joinPath (b ++ [s]), by simp⟩
        have hle : (w.named r' t).length ≤ 1 := by
          rw [← hone]
          exact h.named_le hr' hrec'
        have hsole := eq_singleton_of_mem hnamed hle
        have hstep : w.step r' t = some folder.id := by
          refine World.step_eq_some.mpr ⟨folder, ?_, rfl⟩
          unfold World.foldersNamed
          rw [hsole, List.filter_cons_of_pos hkind]
          rfl
        rw [← List.append_assoc]
        exact walk_concat_eq_some.mpr ⟨r', hfolderAt, hstep⟩
  refine ⟨hway init [] q (List.append_nil _).symm hleads rfl, ?_⟩
  refine eq_singleton_of_mem hfile ?_
  rw [← hcount]
  exact h.named_le hleads hrec

end Folder

-- =================================================================== the code

section Code

variable {pj : Picojson} {rounds : Nat} {mayFail : CallReq → Prop} {R : Rel Client World}
  {w : World} {c : PathCache}

/-- The party of a file system whose runs may be left, which is where a
listing gets deeper than it is followed. -/
def globEnv (R : Rel Client World) : Env Client World := .ofRel R fun _ => True

theorem wp_glob {α : Type} {code : CacheCode α} {Q : Except Exn α → PathCache → World → Prop}
    (h : Code.wp (fsEnv R) code Q c w) : Code.wp (globEnv R) code Q c w :=
  Code.wp_of_total h

/-- What a listing comes to, by induction on its depth. -/
theorem wp_listFolder (hR : ∀ w q r w', R w q r w' → treeRel pj mayFail w q r w')
    (hrounds : 1 ≤ rounds) (path : Str) (recursive : Bool) (depth : Nat) (folderId rel : Str) :
    Code.wp (globEnv R) (listFolder pj rounds path recursive depth folderId rel)
      (fun out c' w' => c' = c ∧ w' = w ∧
        ∀ l, out = .ok l → w.Listing recursive rel (w.children (w.deref folderId)) l) c w := by
  induction depth generalizing folderId rel with
  | zero => exact trivial
  | succ depth ih =>
      unfold listFolder
      rw [Code.wp_bind]
      refine Code.wp_mono (wp_glob (wp_listChildren hR hrounds _ _ _)) ?_
      intro out c' w' ⟨hc, hw, hout⟩
      subst hc hw
      rcases hout with rfl | ⟨-, e, rfl⟩
      · rw [Code.outcome_ok]
        have hderef : ∀ child ∈ w'.children (w'.deref folderId), w'.deref child.id = child.id := by
          intro child hchild
          obtain ⟨n, hn, rfl, -⟩ := World.mem_children.mp hchild
          exact World.deref_node hn
        -- The children one by one.
        generalize w'.children (w'.deref folderId) = children at hderef ⊢
        induction children with
        | nil =>
            refine ⟨rfl, rfl, ?_⟩
            intro l hl
            cases hl
            exact .nil
        | cons child rest ihRest =>
            rw [List.forall_mem_cons] at hderef
            unfold listFolder.listBelow listFolder.descendInto
            rw [Code.wp_bind]
            cases hkind : (recursive && child.isFolder) with
            | false =>
                rw [if_neg Bool.false_ne_true, Code.wp_pure, Code.outcome_ok, Code.wp_bind]
                refine Code.wp_mono (ihRest hderef.2) ?_
                intro out c'' w'' ⟨hc, hw, hout⟩
                subst hc hw
                cases out with
                | error e => exact ⟨rfl, rfl, nofun⟩
                | ok others =>
                    refine ⟨rfl, rfl, ?_⟩
                    intro l hl
                    cases hl
                    exact .leaf hkind (hout others rfl)
            | true =>
                rw [if_pos rfl]
                refine Code.wp_mono (ih child.id (below rel child.name)) ?_
                intro out c'' w'' ⟨hc, hw, hinside⟩
                subst hc hw
                cases out with
                | error e => exact ⟨rfl, rfl, nofun⟩
                | ok inside =>
                    rw [Code.outcome_ok, Code.wp_bind]
                    refine Code.wp_mono (ihRest hderef.2) ?_
                    intro out c'' w'' ⟨hc, hw, hout⟩
                    subst hc hw
                    cases out with
                    | error e => exact ⟨rfl, rfl, nofun⟩
                    | ok others =>
                        refine ⟨rfl, rfl, ?_⟩
                        intro l hl
                        cases hl
                        obtain ⟨hrec, hfolder⟩ := (Bool.and_eq_true _ _).mp hkind
                        have hin := hinside inside rfl
                        rw [hderef.1] at hin
                        exact .folder hrec hfolder hin (hout others rfl)
      · exact ⟨rfl, rfl, nofun⟩

end Code

end GDrive
