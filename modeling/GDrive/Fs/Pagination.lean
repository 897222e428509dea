/-
`GDriveClientImpl::List` follows `nextPageToken` to the end and hands its
caller one body for all the pages, which the caller parses again, in a loop
that would follow a token of its own.

# Two hops

A page's entries describe files (`Describes`), as Drive writes them: an id,
and a size in decimal digits where there is one. What `List` writes of a file
describes it just so (`describes_fileObject`), so the second parse finds what
the first one did, and no token behind it.

# Chains

`PageChain` and `BrokenChain` are the pages as `ExecuteWithRetry` gets them
from a network that answers in whatever way, retries and refreshes included:
up to the last one, or up to one that fails.
-/
import GDrive.Fs.Resolve
import GDrive.Client.Picojson

namespace GDrive

open Interaction

-- ================================================================== the entries

/-- A size as a page has it: none, or a number in decimal digits that fits
in 63 bits. -/
def DescribesSize (fields : List (Str × Json)) (size : Int) : Prop :=
  (Json.field fields (str "size") = none ∧ size = -1) ∨
    ∃ digits : Str, Json.field fields (str "size") = some (.string digits) ∧ digits ≠ [] ∧
      digits.all isDigit = true ∧ digitsValue 0 digits < 2 ^ 63 ∧ size = digitsValue 0 digits

/-- The file that an entry of a page is about. -/
structure Describes (fields : List (Str × Json)) (file : DriveFileMeta) : Prop where
  id : Json.field fields (str "id") = some (.string file.id)
  name : file.name = (getString fields (str "name")).getD []
  mimeType : file.mimeType = (getString fields (str "mimeType")).getD []
  size : DescribesSize fields file.size
  modifiedTime : file.modifiedTime = (getString fields (str "modifiedTime")).getD []
  headRevisionId : file.headRevisionId = (getString fields (str "headRevisionId")).getD []

/-- Digits are read to their end. -/
theorem strtoll_digits {digits : Str} (hne : digits ≠ []) (hall : digits.all isDigit = true)
    (hlt : digitsValue 0 digits < 2 ^ 63) : strtoll digits = some (digitsValue 0 digits : Int) := by
  have hmem := List.all_eq_true.mp hall
  have htake : digits.takeWhile isDigit = digits := List.takeWhile_eq_self_iff.mpr hmem
  have hdigits : splitSign (digits.dropWhile isSpace) = (false, digits) := by
    cases digits with
    | nil => exact absurd rfl hne
    | cons c rest =>
        have hc := hmem c List.mem_cons_self
        simp only [isDigit, Bool.and_eq_true, decide_eq_true_eq] at hc
        have hspace : isSpace c = false := by
          rw [Bool.eq_false_iff]
          intro hspace
          simp only [isSpace, Bool.or_eq_true, Bool.and_eq_true, beq_iff_eq, decide_eq_true_eq]
            at hspace
          rcases hspace with rfl | hspace
          · exact absurd hc.1 (by decide)
          · omega
        rw [List.dropWhile_cons_of_neg (by rw [hspace]; exact Bool.false_ne_true)]
        unfold splitSign
        split
        · rename_i heq
          rw [(List.cons.inj heq).1] at hc
          exact absurd hc.1 (by decide)
        · rename_i heq
          rw [(List.cons.inj heq).1] at hc
          exact absurd hc.1 (by decide)
        · rfl
  have hempty : digits.isEmpty = false := by
    rw [List.isEmpty_eq_false_iff]
    exact hne
  unfold strtoll
  simp only [hdigits, htake, hempty, Bool.false_eq_true, if_false, false_or]
  rw [if_neg (by omega)]

theorem getInt64_of_describesSize {fields : List (Str × Json)} {size : Int}
    (h : DescribesSize fields size) : (getInt64FromString fields (str "size")).getD (-1) = size := by
  unfold getInt64FromString
  rcases h with ⟨hnone, rfl⟩ | ⟨digits, hfield, hne, hall, hlt, rfl⟩
  · rw [getString, hnone]
    rfl
  · rw [getString_of_field hfield]
    simp only [List.isEmpty_eq_false_iff.mpr hne, Bool.false_eq_true, if_false,
      strtoll_digits hne hall hlt, Option.getD_some]

/-- A size that is none or fits. -/
theorem DescribesSize.bounds {fields : List (Str × Json)} {size : Int}
    (h : DescribesSize fields size) : size = -1 ∨ (0 ≤ size ∧ size < 2 ^ 63) := by
  rcases h with ⟨-, rfl⟩ | ⟨digits, -, -, -, hlt, rfl⟩
  · exact .inl rfl
  · exact .inr ⟨Int.natCast_nonneg _, by omega⟩

/-- An entry is parsed as the file it is about. -/
theorem parseFileMetaObject_of_describes {fields : List (Str × Json)} {file : DriveFileMeta}
    (h : Describes fields file) : parseFileMetaObject fields = some file := by
  unfold parseFileMetaObject
  rw [getString_of_field h.id, ← h.name, ← h.mimeType, getInt64_of_describesSize h.size,
    ← h.modifiedTime, ← h.headRevisionId]

/-- A file as `List` writes it: every member, the size where there is one. -/
theorem describes_fileObject {file : DriveFileMeta} {xs ys : List (Str × Json)}
    (hxs : fileObject file = .object xs)
    (h : ∀ key, Option.Rel Json.Same (xs.lookup key) (ys.lookup key))
    (hsize : file.size = -1 ∨ (0 ≤ file.size ∧ file.size < 2 ^ 63)) : Describes ys file := by
  have hstring : ∀ (key s : Str), xs.lookup key = some (.string s) →
      s = (getString ys key).getD [] := by
    intro key s hkey
    rw [getString_of_field (Json.Same.lookup_string h hkey), Option.getD_some]
  unfold fileObject at hxs
  cases hxs
  refine ⟨Json.Same.lookup_string h rfl, hstring _ _ rfl, hstring _ _ rfl, ?_, hstring _ _ ?_,
    hstring _ _ ?_⟩
  · rcases hsize with hnone | ⟨hpos, hlt⟩
    · rw [if_neg (by omega)] at h
      exact .inl ⟨Json.Same.lookup_none h rfl, hnone⟩
    · rw [if_pos hpos] at h
      have hvalue : (digitsValue 0 (decimal file.size.toNat) : Int) = file.size := by
        rw [digitsValue_decimal, Int.toNat_of_nonneg hpos]
      refine .inr ⟨decimal file.size.toNat, Json.Same.lookup_string h rfl, decimal_ne_nil _, ?_, ?_,
        hvalue.symm⟩
      · exact List.all_eq_true.mpr fun c hc => isDigit_of_mem_decimal hc
      · omega
  · split <;> rfl
  · split <;> rfl

-- ==================================================================== the pages

/-- The files that the entries of a page are about, in their order. -/
def DescribesAll : List Json → List DriveFileMeta → Prop :=
  List.Forall₂ fun entry file => ∃ fields, entry = .object fields ∧ Describes fields file

/-- A well-formed page: its files, and the next page's token, empty where
there is none. -/
structure IsPage (pj : Picojson) (body : Str) (files : List DriveFileMeta) (next : Str) : Prop where
  parsed : ∃ top entries, pj.parse body = some (.object top) ∧
    Json.field top (str "files") = some (.array entries) ∧ DescribesAll entries files ∧
    ((Json.field top (str "nextPageToken") = none ∧ next = []) ∨
      Json.field top (str "nextPageToken") = some (.string next))

theorem parseFileEntries_of_describes {entries : List Json} {files : List DriveFileMeta}
    (h : DescribesAll entries files) : parseFileEntries entries = files := by
  induction h with
  | nil => rfl
  | cons hentry _ ih =>
      obtain ⟨fields, rfl, hdescribes⟩ := hentry
      rw [parseFileEntries, parseFileMetaObject_of_describes hdescribes, ih]

theorem DescribesAll.sizes {entries : List Json} {files : List DriveFileMeta}
    (h : DescribesAll entries files) :
    ∀ file ∈ files, file.size = -1 ∨ (0 ≤ file.size ∧ file.size < 2 ^ 63) := by
  induction h with
  | nil =>
      intro file hfile
      cases hfile
  | cons hentry _ ih =>
      obtain ⟨fields, rfl, hdescribes⟩ := hentry
      intro file hfile
      rcases List.mem_cons.mp hfile with rfl | hfile
      · exact hdescribes.size.bounds
      · exact ih file hfile

/-- A well-formed page is read as what it says. -/
theorem IsPage.parseFileList {pj : Picojson} {body : Str} {files : List DriveFileMeta} {next : Str}
    (h : IsPage pj body files next) : parseFileList pj body = some (files, next) := by
  obtain ⟨top, entries, htop, hfiles, hall, hnext⟩ := h.parsed
  have htoken : (getString top (str "nextPageToken")).getD [] = next := by
    rcases hnext with ⟨hnone, rfl⟩ | hnext
    · rw [getString, hnone]
      rfl
    · rw [getString_of_field hnext]
      rfl
  rw [GDrive.parseFileList, Picojson.parseObject, htop]
  simp only [hfiles, htoken, parseFileEntries_of_describes hall]

/-- The files of a page are files that can be written again. -/
theorem IsPage.sizes {pj : Picojson} {body : Str} {files : List DriveFileMeta} {next : Str}
    (h : IsPage pj body files next) :
    ∀ file ∈ files, file.size = -1 ∨ (0 ≤ file.size ∧ file.size < 2 ^ 63) := by
  obtain ⟨_, _, _, _, hall, _⟩ := h.parsed
  exact hall.sizes

theorem describesAll_fileObjects {files : List DriveFileMeta} {entries : List Json}
    (h : List.Forall₂ Json.Same (files.map fileObject) entries)
    (hsizes : ∀ file ∈ files, file.size = -1 ∨ (0 ≤ file.size ∧ file.size < 2 ^ 63)) :
    DescribesAll entries files := by
  induction files generalizing entries with
  | nil =>
      cases h
      exact .nil
  | cons file files ih =>
      cases h with
      | @cons _ entry _ rest hentry hrest =>
          refine .cons ?_ (ih hrest fun file hfile => hsizes file (List.mem_cons_of_mem _ hfile))
          have hobject : ∃ xs, fileObject file = .object xs := ⟨_, rfl⟩
          obtain ⟨xs, hxs⟩ := hobject
          rw [hxs] at hentry
          cases hentry with
          | @object _ ys hys =>
              exact ⟨ys, rfl, describes_fileObject hxs hys (hsizes file List.mem_cons_self)⟩

/-- The body that `List` hands on is a last page of all the files. -/
theorem isPage_serializeFileList {pj : Picojson} (hpj : pj.RoundTrips) {files : List DriveFileMeta}
    (hsizes : ∀ file ∈ files, file.size = -1 ∨ (0 ≤ file.size ∧ file.size < 2 ^ 63)) :
    IsPage pj (serializeFileList pj files) files [] := by
  obtain ⟨v, hparse, hsame⟩ := hpj (.object [(str "files", .array (files.map fileObject))])
  cases hsame with
  | @object _ top htop =>
      have hnone : Json.field top (str "nextPageToken") = none := Json.Same.lookup_none htop rfl
      have hrel := htop (str "files")
      rw [List.lookup_cons_self] at hrel
      generalize hfield : top.lookup (str "files") = found at hrel
      cases hrel with
      | some harray =>
          cases harray with
          | @array _ entries hentries =>
              exact ⟨top, entries, hparse, hfield, describesAll_fileObjects hentries hsizes,
                .inl ⟨hnone, rfl⟩⟩

-- =================================================================== the chains

section Chains

variable (pj : Picojson) (depth : Nat) {W : Type} (f : W → (q : WireReq) → Wire.Ans q × W)
  (query : DriveQuery)

/-- What asking for the page at a token comes to, against a network that
answers by `f`. -/
def PageReply (token : Str) (w : W) (r : Except Exn DriveResponse) (w' : W) : Prop :=
  (executeWithRetry pj (.filesList query token) [200] false depth).play f w = (.ret r, w')

/-- Well-formed pages from a token on, up to the last one. -/
inductive PageChain : Str → W → List (List DriveFileMeta) → W → Prop
  | last {token : Str} {w w' : W} {r : DriveResponse} {files : List DriveFileMeta} :
      PageReply pj depth f query token w (.ok r) w' → r.ok = true → IsPage pj r.body files [] →
      PageChain token w [files] w'
  | more {token next : Str} {w w' w'' : W} {r : DriveResponse} {files : List DriveFileMeta}
      {pages : List (List DriveFileMeta)} :
      PageReply pj depth f query token w (.ok r) w' → r.ok = true → IsPage pj r.body files next →
      next ≠ [] → PageChain next w' pages w'' → PageChain token w (files :: pages) w''

/-- Pages from a token on, of which the last one fails or is rejected. -/
inductive BrokenChain : Str → W → Nat → Prop
  | thrown {token : Str} {w w' : W} {e : Exn} :
      PageReply pj depth f query token w (.error e) w' → BrokenChain token w 1
  | failed {token : Str} {w w' : W} {r : DriveResponse} :
      PageReply pj depth f query token w (.ok r) w' → r.ok = false → BrokenChain token w 1
  | rejected {token : Str} {w w' : W} {r : DriveResponse} :
      PageReply pj depth f query token w (.ok r) w' → r.ok = true →
      parseFileList pj r.body = none → BrokenChain token w 1
  | more {token next : Str} {w w' : W} {r : DriveResponse} {files : List DriveFileMeta}
      {count : Nat} :
      PageReply pj depth f query token w (.ok r) w' → r.ok = true →
      parseFileList pj r.body = some (files, next) → next ≠ [] → BrokenChain next w' count →
      BrokenChain token w (count + 1)

variable {pj depth f query} {token : Str} {w w' : W} {found : List DriveFileMeta} {rounds : Nat}

/-- An accepted page with another one behind it. -/
theorem play_listPages_more {r : DriveResponse} {files : List DriveFileMeta} {next : Str}
    (hreply : PageReply pj depth f query token w (.ok r) w') (hok : r.ok = true)
    (hparse : parseFileList pj r.body = some (files, next)) (hnext : next ≠ []) :
    (listPages pj depth query (rounds + 1) token found).play f w =
      (listPages pj depth query rounds next (found ++ files)).play f w' := by
  refine (Prog.play_bind_ret hreply).trans ?_
  simp only [hok, Bool.not_true, Bool.false_eq_true, if_false, hparse,
    List.isEmpty_eq_false_iff.mpr hnext]

/-- The loop over a chain: everything gathered, as one body. -/
theorem PageChain.play {pages : List (List DriveFileMeta)}
    (h : PageChain pj depth f query token w pages w') (hrounds : pages.length ≤ rounds)
    (found : List DriveFileMeta) :
    (listPages pj depth query rounds token found).play f w =
      (.ret (.ok
        { ok := true
          httpStatus := 200
          body := serializeFileList pj (found ++ pages.flatten) }), w') := by
  induction h generalizing found rounds with
  | last hreply hok hpage =>
      obtain ⟨rounds, rfl⟩ : ∃ n, rounds = n + 1 := ⟨rounds - 1, by simp at hrounds; omega⟩
      refine (Prog.play_bind_ret hreply).trans ?_
      simp only [hok, Bool.not_true, Bool.false_eq_true, if_false, hpage.parseFileList,
        List.isEmpty_nil, if_true, List.flatten_cons, List.flatten_nil, List.append_nil]
      rfl
  | more hreply hok hpage hnext _ ih =>
      rw [List.length_cons] at hrounds
      obtain ⟨rounds, rfl⟩ : ∃ n, rounds = n + 1 := ⟨rounds - 1, by omega⟩
      rw [play_listPages_more hreply hok hpage.parseFileList hnext, ih (by omega),
        List.flatten_cons, List.append_assoc]

theorem PageChain.sizes {pages : List (List DriveFileMeta)}
    (h : PageChain pj depth f query token w pages w') :
    ∀ file ∈ pages.flatten, file.size = -1 ∨ (0 ≤ file.size ∧ file.size < 2 ^ 63) := by
  induction h with
  | last _ _ hpage =>
      rw [List.flatten_cons, List.flatten_nil, List.append_nil]
      exact hpage.sizes
  | more _ _ hpage _ _ ih =>
      intro file hfile
      rw [List.flatten_cons, List.mem_append] at hfile
      rcases hfile with hfile | hfile
      · exact hpage.sizes file hfile
      · exact ih file hfile

/-- What a chain comes to: one body that is parsed as everything on its
pages. -/
theorem PageChain.lossless (hpj : pj.RoundTrips) {pages : List (List DriveFileMeta)}
    (h : PageChain pj depth f query token w pages w') (hrounds : pages.length ≤ rounds) :
    ∃ resp, (listPages pj depth query rounds token []).play f w = (.ret (.ok resp), w') ∧
      resp.ok = true ∧ parseFileList pj resp.body = some (pages.flatten, []) := by
  have hplay := h.play hrounds []
  rw [List.nil_append] at hplay
  exact ⟨_, hplay, rfl, (isPage_serializeFileList hpj h.sizes).parseFileList⟩

/-- The caller's loop over a chain: it finds the pages' files in the one
body and follows nothing. -/
theorem listAll_lossless {σ : Type} (hpj : pj.RoundTrips) {pages : List (List DriveFileMeta)}
    (h : PageChain pj depth f query [] w pages w') (hdepth : pages.length ≤ depth)
    (hrounds : 1 ≤ rounds) (contextPath malformed : Str) (s : σ) :
    ((listAll pj query contextPath malformed rounds [] [] s).handle (client pj depth)).play f w =
      (.ret (.ok pages.flatten, s), w') := by
  obtain ⟨rounds, rfl⟩ : ∃ n, rounds = n + 1 := ⟨rounds - 1, by omega⟩
  obtain ⟨resp, hplay, hok, hparse⟩ := h.lossless hpj hdepth
  refine (Prog.play_bind_ret hplay).trans ?_
  simp only [hok, hparse, Code.when, Prog.bind]
  rfl

/-- The loop over a chain that breaks: a failure, whatever was gathered. -/
theorem BrokenChain.play {count : Nat} (h : BrokenChain pj depth f query token w count)
    (hrounds : count ≤ rounds) :
    ∃ r w', (listPages pj depth query rounds token found).play f w = (.ret r, w') ∧
      ∀ resp, r = .ok resp → resp.ok = false := by
  induction h generalizing found rounds with
  | @thrown token w w' e hreply =>
      obtain ⟨rounds, rfl⟩ : ∃ n, rounds = n + 1 := ⟨rounds - 1, by omega⟩
      refine ⟨.error e, w', Prog.play_bind_ret hreply, ?_⟩
      intro resp hresp
      cases hresp
  | @failed token w w' r hreply hok =>
      obtain ⟨rounds, rfl⟩ : ∃ n, rounds = n + 1 := ⟨rounds - 1, by omega⟩
      refine ⟨.ok r, w', ?_, ?_⟩
      · refine (Prog.play_bind_ret hreply).trans ?_
        simp only [hok, Bool.not_false, if_true]
        rfl
      · intro resp hresp
        cases hresp
        exact hok
  | @rejected token w w' r hreply hok hparse =>
      obtain ⟨rounds, rfl⟩ : ∃ n, rounds = n + 1 := ⟨rounds - 1, by omega⟩
      have hplay : (listPages pj depth query (rounds + 1) token found).play f w =
          (.ret (.ok
            { httpStatus := r.httpStatus
              error :=
                { kind := .unknown
                  message := str "malformed files.list response body" } }), w') := by
        refine (Prog.play_bind_ret hreply).trans ?_
        simp only [hok, Bool.not_true, Bool.false_eq_true, if_false, hparse]
        rfl
      refine ⟨_, _, hplay, ?_⟩
      intro resp hresp
      cases hresp
      rfl
  | more hreply hok hparse hnext _ ih =>
      obtain ⟨rounds, rfl⟩ : ∃ n, rounds = n + 1 := ⟨rounds - 1, by omega⟩
      rw [play_listPages_more hreply hok hparse hnext]
      exact ih (by omega)

/-- Pagination is lossless. Over a chain of well-formed pages, however long
and however the network comes to deliver them, `List` succeeds, and its body
is parsed as the pages' files one after the other, without a token; over a
chain in which a page fails or is rejected, `List` fails. -/
theorem list_pagination_lossless (hpj : pj.RoundTrips) (token : Str) (w : W) :
    (∀ pages w', PageChain pj depth f query token w pages w' → ∀ rounds, pages.length ≤ rounds →
      ∃ resp, (listPages pj depth query rounds token []).play f w = (.ret (.ok resp), w') ∧
        resp.ok = true ∧ parseFileList pj resp.body = some (pages.flatten, [])) ∧
    ∀ count, BrokenChain pj depth f query token w count → ∀ rounds, count ≤ rounds →
      ∃ r w', (listPages pj depth query rounds token []).play f w = (.ret r, w') ∧
        ∀ resp, r = .ok resp → resp.ok = false := by
  constructor
  · intro pages w' hchain rounds hrounds
    exact hchain.lossless hpj hrounds
  · intro count hchain rounds hrounds
    exact hchain.play hrounds

end Chains

/-- A network whose Drive has two listings: of two pages, and of one page
with nothing behind it. -/
def pagesBody (token : Str) : Str :=
  if token = [] then
    textJson.serialize (.object
      [(str "nextPageToken", .string (str "2")),
        (str "files", .array [.object
          [(str "id", .string (str "a")), (str "name", .string (str "x.csv")),
            (str "size", .string (str "42"))]])])
  else if token = str "2" then
    textJson.serialize (.object [(str "files", .array [.object [(str "id", .string (str "b"))]])])
  else if token = str "old" then
    textJson.serialize (.object
      [(str "nextPageToken", .string (str "gone")),
        (str "files", .array [.object [(str "id", .string (str "c"))]])])
  else []

def pagesNetwork (_ : Unit) : (q : WireReq) → Wire.Ans q × Unit
  | .token => (.ok (str "t"), ())
  | .refresh _ => (.ok (str "t"), ())
  | .http _ (.filesList _ token) =>
      (({ transportOk := true, status := 200, body := pagesBody token } : RawResult), ())
  | .http _ _ => (({} : RawResult), ())
  | .session _ _ _ => (({} : RawResult), ())
  | .cancelSession _ => ((), ())
  | .sleep _ _ => ((), ())

theorem pageReply_pagesNetwork (token : Str) :
    PageReply textJson 1 pagesNetwork { parentId := str "R" } token ()
      (.ok { ok := true, httpStatus := 200, body := pagesBody token }) () := rfl

/-- Two pages come back as two files; a listing that breaks off behind its
first page fails. -/
theorem list_pagination_lossless_case :
    (∃ resp, (listPages textJson 1 { parentId := str "R" } 2 [] []).play pagesNetwork () =
        (.ret (.ok resp), ()) ∧ resp.ok = true ∧
      parseFileList textJson resp.body =
        some ([{ id := str "a", name := str "x.csv", size := 42 }, { id := str "b" }], [])) ∧
    ∃ r w', (listPages textJson 1 { parentId := str "R" } 2 (str "old") []).play pagesNetwork () =
        (.ret r, w') ∧ ∀ resp, r = .ok resp → resp.ok = false := by
  have hfirst : IsPage textJson (pagesBody []) [{ id := str "a", name := str "x.csv", size := 42 }]
      (str "2") := by
    refine ⟨_, _, textJson_parse _, rfl, .cons ⟨_, rfl, ?_⟩ .nil, .inr rfl⟩
    exact ⟨rfl, rfl, rfl, .inr ⟨str "42", rfl, by decide, by decide, by decide, rfl⟩, rfl, rfl⟩
  have hsecond : IsPage textJson (pagesBody (str "2")) [{ id := str "b" }] [] := by
    refine ⟨_, _, textJson_parse _, rfl, .cons ⟨_, rfl, ?_⟩ .nil, .inl ⟨rfl, rfl⟩⟩
    exact ⟨rfl, rfl, rfl, .inl ⟨rfl, rfl⟩, rfl, rfl⟩
  have hold : IsPage textJson (pagesBody (str "old")) [{ id := str "c" }] (str "gone") := by
    refine ⟨_, _, textJson_parse _, rfl, .cons ⟨_, rfl, ?_⟩ .nil, .inr rfl⟩
    exact ⟨rfl, rfl, rfl, .inl ⟨rfl, rfl⟩, rfl, rfl⟩
  have hgone : parseFileList textJson (pagesBody (str "gone")) = none := rfl
  constructor
  · exact (list_pagination_lossless textJson_roundTrips [] ()).1 _ ()
      (.more (pageReply_pagesNetwork _) rfl hfirst (by decide)
        (.last (pageReply_pagesNetwork _) rfl hsecond)) 2 (Nat.le_refl 2)
  · exact (list_pagination_lossless textJson_roundTrips (str "old") ()).2 2
      (.more (pageReply_pagesNetwork _) rfl hold.parseFileList (by decide)
        (.rejected (pageReply_pagesNetwork _) rfl hgone)) 2 (Nat.le_refl 2)

end GDrive
