/-
What the reads return: the bytes of the file, from where they were asked
for, and all of them.

# The party

`ServesContent` is a Drive that answers each media request for the file
with a prefix of the range asked for (206), with everything (200), or with
a failure other than a 404; its other answers do not matter.

# The argument

A block that has come in is a prefix of the content from its own start on
(`FilledFrom`), whichever reply it was cut from, so one round of the block
loop copies content from where the previous one stopped, and the exact range
copies the same bytes at once. Every index on the way is bounded by the end
of the read, which the guard has bounded.
-/
import GDrive.Interaction.History
import GDrive.Read.Reader

namespace GDrive

open Interaction

/-- The content from `location` on, `n` bytes of it at most. -/
def slice (content : Str) (location n : Nat) : Str := (content.drop location).take n

theorem slice_add (content : Str) (location a b : Nat) :
    slice content location (a + b) = slice content location a ++ slice content (location + a) b := by
  unfold slice
  rw [List.take_add, List.drop_drop]

-- =============================================================== the replies

/-- A reply to a media request for bytes `first` to `last`. -/
def MediaReply (pj : Picojson) (content : Str) (first last : Int) (raw : RawResult) : Prop :=
  (raw.is 206 ∧ raw.body <+: slice content first.toNat (last + 1 - first).toNat) ∨
    (raw.is 200 ∧ raw.body = content) ∨
    (raw.transportOk = true → raw.status ∉ [200, 206] ∧ (errorOf pj raw).kind ≠ .notFound)

/-- A Drive that has `content` as the content of `fileId`. It answers anything
else as it likes, so it needs no state. -/
def contentRel (pj : Picojson) (fileId content : Str) : Rel Wire Unit :=
  fun _ q ans _ =>
    match q, ans with
    | .http _ (.filesMedia id first last), (raw : RawResult) =>
        id = fileId → MediaReply pj content first last raw
    | _, _ => True

/-- The same of the client's response. -/
def MediaResponse (content : Str) (first last : Int) (resp : DriveResponse) : Prop :=
  if resp.ok then
    (resp.httpStatus = 206 ∧ resp.body <+: slice content first.toNat (last + 1 - first).toNat) ∨
      (resp.httpStatus = 200 ∧ resp.body = content)
  else resp.error.kind ≠ .notFound

/-- What the file system meets: the client in front of that Drive. -/
def readEnv (pj : Picojson) (depth : Nat) (fileId content : Str) : Env Client Unit :=
  (Env.total (contentRel pj fileId content) fun _ => True).through (client pj depth)

section Content

variable {pj : Picojson} {depth rounds thread : Nat} {fileId content : Str}

theorem mediaResponse_responseOf {op : DriveOp} {flag : Bool} {first last : Int}
    {raw : RawResult} (h : MediaReply pj content first last raw) :
    MediaResponse content first last (responseOf pj op [200, 206] flag raw) := by
  by_cases hok : raw.transportOk = true
  · by_cases hstatus : raw.status ∈ [200, 206]
    · have hresp : responseOf pj op [200, 206] flag raw =
          { ok := true, httpStatus := raw.status, body := raw.body, location := raw.location } := by
        unfold responseOf
        rw [hok, if_neg (by decide), if_pos hstatus]
      rw [hresp]
      rcases h with ⟨h206, hbody⟩ | ⟨h200, hbody⟩ | hfail
      · exact .inl ⟨h206.2, hbody⟩
      · exact .inr ⟨h200.2, hbody⟩
      · exact absurd hstatus (hfail hok).1
    · have hresp : responseOf pj op [200, 206] flag raw =
          { httpStatus := raw.status, body := raw.body, error := errorOf pj raw } := by
        unfold responseOf
        rw [hok, if_neg (by decide), if_neg hstatus]
      rw [hresp]
      rcases h with ⟨h206, -⟩ | ⟨h200, -⟩ | hfail
      · exact absurd (by simp [h206.2]) hstatus
      · exact absurd (by simp [h200.2]) hstatus
      · exact (hfail hok).2
  · have hresp : responseOf pj op [200, 206] flag raw = transportFailure (mayRetry op flag) := by
      unfold responseOf
      rw [if_pos (by simpa using hok)]
    rw [hresp]
    exact nofun

/-- A download returns, whatever happens, and returns such a response. -/
theorem wp_download (hdepth : kMaxAttempts + 1 ≤ depth) (first last : Int) (w : Unit) :
    (readEnv pj depth fileId content).ask (.download fileId first last)
      (fun r _ => ∀ resp, r = .ok resp → MediaResponse content first last resp) w := by
  refine Env.wp_total_of_ends (executeWithRetry_ends _ _ _ _ hdepth)
    (wp_executeWithRetry (I := fun _ => True) ?_ ?_ ?_ ?_ depth trivial)
  · exact fun _ _ => trivial
  · exact fun q P w _ _ hP => ⟨trivial, fun ans _ _ => hP ans⟩
  · exact fun _ _ _ _ => nofun
  · intro accessToken w _
    refine ⟨trivial, ?_⟩
    intro (raw : RawResult) w' hw
    refine ⟨fun _ => trivial, ?_⟩
    intro resp hresp
    cases hresp
    exact mediaResponse_responseOf (hw rfl)

-- =============================================================== the indices

section Arithmetic

variable {W : Type} {E : Env Client W} {r : Reader} {w : W}

theorem wp_index {n : Nat} (h : n < 2 ^ 64) (Q : Except Exn Nat → Reader → W → Prop) :
    Code.wp E (index n) Q r w ↔ Q (.ok n) r w := by
  have hcast : castIndex n = n := by
    unfold castIndex
    omega
  have hfits : decide ((n : Int) < 0 ∨ 2 ^ 64 ≤ (n : Int)) = false := by
    rw [decide_eq_false_iff_not]
    omega
  unfold index markWrapped
  rw [hfits, hcast]
  exact Iff.rfl

theorem wp_offset {n : Int} (h : -2 ^ 63 ≤ n) (h' : n < 2 ^ 63)
    (Q : Except Exn Int → Reader → W → Prop) :
    Code.wp E (offset n) Q r w ↔ Q (.ok n) r w := by
  have hcast : Int.bmod n (2 ^ 64) = n := Int.bmod_eq_of_le (by omega) (by omega)
  have hfits : decide (n < -2 ^ 63 ∨ 2 ^ 63 ≤ n) = false := by
    rw [decide_eq_false_iff_not]
    omega
  unfold offset markWrapped
  rw [hfits, hcast]
  exact Iff.rfl

theorem wp_divideIndex {a b : Nat} (h : 0 < b) (Q : Except Exn Nat → Reader → W → Prop) :
    Code.wp E (divideIndex a b) Q r w ↔ Q (.ok (a / b)) r w := by
  have hfits : decide (b = 0) = false := by
    rw [decide_eq_false_iff_not]
    omega
  unfold divideIndex markWrapped
  rw [hfits]
  exact Iff.rfl

end Arithmetic

theorem castIndex_of_nonneg {n : Int} (h : 0 ≤ n) (h' : n < 2 ^ 64) : castIndex n = n.toNat := by
  unfold castIndex
  omega

-- ================================================================ the handle

/-- A handle open on the file. -/
structure OpenOn (fileId content : Str) (h : ReadHandle) : Prop where
  id : h.file.id = fileId
  size : h.file.size = content.length
  fits : content.length < 2 ^ 63
  exported : h.isExport = true → h.exportBuffer = content

/-- A block of the file is its content from the block's start on, as much of
it as came. -/
def FilledFrom (content : Str) (bs i : Nat) (data : Str) : Prop :=
  data <+: content.drop (blockStart i bs)

/-- A reader of the file: every cached block under its handle's key is
content, and nothing has gone wrong yet. -/
structure Reading (content : Str) (h : ReadHandle) (r : Reader) : Prop where
  handle : r.handle = h
  blocks : BlocksAre (FilledFrom content) h.blockKey none r.fs.blocks
  notFound : r.notFound = false
  wrapped : r.wrapped = false

/-- A read of `n` bytes at `location`: all of them, or an exception. -/
def Delivers (content : Str) (h : ReadHandle) (location n : Nat) (out : Except Exn Str)
    (r : Reader) : Prop :=
  Reading content h r ∧
    ∀ bytes, out = .ok bytes → bytes = slice content location n ∧ bytes.length = n

theorem Delivers.error {h : ReadHandle} {location n : Nat} {r : Reader} {e : Exn}
    (hr : Reading content h r) : Delivers content h location n (.error e) r :=
  ⟨hr, nofun⟩

variable {h : ReadHandle} {r : Reader} {w : Unit}

-- =============================================================== block by block

/-- The fetch of a block that begins before the end of the read. -/
theorem wp_fetchBlock (hdepth : kMaxAttempts + 1 ≤ depth) (hopen : OpenOn fileId content h)
    {i bs : Nat} (hstart : blockStart i bs < 2 ^ 63)
    (hr : r.handle = h ∧ r.notFound = false ∧ r.wrapped = false) :
    Code.wp (readEnv pj depth fileId content)
      (fetchBlock (blockStart i bs) (blockLength i bs content.length))
      (Code.outcome
        (fun data r' _ => FilledFrom content bs i data ∧ r'.fs.blocks = r.fs.blocks ∧
          r'.handle = h ∧ r'.notFound = false ∧ r'.wrapped = false)
        (fun _ r' _ => True ∧ r'.fs.blocks = r.fs.blocks ∧
          r'.handle = h ∧ r'.notFound = false ∧ r'.wrapped = false)) r w := by
  have hfits := hopen.fits
  have hlen : (blockStart i bs : Int) + blockLength i bs content.length - 1 < 2 ^ 63 := by
    unfold blockLength
    omega
  unfold fetchBlock
  rw [Code.wp_bind, Code.wp_get, Code.outcome_ok, Code.wp_bind, wp_offset (by omega) (by omega),
    Code.outcome_ok, Code.wp_bind, wp_offset (by omega) hlen, Code.outcome_ok, Code.wp_bind,
    wp_call, hr.1, hopen.id]
  refine Env.mono _ ?_ (wp_download hdepth _ _ w)
  intro a w' hresp
  cases a with
  | error e => exact ⟨trivial, rfl, hr⟩
  | ok resp =>
      have hresp := hresp resp rfl
      unfold MediaResponse at hresp
      rw [Code.outcome_ok, Code.wp_bind, Code.wp_when]
      refine ⟨?_, ?_⟩
      · intro hok
        rw [Bool.not_eq_true'] at hok
        rw [hok, if_neg Bool.false_ne_true] at hresp
        rw [Code.wp_bind, decide_eq_false hresp, Code.wp_when]
        exact ⟨nofun, fun _ => ⟨trivial, rfl, hr⟩⟩
      · intro hok
        rw [Bool.not_eq_false'] at hok
        rw [hok, if_pos rfl] at hresp
        rw [Code.outcome_ok]
        rcases hresp with ⟨hstatus, hbody⟩ | ⟨hstatus, hbody⟩
        · rw [if_neg (by simp [hstatus])]
          refine ⟨hbody.trans (List.take_prefix _ _), rfl, hr⟩
        · rw [hbody]
          by_cases hzero : 0 < blockStart i bs
          · rw [if_pos ⟨hstatus, hzero⟩]
            split
            · exact ⟨trivial, rfl, hr⟩
            · exact ⟨List.take_prefix _ _, rfl, hr⟩
          · rw [if_neg (by simp [hzero])]
            refine ⟨?_, rfl, hr⟩
            unfold FilledFrom
            rw [Nat.eq_zero_of_not_pos hzero, List.drop_zero]

/-- What one round copies out of its block is content from `pos` on. -/
theorem FilledFrom.slice {bs i pos take : Nat} {block : Str}
    (hblock : FilledFrom content bs i block) (hpos : blockStart i bs ≤ pos)
    (htake : take ≤ block.length - (pos - blockStart i bs)) :
    (block.drop (pos - blockStart i bs)).take take = GDrive.slice content pos take := by
  have hdrop : block.drop (pos - blockStart i bs) <+: content.drop pos := by
    have hbegins := hblock.drop (pos - blockStart i bs)
    rwa [List.drop_drop, Nat.add_sub_cancel' hpos] at hbegins
  obtain ⟨rest, hrest⟩ := hdrop
  unfold GDrive.slice
  rw [← hrest, List.take_append_of_le_length]
  rw [List.length_drop]
  exact htake

theorem wp_readBlock (hdepth : kMaxAttempts + 1 ≤ depth) (hopen : OpenOn fileId content h)
    {i : Nat} (hstart : blockStart i h.blockSize < 2 ^ 63) (hr : Reading content h r) :
    Code.wp (readEnv pj depth fileId content)
      (getBlock Reader.blocks Reader.setBlocks h.blockKey i h.blockSize content.length
        fetchBlock)
      (Code.outcome
        (fun data r' _ => FilledFrom content h.blockSize i data ∧ Reading content h r')
        (fun _ r' _ => Reading content h r')) r w := by
  refine Code.wp_mono (wp_getBlock Reader.blocks Reader.setBlocks (FilledFrom content)
    (fun _ => True) (fun r _ => r.handle = h ∧ r.notFound = false ∧ r.wrapped = false)
    (fun _ _ => rfl) (fun _ _ _ hI => hI) (fun s w hI => wp_fetchBlock hdepth hopen hstart hI)
    hr.blocks ⟨hr.handle, hr.notFound, hr.wrapped⟩) ?_
  intro out r' w' hout
  cases out with
  | ok data =>
      obtain ⟨hgood, hblocks, hhandle, hnotFound, hwrapped⟩ := hout
      exact ⟨hgood, ⟨hhandle, hblocks, hnotFound, hwrapped⟩⟩
  | error e =>
      obtain ⟨-, hblocks, hhandle, hnotFound, hwrapped⟩ := hout
      exact ⟨hhandle, hblocks, hnotFound, hwrapped⟩

/-- The block loop, by induction on its rounds: each begins where the one
before stopped. -/
theorem wp_readBlocks (hdepth : kMaxAttempts + 1 ≤ depth) (hopen : OpenOn fileId content h)
    (hsize : 0 < h.blockSize) :
    ∀ (rounds remaining pos : Nat) (r : Reader) (w : Unit), remaining ≤ rounds →
      pos + remaining < 2 ^ 63 → Reading content h r →
      Code.wp (readEnv pj depth fileId content) (readBlocks rounds remaining pos)
        (fun out r' _ => Delivers content h pos remaining out r') r w := by
  intro rounds
  induction rounds with
  | zero =>
      intro remaining pos r w hrounds _ hr
      obtain rfl : remaining = 0 := by omega
      refine ⟨hr, ?_⟩
      intro bytes hbytes
      cases hbytes
      exact ⟨List.take_zero.symm, rfl⟩
  | succ rounds ih =>
      intro remaining pos r w hrounds hpos hr
      cases remaining with
      | zero =>
          refine ⟨hr, ?_⟩
          intro bytes hbytes
          cases hbytes
          exact ⟨List.take_zero.symm, rfl⟩
      | succ remaining =>
          have hstart : blockStart (pos / h.blockSize) h.blockSize ≤ pos :=
            Nat.div_mul_le_self pos h.blockSize
          have hcast : castIndex h.file.size = content.length := by
            have hfits := hopen.fits
            rw [hopen.size, castIndex_of_nonneg (by omega) (by omega), Int.toNat_natCast]
          unfold readBlocks
          rw [Code.wp_bind, Code.wp_get, Code.outcome_ok, hr.handle]
          simp only
          rw [Code.wp_bind, wp_divideIndex hsize, Code.outcome_ok, Code.wp_bind,
            show ((pos / h.blockSize : Nat) : Int) * h.blockSize =
              (blockStart (pos / h.blockSize) h.blockSize : Nat) from rfl,
            wp_index (by omega), Code.outcome_ok, Code.wp_bind, hcast]
          refine Code.wp_mono (wp_readBlock hdepth hopen (by omega) hr) ?_
          intro out r' w' hout
          cases out with
          | error e => exact .error hout
          | ok block =>
              obtain ⟨hblock, hr'⟩ := hout
              rw [Code.outcome_ok, Code.wp_bind,
                show ((pos : Int) - (blockStart (pos / h.blockSize) h.blockSize : Nat)) =
                  (pos - blockStart (pos / h.blockSize) h.blockSize : Nat) by omega,
                wp_index (by omega), Code.outcome_ok]
              split
              · exact .error hr'
              · rename_i hwithin
                generalize htake : min (remaining + 1)
                  (block.length - (pos - blockStart (pos / h.blockSize) h.blockSize)) = take
                rw [Code.wp_bind, show ((remaining + 1 : Nat) : Int) - (take : Nat) =
                    (remaining + 1 - take : Nat) by omega,
                  wp_index (by omega), Code.outcome_ok, Code.wp_bind,
                  show (pos : Int) + (take : Nat) = (pos + take : Nat) by omega,
                  wp_index (by omega), Code.outcome_ok, Code.wp_bind]
                refine Code.wp_mono (ih _ _ _ _ (by omega) (by omega) hr') ?_
                intro out r'' w'' hrest
                cases out with
                | error e => exact .error hrest.1
                | ok rest =>
                    obtain ⟨hr'', hrest⟩ := hrest
                    obtain ⟨hbytes, hlength⟩ := hrest rest rfl
                    refine ⟨hr'', ?_⟩
                    intro bytes hout
                    cases hout
                    rw [hblock.slice hstart (by omega)]
                    have hsum : remaining + 1 = take + (remaining + 1 - take) := by omega
                    refine ⟨?_, ?_⟩
                    · rw [hbytes, ← slice_add, ← hsum]
                    · rw [List.length_append, hlength, ← hblock.slice hstart (by omega),
                        List.length_take, List.length_drop]
                      omega

/-- No block of the file is answered "not found", so there is nothing to
recover from. -/
theorem wp_readBlocksRecovering (hdepth : kMaxAttempts + 1 ≤ depth)
    (hopen : OpenOn fileId content h) (hsize : 0 < h.blockSize) {n location : Nat}
    (hend : location + n < 2 ^ 63) (hr : Reading content h r) :
    Code.wp (readEnv pj depth fileId content)
      (readBlocksRecovering pj rounds thread n location)
      (fun out r' _ => Delivers content h location n out r') r w := by
  have hcast : castIndex n = n := by
    rw [castIndex_of_nonneg (by omega) (by omega), Int.toNat_natCast]
  unfold readBlocksRecovering readViaBlockCache
  rw [Code.wp_bind, Code.wp_modify, Code.outcome_ok, Code.wp_tryCatch, hcast]
  have hr' : Reading content h { r with notFound := false } :=
    ⟨hr.handle, hr.blocks, rfl, hr.wrapped⟩
  refine Code.wp_mono (wp_readBlocks hdepth hopen hsize _ _ _ _ w le_rfl hend hr') ?_
  intro out r' w' hout
  cases out with
  | ok bytes => exact hout
  | error e =>
      rw [Code.outcome_error, Code.wp_bind, Code.wp_get, Code.outcome_ok, Code.wp_bind,
        hout.1.notFound]
      exact .error hout.1

-- ============================================================= one exact range

theorem delivers_readExactRangeTail {path : Str} {n location : Nat} {last : Int}
    {resp : DriveResponse} (hn : 0 < n) (hend : location + n < 2 ^ 63)
    (hlast : last = location + n - 1) (hok : resp.ok = true)
    (hresp : MediaResponse content location last resp) (hr : Reading content h r) :
    Delivers content h location n (readExactRangeTail path n location resp) r := by
  have hcast : castIndex n = n := by
    rw [castIndex_of_nonneg (by omega) (by omega), Int.toNat_natCast]
  have hrange : (last + 1 - location).toNat = n := by omega
  unfold MediaResponse at hresp
  rw [if_pos hok, hrange, Int.toNat_natCast] at hresp
  unfold readExactRangeTail
  rw [hcast]
  split
  · exact .error hr
  · rename_i hshort
    simp only
    -- Whatever the status, the source is content from `location` on.
    have hsrc : (if resp.httpStatus = 200 ∧ 0 < location then resp.body.drop location
        else resp.body) <+: content.drop location := by
      rcases hresp with ⟨hstatus, hbody⟩ | ⟨hstatus, hbody⟩
      · rw [if_neg (by simp [hstatus])]
        exact hbody.trans (List.take_prefix _ _)
      · rw [hbody]
        by_cases hzero : 0 < location
        · rw [if_pos ⟨hstatus, hzero⟩]
        · rw [if_neg (by simp [hzero]), Nat.eq_zero_of_not_pos hzero, List.drop_zero]
    generalize (if resp.httpStatus = 200 ∧ 0 < location then resp.body.drop location
      else resp.body) = src at hsrc
    split
    · exact .error hr
    · rename_i hlength
      refine ⟨hr, ?_⟩
      intro bytes hbytes
      cases hbytes
      obtain ⟨rest, hrest⟩ := hsrc
      refine ⟨?_, ?_⟩
      · unfold slice
        rw [← hrest, List.take_append_of_le_length (by omega)]
      · rw [List.length_take]
        omega

theorem wp_readExactRange (hdepth : kMaxAttempts + 1 ≤ depth) (hopen : OpenOn fileId content h)
    {n location : Nat} (hn : 0 < n) (hend : location + n < 2 ^ 63) (hr : Reading content h r) :
    Code.wp (readEnv pj depth fileId content) (readExactRange pj rounds thread n location)
      (fun out r' _ => Delivers content h location n out r') r w := by
  unfold readExactRange
  rw [Code.wp_bind, Code.wp_get, Code.outcome_ok, Code.wp_bind,
    wp_offset (by omega) (by omega), Code.outcome_ok, Code.wp_bind, wp_call, hr.handle, hopen.id]
  refine Env.mono _ ?_ (wp_download hdepth _ _ w)
  intro a w' hresp
  cases a with
  | error e => exact .error hr
  | ok resp =>
      have hresp := hresp resp rfl
      have hfound : ¬((!resp.ok) = true ∧ resp.error.kind = .notFound) := by
        intro ⟨hok, hkind⟩
        rw [Bool.not_eq_true'] at hok
        unfold MediaResponse at hresp
        rw [hok, if_neg Bool.false_ne_true] at hresp
        exact hresp hkind
      rw [Code.outcome_ok, Code.wp_bind, decide_eq_false hfound]
      unfold recoverIf finishExactRange
      rw [if_neg Bool.false_ne_true, Code.wp_pure, Code.outcome_ok, if_neg Bool.false_ne_true,
        Code.wp_bind, Code.wp_when]
      refine ⟨fun _ => .error hr, ?_⟩
      intro hok
      rw [Bool.not_eq_false'] at hok
      exact delivers_readExactRangeTail hn hend rfl hok hresp hr

-- ================================================================= the reads

theorem delivers_readExport {n location : Nat} (hn : n < 2 ^ 63)
    (hbuffer : h.exportBuffer = content) (hr : Reading content h r) :
    Delivers content h location n (readExport h n location) r := by
  have hcast : castIndex n = n := by
    rw [castIndex_of_nonneg (by omega) (by omega), Int.toNat_natCast]
  unfold readExport
  rw [hcast, hbuffer]
  simp only
  split
  · exact .error hr
  · rename_i hshort
    have hmin : min n (content.length - location) = n := by omega
    refine ⟨hr, ?_⟩
    intro bytes hbytes
    cases hbytes
    rw [hmin]
    refine ⟨rfl, ?_⟩
    rw [List.length_take, List.length_drop]
    omega

/-- A positional read, on any of its paths. -/
theorem wp_readAt (hdepth : kMaxAttempts + 1 ≤ depth) (hopen : OpenOn fileId content h)
    {n : Nat} (hn : n < 2 ^ 63) (location : Nat) (hr : Reading content h r) :
    Code.wp (readEnv pj depth fileId content) (readAt pj rounds thread n location)
      (fun out r' _ => Delivers content h location n out r') r w := by
  unfold readAt
  rw [Code.wp_bind, Code.wp_get, Code.outcome_ok, hr.handle]
  simp only
  split
  · rename_i hzero
    obtain rfl : n = 0 := by omega
    refine ⟨hr, ?_⟩
    intro bytes hbytes
    cases hbytes
    exact ⟨List.take_zero.symm, rfl⟩
  · split
    · rename_i hexport
      exact delivers_readExport hn (hopen.exported hexport) hr
    · split
      · exact .error hr
      · rename_i hguard
        unfold kMaxOffset at hguard
        split
        · rename_i hblock
          exact wp_readBlocksRecovering hdepth hopen hblock.1 (by omega) hr
        · exact wp_readExactRange hdepth hopen (by omega) (by omega) hr

-- ======================================================== runs of reads and seeks

/-- What callers do with a handle open for reading. -/
inductive ReadOp
  | readAt (nrBytes : Int) (location : Nat)
  | read (nrBytes : Int)
  | seek (location : Nat)

/-- The numbers of bytes callers ask for. -/
def ReadOp.Sensible : ReadOp → Prop
  | .readAt n _ | .read n => 0 ≤ n ∧ n < 2 ^ 63
  | .seek _ => True

variable (pj depth rounds thread) in
/-- An operation on a handle, down to the requests on the wire. -/
def readOp (op : ReadOp) : Code Wire Exn Reader Str :=
  Code.handle (client pj depth)
    (match op with
    | .readAt n location => readAt pj rounds thread n location
    | .read n => readNext pj rounds thread n
    | .seek location => do
        seek location
        pure [])

/-- The file as a reader with a cursor: what an operation returns, and where
the cursor is then. -/
def ReadOp.expected (content : Str) : ReadOp → Nat → Str × Nat
  | .readAt n location, position => (slice content location n.toNat, position)
  | .read n, position =>
      let length := min n.toNat (content.length - position)
      (slice content position length, position + length)
  | .seek location, _ => ([], location)

/-- A run of operations from a cursor. -/
def expectedRun (content : Str) : List ReadOp → Nat → List Str × Nat
  | [], position => ([], position)
  | op :: ops, position =>
      let first := op.expected content position
      let rest := expectedRun content ops first.2
      (first.1 :: rest.1, rest.2)

theorem expectedRun_concat (ops : List ReadOp) (op : ReadOp) (position : Nat) :
    expectedRun content (ops ++ [op]) position =
      ((expectedRun content ops position).1 ++
          [(op.expected content (expectedRun content ops position).2).1],
        (op.expected content (expectedRun content ops position).2).2) := by
  induction ops generalizing position with
  | nil => rfl
  | cons first ops ih =>
      rw [List.cons_append, expectedRun, ih]
      rfl

theorem OpenOn.moved {position : Nat} (hopen : OpenOn fileId content h) :
    OpenOn fileId content { h with position } :=
  ⟨hopen.id, hopen.size, hopen.fits, hopen.exported⟩

/-- The sequential read takes what is left, up to the number asked for, and
moves the cursor by exactly that. -/
theorem wp_readNext (hdepth : kMaxAttempts + 1 ≤ depth) (hopen : OpenOn fileId content h)
    {n : Nat} (hn : n < 2 ^ 63) (hr : Reading content h r) :
    Code.wp (readEnv pj depth fileId content) (readNext pj rounds thread n)
      (fun out r' _ => ∃ position, Reading content { h with position } r' ∧
        (∀ bytes, out = .ok bytes →
          (bytes, position) = (ReadOp.read n).expected content h.position) ∧
        ∀ e, out = .error e → position = h.position) r w := by
  have hfits := hopen.fits
  have hsize : castIndex h.file.size = content.length := by
    rw [hopen.size, castIndex_of_nonneg (by omega) (by omega), Int.toNat_natCast]
  have hcast : castIndex n = n := by
    rw [castIndex_of_nonneg (by omega) (by omega), Int.toNat_natCast]
  unfold readNext
  rw [Code.wp_bind, Code.wp_get, Code.outcome_ok, hr.handle]
  simp only [hsize, hcast]
  have hexpected : (ReadOp.read n).expected content h.position =
      (slice content h.position (min (content.length - h.position) n),
        h.position + min (content.length - h.position) n) := by
    show (slice content h.position (min (n : Int).toNat _), h.position + _) = _
    rw [Int.toNat_natCast, Nat.min_comm]
  rw [hexpected]
  generalize hread : min (content.length - h.position) n = toRead
  split
  · rename_i hzero
    refine ⟨h.position, hr, ?_, nofun⟩
    intro bytes hbytes
    cases hbytes
    rw [hzero]
    rfl
  · have hoffset : castOffset toRead = toRead := by
      unfold castOffset
      exact Int.bmod_eq_of_le (by omega) (by omega)
    rw [Code.wp_bind, hoffset]
    refine Code.wp_mono (wp_readAt hdepth hopen (by omega) h.position hr) ?_
    intro out r' w' hout
    cases out with
    | error e => exact ⟨h.position, hout.1, nofun, fun _ _ => rfl⟩
    | ok bytes =>
        have hbytes := (hout.2 bytes rfl).1
        have hr' := hout.1
        rw [Code.outcome_ok, Code.wp_bind,
          show (h.position : Int) + (toRead : Nat) = (h.position + toRead : Nat) by omega,
          wp_index (by omega), Code.outcome_ok, Code.wp_bind, Code.wp_modify, Code.outcome_ok]
        refine ⟨h.position + toRead, ⟨?_, hr'.blocks, hr'.notFound, hr'.wrapped⟩, ?_, nofun⟩
        · show { r'.handle with position := h.position + toRead } = _
          rw [hr'.handle]
        · intro bytes' hout'
          cases hout'
          rw [hbytes]

/-- Every operation returns what the file with a cursor returns, or throws
and leaves the cursor. -/
theorem wp_readOp (hdepth : kMaxAttempts + 1 ≤ depth) (hopen : OpenOn fileId content h)
    {op : ReadOp} (hop : op.Sensible) (hr : Reading content h r) :
    Code.wp (.total (contentRel pj fileId content) fun _ => True)
      (readOp pj depth rounds thread op)
      (fun out r' _ => ∃ position, Reading content { h with position } r' ∧
        (∀ bytes, out = .ok bytes → (bytes, position) = op.expected content h.position) ∧
        ∀ e, out = .error e → position = h.position) r w := by
  unfold readOp
  rw [Code.wp_handle]
  cases op with
  | readAt n location =>
      obtain ⟨n, rfl⟩ := Int.eq_ofNat_of_zero_le hop.1
      refine Code.wp_mono (wp_readAt hdepth hopen (by have := hop.2; omega) location hr) ?_
      intro out r' w' hout
      refine ⟨h.position, hout.1, ?_, fun _ _ => rfl⟩
      intro bytes hbytes
      rw [(hout.2 bytes hbytes).1]
      rfl
  | read n =>
      obtain ⟨n, rfl⟩ := Int.eq_ofNat_of_zero_le hop.1
      exact wp_readNext hdepth hopen (by have := hop.2; omega) hr
  | seek location =>
      refine ⟨location, ⟨?_, hr.blocks, hr.notFound, hr.wrapped⟩, ?_, nofun⟩
      · show { r.handle with position := location } = _
        rw [hr.handle]
      · intro bytes hbytes
        cases hbytes
        rfl

/-- A completed operation, from a reader of the file. -/
theorem Reading.completed (hdepth : kMaxAttempts + 1 ≤ depth) (hopen : OpenOn fileId content h)
    {op : ReadOp} (hop : op.Sensible) (hr : Reading content h r) {out : Except Exn Str}
    {r' : Reader} {w' : Unit}
    (hrun : Reaches (contentRel pj fileId content) (readOp pj depth rounds thread op r) w
      (.ret (out, r')) w') :
    ∃ position, Reading content { h with position } r' ∧
      (∀ bytes, out = .ok bytes → (bytes, position) = op.expected content h.position) ∧
      ∀ e, out = .error e → position = h.position :=
  Code.wp_returns (Code.wp_of_total (wp_readOp hdepth hopen hop hr)) hrun

/-- A run in which nothing throws returns what the file with a cursor
returns. -/
theorem Reading.run (hdepth : kMaxAttempts + 1 ≤ depth) (hopen : OpenOn fileId content h)
    (hr : Reading content h r) {l : List (ReadOp × Except Exn Str)} {r' : Reader} {w' : Unit}
    (hrun : History (contentRel pj fileId content) (readOp pj depth rounds thread) r w l r' w')
    (hops : ∀ x ∈ l, x.1.Sensible) (hok : ∀ x ∈ l, ∃ bytes, x.2 = .ok bytes) :
    Reading content
        { h with position := (expectedRun content (l.map (·.1)) h.position).2 } r' ∧
      l.map (·.2) = (expectedRun content (l.map (·.1)) h.position).1.map .ok := by
  induction hrun with
  | nil => exact ⟨hr, rfl⟩
  | @snoc l r₁ r₂ w₁ w₂ op out _ hlast ih =>
      obtain ⟨hr₁, hl⟩ := ih (fun x hx => hops x (List.mem_append_left _ hx))
        (fun x hx => hok x (List.mem_append_left _ hx))
      obtain ⟨position, hr₂, hexpected, -⟩ := hr₁.completed hdepth hopen.moved
        (hops (op, out) (by simp)) hlast
      obtain ⟨bytes, hbytes⟩ := hok (op, out) (by simp)
      have hnext := hexpected bytes hbytes
      rw [List.map_append, List.map_append, List.map_singleton, List.map_singleton,
        expectedRun_concat, ← hnext, hl, hbytes, List.map_append]
      exact ⟨hr₂, rfl⟩

-- ============================================================= what reads return

/-- Reads return the content. A positional read returns, and returns all the
bytes asked for or throws; it leaves the cursor, and no index wraps. A read
by blocks and a read of the exact range that both return agree. A run in
which nothing throws returns consecutive slices, each from where the cursor
stood, and the cursor moves by what was returned. -/
theorem read_content (hdepth : kMaxAttempts + 1 ≤ depth) (hopen : OpenOn fileId content h) :
    (∀ r n location, Reading content h r → (ReadOp.readAt n location).Sensible →
      (∀ w, ¬Reaches (contentRel pj fileId content)
        (readOp pj depth rounds thread (.readAt n location) r) () .cut w) ∧
      ∀ out r' w, Reaches (contentRel pj fileId content)
          (readOp pj depth rounds thread (.readAt n location) r) () (.ret (out, r')) w →
        r'.handle = h ∧ r'.wrapped = false ∧
          ∀ bytes, out = .ok bytes →
            bytes = slice content location n.toNat ∧ bytes.length = n.toNat) ∧
      (∀ h₂ r r₂ n location bytes bytes₂ r' r₂' w w₂,
        0 < h.blockSize → h₂.blockSize = 0 → OpenOn fileId content h₂ →
        Reading content h r → Reading content h₂ r₂ → (ReadOp.readAt n location).Sensible →
        Reaches (contentRel pj fileId content)
          (readOp pj depth rounds thread (.readAt n location) r) () (.ret (.ok bytes, r')) w →
        Reaches (contentRel pj fileId content)
          (readOp pj depth rounds thread (.readAt n location) r₂) () (.ret (.ok bytes₂, r₂')) w₂ →
        bytes = bytes₂) ∧
      ∀ r l r' w, Reading content h r →
        History (contentRel pj fileId content) (readOp pj depth rounds thread) r () l r' w →
        (∀ x ∈ l, x.1.Sensible) → (∀ x ∈ l, ∃ bytes, x.2 = .ok bytes) →
        l.map (·.2) = (expectedRun content (l.map (·.1)) h.position).1.map .ok ∧
          r'.handle.position = (expectedRun content (l.map (·.1)) h.position).2 ∧
          r'.wrapped = false := by
  have hread : ∀ {h : ReadHandle} (r : Reader) (n : Nat) (location : Nat),
      OpenOn fileId content h → Reading content h r → n < 2 ^ 63 →
      Code.wp (.total (contentRel pj fileId content) fun _ => True)
        (readOp pj depth rounds thread (.readAt n location))
        (fun out r' _ => Delivers content h location n out r') r () := by
    intro h r n location hopen hr hn
    unfold readOp
    rw [Code.wp_handle]
    exact wp_readAt hdepth hopen hn location hr
  refine ⟨?_, ?_, ?_⟩
  · intro r n location hr hn
    obtain ⟨n, rfl⟩ := Int.eq_ofNat_of_zero_le hn.1
    have hwp := hread r n location hopen hr (by have := hn.2; omega)
    refine ⟨fun w => Env.total_uncut hwp, ?_⟩
    intro out r' w hrun
    obtain ⟨hr', hbytes⟩ := Code.wp_returns (Code.wp_of_total hwp) hrun
    exact ⟨hr'.handle, hr'.wrapped, hbytes⟩
  · intro h₂ r r₂ n location bytes bytes₂ r' r₂' w w₂ _ _ hopen₂ hr hr₂ hn hrun hrun₂
    obtain ⟨n, rfl⟩ := Int.eq_ofNat_of_zero_le hn.1
    have hn' : n < 2 ^ 63 := by
      have := hn.2
      omega
    have hout := Code.wp_returns (Code.wp_of_total (hread r n location hopen hr hn')) hrun
    have hout₂ := Code.wp_returns (Code.wp_of_total (hread r₂ n location hopen₂ hr₂ hn')) hrun₂
    rw [(hout.2 bytes rfl).1, (hout₂.2 bytes₂ rfl).1]
  · intro r l r' w hr hrun hops hok
    obtain ⟨hr', hl⟩ := hr.run hdepth hopen hrun hops hok
    refine ⟨hl, ?_, hr'.wrapped⟩
    rw [hr'.handle]

end Content

-- ================================================================ three bytes

/-- A Drive that answers every media request in full. -/
def answering (content : Str) : Unit → (q : WireReq) → Wire.Ans q × Unit
  | _, .token => (.ok [1], ())
  | _, .refresh _ => (.ok [], ())
  | _, .http _ (.filesMedia _ first last) =>
      ({ transportOk := true, status := 206,
         body := slice content first.toNat (last + 1 - first).toNat }, ())
  | _, .http _ _ => ({}, ())
  | _, .session _ _ _ => ({}, ())
  | _, .cancelSession _ => ((), ())
  | _, .sleep _ _ => ((), ())

theorem answering_contentRel (pj : Picojson) (fileId content : Str) (w : Unit) (q : WireReq) :
    contentRel pj fileId content w q (answering content w q).1 (answering content w q).2 := by
  cases q with
  | http accessToken op =>
      cases op with
      | filesMedia id first last => exact fun _ => .inl ⟨⟨rfl, rfl⟩, List.prefix_refl _⟩
      | _ => trivial
  | _ => trivial

/-- A file of three bytes, read by blocks of two. -/
def threeBytes : Reader where
  fs := { blocks := { capacityBytes := 100 } }
  handle :=
    { path := str "gdrive://f"
      file := { id := str "f", size := 3 }
      auth := { identity := str "me" }
      blockSize := 2
      blockKey := str "k" }

/-- What a completed run returned. -/
def returned (p : Prog Wire (Except Exn Str × Reader)) : Option Str :=
  match p with
  | .ret (.ok bytes, _) => some bytes
  | _ => none

theorem eq_ret_of_returned {p : Prog Wire (Except Exn Str × Reader)} {bytes : Str}
    (h : returned p = some bytes) : ∃ r, p = .ret (.ok bytes, r) := by
  unfold returned at h
  split at h
  · rename_i r
    cases h
    exact ⟨r, rfl⟩
  · cases h

/-- Two bytes across the border of the two blocks. -/
theorem read_content_threeBytes :
    ∃ r', Reaches (contentRel noJson (str "f") [1, 2, 3])
        (readOp noJson 6 0 0 (.readAt 2 1) threeBytes) () (.ret (.ok [2, 3], r')) () ∧
      r'.handle = threeBytes.handle ∧ r'.wrapped = false := by
  have hopen : OpenOn (str "f") [1, 2, 3] threeBytes.handle :=
    ⟨rfl, rfl, by decide, nofun⟩
  have hreading : Reading [1, 2, 3] threeBytes.handle threeBytes := by
    refine ⟨rfl, ?_, rfl, rfl⟩
    intro bs i e _ he
    cases he
  have hrun := Prog.play_reaches (answering_contentRel noJson (str "f") [1, 2, 3])
    (readOp noJson 6 0 0 (.readAt 2 1) threeBytes) ()
  have hreturned : returned (Prog.play (answering [1, 2, 3])
      (readOp noJson 6 0 0 (.readAt 2 1) threeBytes) ()).1 = some [2, 3] := by
    decide +kernel
  obtain ⟨r', hr'⟩ := eq_ret_of_returned hreturned
  rw [hr'] at hrun
  have hdepth : kMaxAttempts + 1 ≤ 6 := by decide
  have hread := ((read_content hdepth hopen).1 threeBytes 2 1 hreading
    ⟨by decide, by decide⟩).2 _ _ _ hrun
  exact ⟨r', hrun, hread.1, hread.2.1⟩

end GDrive
