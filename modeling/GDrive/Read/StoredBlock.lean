/-
What `GetBlock` stores of a file: the bytes that `ReadViaBlockCache`'s fetch
brings for a block.

The contract is that these are exactly the bytes of the block. A 206 has
them; out of a 200, which is the whole file, the fetch cuts them, unless the
block is the first one: then the reply is stored as it came
(`stored_block_iff`).
-/
import GDrive.Read.Content

namespace GDrive

open Interaction

variable {content fileId : Str} {h : ReadHandle} {i : Nat} {r : Reader} {resp : DriveResponse}

/-- The bytes of a block: as many as the block size, and no more than there
are. -/
def blockBytes (content : Str) (bs i : Nat) : Str := slice content (blockStart i bs) bs

/-- A successful reply to a media request: a 206 with the whole of what was
asked for, or a 200 with everything. -/
def WholeReply (content : Str) (start len : Nat) (resp : DriveResponse) : Prop :=
  resp.ok = true ∧
    ((resp.httpStatus = 206 ∧ resp.body = slice content start len) ∨
      (resp.httpStatus = 200 ∧ resp.body = content))

/-- The call of `GetBlock` for a block of the handle's file. -/
def blockCall (fileSize : Nat) (h : ReadHandle) (i : Nat) : ReadCode Str :=
  getBlock Reader.blocks Reader.setBlocks h.blockKey i h.blockSize fileSize fetchBlock

/-- The cache after a fetch that brought `data`: that is what is accounted,
and what the entry's future holds. -/
def storing (fullKey data : Str) (c : BlockCache) : BlockCache :=
  ((c.acquire fullKey).2.finish fullKey (c.nextGeneration + 1) data).deliver fullKey
    (c.nextGeneration + 1) data

/-- A run that returned `block`, and left it stored and accounted. -/
def StoresBlock (fullKey block : Str) (c : BlockCache)
    (run : Prog Client (Except Exn Str × Reader)) : Prop :=
  ∃ r', run = .ret (.ok block, r') ∧ r'.blocks = storing fullKey block c

/-- What the entry of a block that was stored says, if it was not evicted at
once. -/
theorem storing_entry {fullKey data : Str} {c : BlockCache} {e : BlockEntry}
    (hmiss : c.blocks.lookup fullKey = none)
    (he : (storing fullKey data c).blocks.lookup fullKey = some e) :
    e.value = some data ∧ e.bytes = data.length := by
  have hacquired : (c.acquire fullKey).2.blocks.lookup fullKey =
      some { usedAt := c.clock + 1, generation := c.nextGeneration + 1 } := by
    unfold BlockCache.acquire
    rw [hmiss]
    exact AList.lookup_insert _
  have hfinished : ∀ e', ((c.acquire fullKey).2.finish fullKey (c.nextGeneration + 1)
      data).blocks.lookup fullKey = some e' →
        e'.bytes = data.length ∧ e'.generation = c.nextGeneration + 1 := by
    intro e' he'
    have hentry := BlockCache.lookup_evict he'
    simp only [hacquired, if_pos, AList.lookup_insert, Option.some.injEq] at hentry
    rw [← hentry]
    exact ⟨rfl, rfl⟩
  unfold storing BlockCache.deliver at he
  split at he
  · rename_i e' he'
    obtain ⟨hbytes, hgeneration⟩ := hfinished e' he'
    simp only [hgeneration, if_pos, AList.lookup_insert, Option.some.injEq] at he
    rw [← he]
    exact ⟨rfl, hbytes⟩
  · rename_i hnone
    rw [hnone] at he
    cases he

/-- What the fetch makes of a reply. -/
def fetched (start len : Nat) (resp : DriveResponse) : Str :=
  if resp.httpStatus = 200 ∧ 0 < start then (resp.body.drop start).take len else resp.body

theorem blockLength_fits (hi : blockStart i h.blockSize < content.length) :
    blockStart i h.blockSize + blockLength i h.blockSize content.length ≤ content.length := by
  unfold blockLength
  omega

/-- The fetch, of a range that fits and begins within the file. -/
theorem wp_fetchWhole {W : Type} {f : W → (q : CallReq) → Except Exn DriveResponse × W} {w : W}
    {start len : Nat} (hr : r.handle.file.id = fileId) (hstart : start < content.length)
    (hlast : start + len < 2 ^ 63)
    (hreply : (f w (.download fileId start (start + len - 1))).1 = .ok resp)
    (hwhole : WholeReply content start len resp) (Q : Except Exn Str → Reader → W → Prop)
    (hQ : ∀ w', Q (.ok (fetched start len resp)) r w') :
    Code.wp (.playing f) (fetchBlock start len) Q r w := by
  obtain ⟨hok, hreply'⟩ := hwhole
  unfold fetchBlock
  rw [Code.wp_bind, Code.wp_get, Code.outcome_ok, Code.wp_bind, wp_offset (by omega) (by omega),
    Code.outcome_ok, Code.wp_bind, wp_offset (by omega) (by omega), Code.outcome_ok, Code.wp_bind,
    wp_call, hr]
  show Code.outcome _ _ (f w (.download fileId start (start + len - 1))).1 r _
  rw [hreply, Code.outcome_ok, Code.wp_bind, hok, Code.wp_when]
  refine ⟨nofun, ?_⟩
  intro _
  rw [Code.outcome_ok]
  unfold fetched at hQ
  split
  · rename_i hignored
    rw [if_pos hignored] at hQ
    rcases hreply' with ⟨hstatus, -⟩ | ⟨-, hbody⟩
    · exact absurd (hstatus.symm.trans hignored.1) (by decide)
    · rw [if_neg (by rw [hbody]; omega)]
      exact hQ _
  · rename_i hserved
    rw [if_neg hserved] at hQ
    exact hQ _

/-- A missing block is fetched, and stored as it was fetched. -/
theorem play_blockCall {W : Type} {f : W → (q : CallReq) → Except Exn DriveResponse × W} {w : W}
    (hopen : OpenOn fileId content h) (hi : blockStart i h.blockSize < content.length)
    (hr : r.handle = h)
    (hmiss : r.blocks.blocks.lookup (fullBlockKey h.blockKey h.blockSize i) = none)
    (hreply : (f w (.download fileId (blockStart i h.blockSize)
      (blockStart i h.blockSize + blockLength i h.blockSize content.length - 1))).1 = .ok resp)
    (hwhole : WholeReply content (blockStart i h.blockSize)
      (blockLength i h.blockSize content.length) resp) :
    ∃ r', ((blockCall content.length h i r).play f w).1 =
        .ret (.ok (fetched (blockStart i h.blockSize)
          (blockLength i h.blockSize content.length) resp), r') ∧
      r'.blocks = storing (fullBlockKey h.blockKey h.blockSize i)
        (fetched (blockStart i h.blockSize) (blockLength i h.blockSize content.length) resp)
        r.blocks := by
  have hlast := blockLength_fits hi
  have hfits := hopen.fits
  have hrun : Code.wp (.playing f) (blockCall content.length h i)
      (fun out r' _ =>
        out = .ok (fetched (blockStart i h.blockSize)
          (blockLength i h.blockSize content.length) resp) ∧
        r'.blocks = storing (fullBlockKey h.blockKey h.blockSize i)
          (fetched (blockStart i h.blockSize) (blockLength i h.blockSize content.length) resp)
          r.blocks) r w := by
    have hmissed : (r.blocks.acquire (fullBlockKey h.blockKey h.blockSize i)).1 =
        .fetch (r.blocks.nextGeneration + 1) := by
      unfold BlockCache.acquire
      rw [hmiss]
    unfold blockCall getBlock
    rw [Code.wp_bind, Code.wp_get, Code.outcome_ok, Code.wp_bind, Code.wp_modify, Code.outcome_ok,
      hmissed]
    simp only
    rw [Code.wp_bind, Code.wp_onError]
    refine wp_fetchWhole (r := r.setBlocks _) (by rw [← hopen.id, ← hr]; rfl) hi (by omega)
      hreply hwhole _ ?_
    intro w'
    exact ⟨rfl, rfl⟩
  obtain ⟨⟨out, r'⟩, hret, hout, hblocks⟩ := Env.wp_playing hrun
  refine ⟨r', ?_, hblocks⟩
  rw [hret]
  exact congrArg (fun out => Prog.ret (out, r')) hout

theorem slice_blockLength (bs : Nat) :
    slice content (blockStart i bs) (blockLength i bs content.length) = blockBytes content bs i := by
  unfold slice blockBytes blockLength slice
  rw [← List.length_drop, List.take_eq_take_min (i := bs)]

/-- The fetch brings exactly the block, unless the reply is a whole file that
is longer than its first block. -/
theorem fetched_eq_iff {bs : Nat} (hsize : 0 < bs)
    (hwhole : WholeReply content (blockStart i bs) (blockLength i bs content.length) resp) :
    fetched (blockStart i bs) (blockLength i bs content.length) resp = blockBytes content bs i ↔
      ¬(resp.httpStatus = 200 ∧ i = 0 ∧ bs < content.length) := by
  have hstart : 0 < blockStart i bs ↔ i ≠ 0 := by
    unfold blockStart
    rw [Nat.mul_pos_iff_of_pos_right hsize, Nat.pos_iff_ne_zero]
  rw [← slice_blockLength]
  unfold fetched
  rcases hwhole.2 with ⟨hstatus, hbody⟩ | ⟨hstatus, hbody⟩
  · rw [if_neg (by simp [hstatus]), hbody]
    simp [hstatus]
  · rw [hbody]
    by_cases hzero : i = 0
    · rw [if_neg fun hcut => hstart.mp hcut.2 hzero]
      subst hzero
      have hwholeFile : slice content (blockStart 0 bs) (blockLength 0 bs content.length) =
          content.take bs := by
        rw [slice_blockLength]
        unfold blockBytes slice blockStart
        rw [Nat.zero_mul, List.drop_zero]
      rw [hwholeFile, eq_comm, List.take_eq_self_iff]
      simp [hstatus]
    · rw [if_pos ⟨hstatus, hstart.mpr hzero⟩]
      simp [hzero, slice]

/-- A stored block holds exactly its block just if the reply is not a 200 for
the first block of a longer file, which is stored whole. -/
theorem stored_block_iff {W : Type} {f : W → (q : CallReq) → Except Exn DriveResponse × W} {w : W}
    (hopen : OpenOn fileId content h) (hsize : 0 < h.blockSize)
    (hi : blockStart i h.blockSize < content.length) (hr : r.handle = h)
    (hmiss : r.blocks.blocks.lookup (fullBlockKey h.blockKey h.blockSize i) = none)
    (hreply : (f w (.download fileId (blockStart i h.blockSize)
      (blockStart i h.blockSize + blockLength i h.blockSize content.length - 1))).1 = .ok resp)
    (hwhole : WholeReply content (blockStart i h.blockSize)
      (blockLength i h.blockSize content.length) resp) :
    StoresBlock (fullBlockKey h.blockKey h.blockSize i) (blockBytes content h.blockSize i) r.blocks
        ((blockCall content.length h i r).play f w).1 ↔
      ¬(resp.httpStatus = 200 ∧ i = 0 ∧ h.blockSize < content.length) := by
  obtain ⟨r', hret, hblocks⟩ := play_blockCall hopen hi hr hmiss hreply hwhole
  rw [← fetched_eq_iff hsize hwhole, hret]
  constructor
  · rintro ⟨r'', heq, -⟩
    injection heq with heq
    injection heq with heq _
    injection heq
  · intro heq
    rw [heq] at hblocks ⊢
    exact ⟨r', rfl, hblocks⟩

/-- A file of eight bytes, read in blocks of four. -/
def eightBytes : ReadHandle where
  path := str "gdrive://f"
  file := { id := str "f", size := 8 }
  auth := ⟨str "me", [], []⟩
  blockSize := 4
  blockKey := str "k"

/-- A reader of it, with nothing cached yet. -/
def eightBytesReader : Reader where
  fs := { blocks := { capacityBytes := 100 } }
  handle := eightBytes

/-- The whole file, whatever was asked for. -/
def wholeFile : DriveResponse := { ok := true, httpStatus := 200, body := str "abcdefgh" }

/-- A Drive that ignores ranges. -/
def wholeServer (_ : Unit) (_ : CallReq) : Except Exn DriveResponse × Unit := (.ok wholeFile, ())

theorem eightBytes_open : OpenOn (str "f") (str "abcdefgh") eightBytes :=
  ⟨rfl, by decide, by decide, nofun⟩

/-- The second block is cut out of the whole file. -/
theorem stored_block_iff_case :
    StoresBlock (fullBlockKey eightBytes.blockKey eightBytes.blockSize 1)
        (blockBytes (str "abcdefgh") eightBytes.blockSize 1) eightBytesReader.blocks
        ((blockCall (str "abcdefgh").length eightBytes 1 eightBytesReader).play wholeServer ()).1 ↔
      ¬(wholeFile.httpStatus = 200 ∧ 1 = 0 ∧ eightBytes.blockSize < (str "abcdefgh").length) :=
  stored_block_iff (i := 1) (r := eightBytesReader) (f := wholeServer) eightBytes_open (by decide)
    (by decide) rfl (by decide) rfl ⟨rfl, .inr ⟨rfl, rfl⟩⟩

/-- Of the first block, the whole file is stored: eight bytes in place of
four. -/
theorem stored_first_block_whole :
    (∃ r' e, ((blockCall 8 eightBytes 0 eightBytesReader).play wholeServer ()).1 =
        .ret (.ok (str "abcdefgh"), r') ∧
      r'.blocks.blocks.lookup (fullBlockKey (str "k") 4 0) = some e ∧
      e.value = some (str "abcdefgh") ∧ e.bytes = 8) ∧
    blockBytes (str "abcdefgh") 4 0 = str "abcd" ∧
    ¬StoresBlock (fullBlockKey (str "k") 4 0) (blockBytes (str "abcdefgh") 4 0)
        eightBytesReader.blocks
        ((blockCall 8 eightBytes 0 eightBytesReader).play wholeServer ()).1 := by
  refine ⟨⟨_, _, rfl, rfl, rfl, rfl⟩, by decide, ?_⟩
  rintro ⟨r', heq, -⟩
  injection heq with heq
  injection heq with heq _
  injection heq with heq
  exact absurd heq (by decide)

end GDrive
