import QuantyDb.WalProofs

/-! # Where a log reads as its replay

    A database with its log should read as the main file with the committed
    prefix of the log laid over it, and it does for every log that has fewer
    than 2 ^ 32 frames.  The reader counts frames in 32 bits and looks at no
    more than that many, without an error: of a longer log it serves what its
    first frames say (`readsAsReplayed_iff`).  A log that commits a new version
    of a page in a frame past those is one where that is an older database
    (`longLog_not_replayed`). -/

namespace QuantySqlite

open QuantyPage BigEndian Outcome List WalSource LogHeader

/-! ## The replay -/

/-- A place that can be read: its page has a version in the log, or is wholly in
    the main file. -/
def Available (main : Bytes) (size : Nat) (frames : List LogFrame) (x : Nat) : Prop :=
  (newest frames (x / size + 1)).isSome ∨ (x / size + 1) * size ≤ main.length

/-- **READING THROUGH THE LOG IS REPLAYING ITS COMMITTED PREFIX**, if that has
    a page to contribute: the length is the committed one, and a read within it
    gives the overlay's bytes. -/
def ReadsAsReplayed (main log : Bytes) (h : LogHeader) : Prop :=
  Contributes (committedPrefix h log) →
    ∃ ws, new (sliceSource main) (some (sliceSource log)) = .ok ws ∧
      ws.toSource.len = .ok (finalSize (committedPrefix h log) * h.pageSize) ∧
      ∀ offset count, offset + count ≤ finalSize (committedPrefix h log) * h.pageSize →
        (∀ x, offset ≤ x → x < offset + count →
          Available main h.pageSize (committedPrefix h log) x) →
        ∃ part, ws.toSource.readAt offset count = .ok part ∧
          ∀ i, i < count →
            part.val[i]? = overlaid main h.pageSize (committedPrefix h log) (offset + i)

/-- The frames that 32 bits count say what all of them say: the same length, and
    the same bytes wherever the whole log has something to read. -/
def CountedAlike (main log : Bytes) (h : LogHeader) : Prop :=
  Contributes (committedPrefix h log) →
    seenLen main h.pageSize (seenFrames h log)
      = finalSize (committedPrefix h log) * h.pageSize ∧
    ∀ x, x < finalSize (committedPrefix h log) * h.pageSize →
      Available main h.pageSize (committedPrefix h log) x →
      seenByte main h.pageSize (seenFrames h log) x
        = overlaid main h.pageSize (committedPrefix h log) x

section Replay

variable {main log : Bytes} {h : LogHeader} {header : Header}

/-- What is available has a byte. -/
theorem overlaid_isSome (hlen : WAL_HEADER_LEN ≤ log.length) {frames : List LogFrame}
    (hfront : frames <+: framesOf h.pageSize log) {x : Nat}
    (hx : Available main h.pageSize frames x) :
    overlaid main h.pageSize frames x ≠ none := by
  have hpos : 0 < h.pageSize := by have := h.least; omega
  rw [overlaid]
  cases hnewest : newest frames (x / h.pageSize + 1) with
  | some f =>
      have hmem : f ∈ frames := mem_reverse.mp (mem_of_find?_eq_some hnewest)
      obtain ⟨i, hi⟩ := mem_iff_getElem?.mp hmem
      obtain ⟨hpage, -⟩ := frame_page hlen hfront hi
      have hlt : x % h.pageSize < f.page.length := hpage.symm ▸ Nat.mod_lt x hpos
      dsimp only
      rw [getElem?_eq_getElem hlt]
      rintro ⟨⟩
  | none =>
      have hmain : (x / h.pageSize + 1) * h.pageSize ≤ main.length := by
        rcases hx with hsome | hmain
        · rw [hnewest] at hsome
          cases hsome
        · exact hmain
      have hlt : x < main.length :=
        (Nat.lt_mul_of_div_lt (Nat.lt_succ_self _) hpos).trans_le hmain
      dsimp only
      rw [getElem?_eq_getElem hlt]
      rintro ⟨⟩

/-- **WHAT THE READER SERVES**, for any main file and log: the overlay of the
    frames it counts. -/
theorem new_serves (hmain : HEADER_LEN ≤ main.length)
    (hheader : Header.parse (main.take HEADER_LEN) = .ok header)
    (hlen : WAL_HEADER_LEN ≤ log.length)
    (hparse : parse (log.take WAL_HEADER_LEN) = .ok h)
    (hsize : h.pageSize = header.pageSize) (hzero : NoPageZero h log) :
    ∃ ws, new (sliceSource main) (some (sliceSource log)) = .ok ws ∧
      ws.toSource.len = .ok (seenLen main h.pageSize (seenFrames h log)) ∧
      ∀ offset count, offset + count < 2 ^ 64 →
        0 < count ∨ offset ≤ seenLen main h.pageSize (seenFrames h log) →
        ReadsAs (seenByte main h.pageSize (seenFrames h log)) offset count
          (ws.toSource.readAt offset count) := by
  obtain ⟨ws, hnew, hsource, hpage, ⟨hc, w, hlog, hw, hcount⟩ | ⟨hc, hlog⟩⟩ :=
    new_eq hmain hheader hlen hparse hsize hzero
  · refine ⟨ws, hnew, ?_, ?_⟩
    · rw [seenLen, if_pos hc, ← hcount, ← hpage]
      simp only [toSource, hlog]
    · intro offset count hsmall _
      have hread := readLoop_readsAs main hlen hw hc offset count 0 count le_rfl hsmall
      simp only [toSource, hlog, hsource, hpage]
      exact hread
  · refine ⟨ws, hnew, ?_, ?_⟩
    · rw [seenLen, if_neg hc]
      simp only [toSource, hlog, hsource]
      rfl
    · intro offset count hsmall hsome
      have hsee : ∀ x, seenByte main h.pageSize (seenFrames h log) x = main[x]? := by
        intro x
        rw [seenByte, if_neg fun hboth => hc hboth.1]
      simp only [toSource, hlog, hsource]
      rcases Nat.eq_zero_or_pos count with rfl | hpos
      · have hle : offset ≤ main.length := by
          have := hsome.resolve_left (Nat.lt_irrefl 0)
          rwa [seenLen, if_neg hc] at this
        exact .inl ⟨_, sliceSource_readAt (by omega) hsmall,
          fun i hi => absurd hi (Nat.not_lt_zero i)⟩
      · exact (sliceSource_readsAs main hpos hsmall).congr fun i _ => (hsee _).symm

/-- **THE READER REPLAYS THE LOG EXACTLY WHEN COUNTING IN 32 BITS LOSES
    NOTHING**. -/
theorem readsAsReplayed_iff (hmain : HEADER_LEN ≤ main.length)
    (hheader : Header.parse (main.take HEADER_LEN) = .ok header)
    (hlen : WAL_HEADER_LEN ≤ log.length)
    (hparse : parse (log.take WAL_HEADER_LEN) = .ok h)
    (hsize : h.pageSize = header.pageSize) (hzero : NoPageZero h log) :
    ReadsAsReplayed main log h ↔ CountedAlike main log h := by
  obtain ⟨ws, hnew, hlength, hreads⟩ := new_serves hmain hheader hlen hparse hsize hzero
  have hfront := committedPrefix_front h log
  have hbound : finalSize (committedPrefix h log) * h.pageSize ≤ 2 ^ 32 * 2 ^ 31 :=
    Nat.mul_le_mul (finalSize_lt hfront).le h.small
  constructor
  · intro hreplay hc
    obtain ⟨ws', hnew', hlength', hreads'⟩ := hreplay hc
    cases hnew.symm.trans hnew'
    refine ⟨Except.ok.inj (hlength.symm.trans hlength'), ?_⟩
    intro x hx havailable
    -- one byte is read
    obtain ⟨part, hpart, hbyte⟩ := hreads' x 1 hx fun y hy hy' => by
      obtain rfl : y = x := by omega
      exact havailable
    rcases hreads x 1 (by omega) (.inl Nat.one_pos) with ⟨part', hpart', hbyte'⟩ | ⟨e, he, -⟩
    · cases hpart.symm.trans hpart'
      exact (hbyte' 0 Nat.one_pos).symm.trans (hbyte 0 Nat.one_pos)
    · nomatch hpart.symm.trans he
  · intro halike hc
    obtain ⟨hsame, hbytes⟩ := halike hc
    refine ⟨ws, hnew, hlength.trans (congrArg _ hsame), ?_⟩
    intro offset count hin havailable
    have hsee : ∀ i, i < count → seenByte main h.pageSize (seenFrames h log) (offset + i)
        = overlaid main h.pageSize (committedPrefix h log) (offset + i) := fun i hi =>
      hbytes _ (by omega) (havailable _ (by omega) (by omega))
    rcases hreads offset count (by omega) (.inr (by omega)) with ⟨part, hpart, hbyte⟩ |
      ⟨e, -, i, hi, hnone⟩
    · exact ⟨part, hpart, fun i hi => (hbyte i hi).trans (hsee i hi)⟩
    · rw [hsee i hi] at hnone
      exact absurd hnone (overlaid_isSome hlen hfront (havailable _ (by omega) (by omega)))

/-- A log of frames that 32 bits count. -/
theorem countedAlike_of_lt (main : Bytes) (hcount : frameCount h.pageSize log < 2 ^ 32) :
    CountedAlike main log h := by
  have hall : seenFrames h log = committedPrefix h log := by
    have hlength : (framesOf h.pageSize log).length ≤ U32_MAX := by
      rw [framesOf, length_map, length_range, U32_MAX]
      omega
    rw [seenFrames, committedPrefix, take_of_length_le hlength]
  intro hc
  rw [hall, seenLen, if_pos hc]
  refine ⟨rfl, fun x hx _ => ?_⟩
  have hpage : x / h.pageSize + 1 ≤ finalSize (committedPrefix h log) :=
    Nat.div_lt_of_lt_mul (by rw [Nat.mul_comm]; exact hx)
  rw [seenByte, if_pos ⟨hc, hpage⟩]

end Replay

/-- **A LOG READS AS ITS REPLAY** exactly when the frames that 32 bits count say
    what all of them say, and so for every log with fewer than 2 ^ 32 frames. -/
theorem log_reads_as_its_replay (main log : Bytes) (header : Header) (h : LogHeader)
    (hmain : HEADER_LEN ≤ main.length)
    (hheader : Header.parse (main.take HEADER_LEN) = .ok header)
    (hlen : WAL_HEADER_LEN ≤ log.length)
    (hparse : parse (log.take WAL_HEADER_LEN) = .ok h)
    (hsize : h.pageSize = header.pageSize) (hzero : NoPageZero h log) :
    (ReadsAsReplayed main log h ↔ CountedAlike main log h) ∧
      (frameCount h.pageSize log < 2 ^ 32 → ReadsAsReplayed main log h) := by
  have hiff := readsAsReplayed_iff hmain hheader hlen hparse hsize hzero
  exact ⟨hiff, fun hcount => hiff.mpr (countedAlike_of_lt main hcount)⟩

/-! ## Logs that are written -/

/-- A version of a page to write: its number, the size if it commits, and the
    page. -/
structure Version where
  number : Nat
  commit : Nat
  page : Bytes

/-- The first eight bytes of a frame, which its checksum covers. -/
def Version.head (v : Version) : Bytes := be 4 v.number ++ be 4 v.commit

/-- The frame of a version, after the frames before it. -/
def Version.frame (bigEndian : Bool) (salt running : Nat × Nat) (v : Version) : LogFrame where
  number := v.number
  commit := v.commit
  salt := salt
  sum := checksum bigEndian (checksum bigEndian running v.head) v.page
  head := v.head
  page := v.page

/-- The bytes of a frame. -/
def LogFrame.bytes (f : LogFrame) : Bytes :=
  be 4 f.number ++ (be 4 f.commit ++ (be 4 f.salt.1 ++ (be 4 f.salt.2
    ++ (be 4 f.sum.1 ++ (be 4 f.sum.2 ++ f.page)))))

/-- The frames of versions one after another. -/
def written (bigEndian : Bool) (salt : Nat × Nat) : Nat × Nat → List Version → List LogFrame
  | _, [] => []
  | running, v :: rest =>
      let f := v.frame bigEndian salt running
      f :: written bigEndian salt f.sum rest

variable {f : LogFrame} {size : Nat}

section Written

variable {bigEndian : Bool} {salt running : Nat × Nat}

theorem validRun_written (versions : List Version) :
    validRun bigEndian salt running (written bigEndian salt running versions)
      = written bigEndian salt running versions := by
  induction versions generalizing running with
  | nil => rfl
  | cons v versions ih =>
      rw [written, validRun, if_pos ⟨rfl, rfl⟩]
      exact congrArg _ ih

/-- What a frame is a version of. -/
def LogFrame.version (f : LogFrame) : Version := ⟨f.number, f.commit, f.page⟩

/-- What the frames say is what was written. -/
theorem map_written (bigEndian : Bool) (salt running : Nat × Nat) (versions : List Version) :
    (written bigEndian salt running versions).map LogFrame.version = versions := by
  induction versions generalizing running with
  | nil => rfl
  | cons v versions ih =>
      rw [written, map_cons, ih]
      rfl

theorem wordAt_be {n : Nat} (hn : n < 2 ^ 32) (rest : Bytes) : wordAt (be 4 n ++ rest) 0 = n := by
  rw [wordAt, drop_zero, take_left' (length_be 4 n), ofBe_be]
  exact Nat.mod_eq_of_lt hn

theorem wordAt_skip (n : Nat) (rest : Bytes) (off : Nat) :
    wordAt (be 4 n ++ rest) (4 + off) = wordAt rest off := by
  rw [wordAt, wordAt, ← drop_drop, drop_left' (length_be 4 n)]

/-- Both words stay 32 bits wide. -/
theorem checksum_lt (bigEndian : Bool) (data : Bytes) (s : Nat × Nat)
    (hs : s.1 < 2 ^ 32 ∧ s.2 < 2 ^ 32) :
    (checksum bigEndian s data).1 < 2 ^ 32 ∧ (checksum bigEndian s data).2 < 2 ^ 32 := by
  fun_induction checksum bigEndian s data with
  | case1 s0 s1 a b c d e f g h rest s0' s1' ih =>
      exact ih ⟨Nat.mod_lt _ (by decide), Nat.mod_lt _ (by decide)⟩
  | case2 s data => exact hs

/-- A frame that its bytes can hold. -/
structure LogFrame.Fits (f : LogFrame) (size : Nat) : Prop where
  number : f.number < 2 ^ 32
  commit : f.commit < 2 ^ 32
  salt : f.salt.1 < 2 ^ 32 ∧ f.salt.2 < 2 ^ 32
  sum : f.sum.1 < 2 ^ 32 ∧ f.sum.2 < 2 ^ 32
  head : f.head = be 4 f.number ++ be 4 f.commit
  page : f.page.length = size

theorem LogFrame.Fits.length_bytes (hf : f.Fits size) :
    f.bytes.length = FRAME_HEADER_LEN + size := by
  simp only [LogFrame.bytes, length_append, length_be, hf.page, FRAME_HEADER_LEN]
  omega

/-- **A FRAME READS BACK**. -/
theorem LogFrame.Fits.parse_bytes (hf : f.Fits size) : LogFrame.parse f.bytes = f := by
  obtain ⟨number, commit, ⟨salt0, salt1⟩, ⟨sum0, sum1⟩, head, page⟩ := f
  have hhead : head = be 4 number ++ be 4 commit := hf.head
  simp only [LogFrame.parse, LogFrame.bytes, LogFrame.mk.injEq, Prod.mk.injEq]
  have hcommit := wordAt_be hf.commit
  have hsalt0 := wordAt_be hf.salt.1
  have hsalt1 := wordAt_be hf.salt.2
  have hsum0 := wordAt_be hf.sum.1
  have hsum1 := wordAt_be hf.sum.2
  dsimp only at hcommit hsalt0 hsalt1 hsum0 hsum1
  refine ⟨wordAt_be hf.number _, ?_, ⟨?_, ?_⟩, ⟨?_, ?_⟩, ?_, ?_⟩
  · rw [wordAt_skip number _ 0, hcommit]
  · rw [wordAt_skip number _ 4, wordAt_skip commit _ 0, hsalt0]
  · rw [wordAt_skip number _ 8, wordAt_skip commit _ 4, wordAt_skip salt0 _ 0, hsalt1]
  · rw [wordAt_skip number _ 12, wordAt_skip commit _ 8, wordAt_skip salt0 _ 4,
      wordAt_skip salt1 _ 0, hsum0]
  · rw [wordAt_skip number _ 16, wordAt_skip commit _ 12, wordAt_skip salt0 _ 8,
      wordAt_skip salt1 _ 4, wordAt_skip sum0 _ 0, hsum1]
  · rw [hhead, ← append_assoc, take_left' (by rw [length_append, length_be, length_be])]
  · simp only [← append_assoc]
    exact drop_left' (by simp only [length_append, length_be]; rfl)

theorem written_fits (hsalt : salt.1 < 2 ^ 32 ∧ salt.2 < 2 ^ 32)
    (hrunning : running.1 < 2 ^ 32 ∧ running.2 < 2 ^ 32) {versions : List Version}
    (hversions : ∀ v ∈ versions, v.number < 2 ^ 32 ∧ v.commit < 2 ^ 32 ∧ v.page.length = size) :
    ∀ f ∈ written bigEndian salt running versions, f.Fits size := by
  induction versions generalizing running with
  | nil => exact fun f hf => nomatch hf
  | cons v versions ih =>
      obtain ⟨⟨hnumber, hcommit, hpage⟩, hrest⟩ := forall_mem_cons.mp hversions
      have hsum := checksum_lt bigEndian v.page _ (checksum_lt bigEndian v.head running hrunning)
      rw [written]
      exact forall_mem_cons.mpr ⟨⟨hnumber, hcommit, hsalt, hsum, rfl, hpage⟩, ih hsum hrest⟩

/-- Pieces of one length, one after another. -/
theorem cut_flatten {L : Nat} {pieces : List Bytes} (hpieces : ∀ p ∈ pieces, p.length = L) {i : Nat}
    (hi : i < pieces.length) : ((pieces.flatten).drop (i * L)).take L = pieces[i] := by
  induction pieces generalizing i with
  | nil => exact absurd hi (Nat.not_lt_zero i)
  | cons p pieces ih =>
      obtain ⟨hp, hrest⟩ := forall_mem_cons.mp hpieces
      rw [flatten_cons]
      cases i with
      | zero => rw [Nat.zero_mul, drop_zero, take_left' hp, getElem_cons_zero]
      | succ i =>
          rw [Nat.add_mul, Nat.one_mul, Nat.add_comm, ← drop_drop, drop_left' hp,
            getElem_cons_succ]
          exact ih hrest (Nat.lt_of_succ_lt_succ hi)

/-- **A LOG READS BACK**: its frames are those that were written. -/
theorem framesOf_written {front : Bytes} (hfront : front.length = WAL_HEADER_LEN)
    {frames : List LogFrame} (hfits : ∀ f ∈ frames, f.Fits size) :
    framesOf size (front ++ (frames.map LogFrame.bytes).flatten) = frames := by
  have hpieces : ∀ p ∈ frames.map LogFrame.bytes, p.length = FRAME_HEADER_LEN + size := by
    intro p hp
    obtain ⟨f, hf, rfl⟩ := mem_map.mp hp
    exact (hfits f hf).length_bytes
  have hlength : (frames.map LogFrame.bytes).flatten.length
      = frames.length * (FRAME_HEADER_LEN + size) := by
    have hmap : frames.map (List.length ∘ LogFrame.bytes)
        = List.replicate frames.length (FRAME_HEADER_LEN + size) :=
      map_eq_replicate_iff.mpr fun f hf => (hfits f hf).length_bytes
    rw [length_flatten, map_map, hmap, sum_replicate_nat]
  have hcount : frameCount size (front ++ (frames.map LogFrame.bytes).flatten) = frames.length := by
    rw [frameCount, length_append, hfront, Nat.add_sub_cancel_left, hlength]
    exact Nat.mul_div_cancel _ (by rw [FRAME_HEADER_LEN]; omega)
  refine ext_getElem ?_ ?_
  · rw [framesOf, length_map, length_range, hcount]
  · intro i _ hi
    simp only [framesOf, getElem_map, getElem_range]
    rw [frameBytes, frameStart, ← drop_drop, drop_left' hfront,
      cut_flatten hpieces (by rw [length_map]; exact hi), getElem_map]
    exact (hfits _ (getElem_mem hi)).parse_bytes

end Written

/-! ## A log that is too long -/

/-- The header of a log of pages of 512 bytes. -/
def logFront : Bytes :=
  be 4 MAGIC_BIG ++ be 4 3007000 ++ be 4 512 ++ be 4 0 ++ be 4 1 ++ be 4 2 ++ be 4 369412824
    ++ be 4 3168642195

def logFrontHeader : LogHeader :=
  ⟨true, 512, (1, 2), (369412824, 3168642195), by decide, by decide⟩

theorem parse_logFront : parse logFront = .ok logFrontHeader := by
  decide +kernel

/-- The header of a database of pages of 512 bytes. -/
def mainFront : Bytes :=
  MAGIC ++ [2, 0, 1, 1, 0, 64, 32, 32] ++ [0, 0, 0, 1, 0, 0, 0, 1] ++ List.replicate 12 0
    ++ [0, 0, 0, 4] ++ List.replicate 8 0 ++ [0, 0, 0, 1] ++ List.replicate 32 0 ++ [0, 0, 0, 1]
    ++ List.replicate 4 0

theorem mainFront_count : 1 < 2 ^ 32 := by decide

theorem mainFront_small : 512 ≤ 65536 := by decide

theorem mainFront_usable : 0 + 480 ≤ 512 := by decide

def mainFrontHeader : Header :=
  ⟨512, 0, false, some ⟨1, mainFront_count⟩, .utf8, mainFront_small, mainFront_usable⟩

theorem parse_mainFront : Header.parse mainFront = .ok mainFrontHeader := by
  decide +kernel

/-- A version of page 1 that commits a database of one page. -/
def pageOne (b : UInt8) : Version := ⟨1, 1, List.replicate 512 b⟩

/-- Page 1 is written with zeros a number of times and then with ones. -/
def longFrames (n : Nat) : List LogFrame :=
  written true logFrontHeader.salt logFrontHeader.running
    (List.replicate n (pageOne 0) ++ [pageOne 1])

def longLog (n : Nat) : Bytes := logFront ++ ((longFrames n).map LogFrame.bytes).flatten

section Ones

variable {frames : List LogFrame}

/-- Frames that each commit page 1 as the whole database. -/
def AllOnes (frames : List LogFrame) : Prop := ∀ f ∈ frames, f.number = 1 ∧ f.commit = 1

theorem AllOnes.committed_eq (h : AllOnes frames) : committed frames = frames := by
  refine rdropWhile_eq_self_iff.mpr fun hne => ?_
  rw [(h _ (getLast_mem hne)).2]
  decide

theorem AllOnes.finalSize_eq (h : AllOnes frames) (hne : frames ≠ []) : finalSize frames = 1 := by
  rw [finalSize, getLast?_eq_some_getLast hne]
  exact (h _ (getLast_mem hne)).2

theorem AllOnes.contributes (h : AllOnes frames) (hne : frames ≠ []) : Contributes frames := by
  refine ⟨frames.getLast hne, getLast_mem hne, ?_⟩
  rw [h.finalSize_eq hne, (h _ (getLast_mem hne)).1]

/-- The newest version of page 1 is one of the frames. -/
theorem AllOnes.newest_eq (h : AllOnes frames) (hne : frames ≠ []) :
    ∃ f ∈ frames, newest frames 1 = some f := by
  cases hnewest : newest frames 1 with
  | some f => exact ⟨f, mem_reverse.mp (mem_of_find?_eq_some hnewest), rfl⟩
  | none =>
      have hnone := find?_eq_none.mp hnewest _ (mem_reverse.mpr (getLast_mem hne))
      exact absurd (decide_eq_true (h _ (getLast_mem hne)).1) hnone

end Ones

/-- A frame that writes page 1. -/
theorem version_pageOne {b : UInt8} (h : f.version = pageOne b) :
    (f.number = 1 ∧ f.commit = 1) ∧ f.page = List.replicate 512 b :=
  ⟨⟨congrArg Version.number h, congrArg Version.commit h⟩, congrArg Version.page h⟩

theorem longFrames_split (n : Nat) : ∃ early late, longFrames n = early ++ [late]
    ∧ early.length = n ∧ (∀ f ∈ early, f.version = pageOne 0) ∧ late.version = pageOne 1 := by
  obtain ⟨early, last, hsplit, hearly, hlast⟩ := map_eq_append_iff.mp
    (map_written true logFrontHeader.salt logFrontHeader.running
      (List.replicate n (pageOne 0) ++ [pageOne 1]))
  obtain ⟨late, rfl, hlate⟩ := map_eq_singleton_iff.mp hlast
  refine ⟨early, late, hsplit, ?_, ?_, hlate⟩
  · rw [← length_map, hearly, length_replicate]
  · intro f hf
    have hmem : f.version ∈ List.replicate n (pageOne 0) := hearly ▸ mem_map_of_mem hf
    exact (mem_replicate.mp hmem).2

theorem framesOf_longLog (n : Nat) : framesOf 512 (longLog n) = longFrames n := by
  refine framesOf_written (by decide) (written_fits (by decide) (by decide) ?_)
  intro v hv
  obtain ⟨b, rfl⟩ : ∃ b, v = pageOne b := by
    rcases mem_append.mp hv with hv | hv
    · exact ⟨0, (mem_replicate.mp hv).2⟩
    · exact ⟨1, mem_singleton.mp hv⟩
  exact ⟨show 1 < 2 ^ 32 by decide, show 1 < 2 ^ 32 by decide, length_replicate⟩

theorem validRun_longLog (n : Nat) :
    validRun logFrontHeader.bigEndian logFrontHeader.salt logFrontHeader.running
      (framesOf logFrontHeader.pageSize (longLog n)) = longFrames n := by
  show validRun true logFrontHeader.salt logFrontHeader.running (framesOf 512 (longLog n)) = _
  rw [framesOf_longLog]
  exact validRun_written _

theorem longFrames_allOnes (n : Nat) : AllOnes (longFrames n) ∧ longFrames n ≠ [] := by
  obtain ⟨early, late, hsplit, -, hearly, hlate⟩ := longFrames_split n
  rw [hsplit]
  refine ⟨fun f hf => ?_, append_ne_nil_of_right_ne_nil _ (cons_ne_nil _ _)⟩
  rcases mem_append.mp hf with hf | hf
  · exact (version_pageOne (hearly f hf)).1
  · exact mem_singleton.mp hf ▸ (version_pageOne hlate).1

theorem committedPrefix_longLog (n : Nat) :
    committedPrefix logFrontHeader (longLog n) = longFrames n := by
  rw [committedPrefix, validRun_longLog, (longFrames_allOnes n).1.committed_eq]

/-- **THE LAST VERSION IS LOST** when it is in a frame that 32 bits do not
    count. -/
theorem longLog_not_countedAlike : ¬ CountedAlike mainFront (longLog U32_MAX) logFrontHeader := by
  obtain ⟨early, late, hsplit, hlength, hearly, hlate⟩ := longFrames_split U32_MAX
  obtain ⟨hall, hne'⟩ := longFrames_allOnes U32_MAX
  have hones : AllOnes early := fun f hf => (version_pageOne (hearly f hf)).1
  have hne : early ≠ [] := by
    intro hnil
    rw [hnil] at hlength
    exact absurd hlength (by decide)
  have hseen : seenFrames logFrontHeader (longLog U32_MAX) = early := by
    rw [seenFrames, validRun_take, validRun_longLog, hsplit, take_left' hlength,
      hones.committed_eq]
  intro halike
  rw [CountedAlike, committedPrefix_longLog, hseen] at halike
  rw [hsplit] at halike hall hne'
  have hnewest : newest (early ++ [late]) 1 = some late := by
    rw [newest_concat, if_pos (version_pageOne hlate).1.1]
  obtain ⟨f, hf, hold⟩ := hones.newest_eq hne
  -- the first byte of page 1: zero is read, one was committed
  have hbyte := (halike (hall.contributes hne')).2 0
    (by rw [hall.finalSize_eq hne']; decide) (.inl (by
      show (newest (early ++ [late]) 1).isSome
      rw [hnewest]
      rfl))
  have hread : seenByte mainFront logFrontHeader.pageSize early 0 = some 0 := by
    rw [seenByte, if_pos ⟨hones.contributes hne, by rw [hones.finalSize_eq hne]; decide⟩]
    rw [overlaid, show newest early (0 / logFrontHeader.pageSize + 1) = _ from hold]
    dsimp only
    rw [(version_pageOne (hearly f hf)).2]
    rfl
  have hcommitted : overlaid mainFront logFrontHeader.pageSize (early ++ [late]) 0 = some 1 := by
    rw [overlaid, show newest _ (0 / logFrontHeader.pageSize + 1) = _ from hnewest]
    dsimp only
    rw [(version_pageOne hlate).2]
    rfl
  cases hread.symm.trans (hbyte.trans hcommitted)

theorem longLog_front (n : Nat) : WAL_HEADER_LEN ≤ (longLog n).length
    ∧ parse ((longLog n).take WAL_HEADER_LEN) = .ok logFrontHeader
    ∧ NoPageZero logFrontHeader (longLog n) := by
  have hfront : logFront.length = WAL_HEADER_LEN := by decide
  refine ⟨?_, ?_, ?_⟩
  · rw [longLog, length_append, hfront]
    exact Nat.le_add_right _ _
  · rw [longLog, take_left' hfront, parse_logFront]
  · rw [NoPageZero, validRun_longLog]
    intro f hf
    rw [((longFrames_allOnes n).1 f hf).1]
    decide

/-- **A LOG OF 2 ^ 32 FRAMES** that is read as an older database: the header
    validates with the database's page size, every frame is valid and commits
    page 1, and the version of the last frame is not what is read. -/
theorem longLog_not_replayed : HEADER_LEN ≤ mainFront.length
    ∧ Header.parse (mainFront.take HEADER_LEN) = .ok mainFrontHeader
    ∧ WAL_HEADER_LEN ≤ (longLog U32_MAX).length
    ∧ parse ((longLog U32_MAX).take WAL_HEADER_LEN) = .ok logFrontHeader
    ∧ logFrontHeader.pageSize = mainFrontHeader.pageSize
    ∧ NoPageZero logFrontHeader (longLog U32_MAX)
    ∧ ¬ ReadsAsReplayed mainFront (longLog U32_MAX) logFrontHeader := by
  obtain ⟨hlen, hparse, hzero⟩ := longLog_front U32_MAX
  have hmain : mainFront.take HEADER_LEN = mainFront := by decide
  refine ⟨by decide, by rw [hmain, parse_mainFront], hlen, hparse, rfl, hzero, ?_⟩
  rw [readsAsReplayed_iff (by decide) (by rw [hmain, parse_mainFront]) hlen hparse rfl hzero]
  exact longLog_not_countedAlike

/-- Two pages in one commit, the first again in another, and a version of the
    second that no commit covers. -/
def mixedLog : Bytes :=
  logFront ++ (written true logFrontHeader.salt logFrontHeader.running
    [⟨1, 0, List.replicate 512 1⟩, ⟨2, 2, List.replicate 512 2⟩, ⟨1, 2, List.replicate 512 3⟩,
      ⟨2, 0, List.replicate 512 4⟩]).flatMap LogFrame.bytes

/-- Four frames, of which three count; they read as their replay. -/
theorem log_reads_as_its_replay_mixed :
    frameCount logFrontHeader.pageSize mixedLog = 4
      ∧ (committedPrefix logFrontHeader mixedLog).map (fun f => (f.number, f.commit))
        = [(1, 0), (2, 2), (1, 2)]
      ∧ Contributes (committedPrefix logFrontHeader mixedLog)
      ∧ ReadsAsReplayed mainFront mixedLog logFrontHeader := by
  have hcount : frameCount logFrontHeader.pageSize mixedLog = 4 := by decide +kernel
  have hzero : NoPageZero logFrontHeader mixedLog := by
    unfold NoPageZero
    decide +kernel
  have hcontributes : Contributes (committedPrefix logFrontHeader mixedLog) := by
    unfold Contributes
    decide +kernel
  have hmain : mainFront.take HEADER_LEN = mainFront := by decide
  refine ⟨hcount, by decide +kernel, hcontributes, ?_⟩
  exact (log_reads_as_its_replay mainFront mixedLog mainFrontHeader logFrontHeader (by decide)
    (by rw [hmain, parse_mainFront]) (by decide +kernel) (by decide +kernel) rfl hzero).2
    (by rw [hcount]; decide)

end QuantySqlite
