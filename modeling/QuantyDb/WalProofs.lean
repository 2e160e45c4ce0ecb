import QuantyDb.WalModel
import QuantyDb.SqliteReadProofs

/-! # A log reads as its committed prefix replayed

    What a log says is its valid frames up to the last commit, each the newest
    version of its page until a later one.  A database with such a log is the
    main file with those pages laid over it.

    The loop that reads the log counts frames in 32 bits.  It takes what the
    frames it counts say (`open_eq`), so a log with more of them can be read
    as an older database. -/

namespace QuantySqlite

open QuantyPage BigEndian Outcome List WalSource LogState

/-! ## What a log says -/

/-- Four bytes of a byte string as a number, highest first. -/
def wordAt (bytes : Bytes) (off : Nat) : Nat := ofBe ((bytes.drop off).take 4)

/-- A frame: the page it is a version of, the size of the database after it if
    it commits, what makes it valid, and the page. -/
structure LogFrame where
  number : Nat
  commit : Nat
  salt : Nat × Nat
  sum : Nat × Nat
  head : Bytes
  page : Bytes

def LogFrame.parse (bytes : Bytes) : LogFrame where
  number := wordAt bytes 0
  commit := wordAt bytes 4
  salt := (wordAt bytes 8, wordAt bytes 12)
  sum := (wordAt bytes 16, wordAt bytes 20)
  head := bytes.take 8
  page := bytes.drop FRAME_HEADER_LEN

/-- Where a frame is. -/
def frameStart (pageSize i : Nat) : Nat := WAL_HEADER_LEN + i * (FRAME_HEADER_LEN + pageSize)

def frameBytes (pageSize : Nat) (log : Bytes) (i : Nat) : Bytes :=
  (log.drop (frameStart pageSize i)).take (FRAME_HEADER_LEN + pageSize)

/-- How many whole frames a log has. -/
def frameCount (pageSize : Nat) (log : Bytes) : Nat :=
  (log.length - WAL_HEADER_LEN) / (FRAME_HEADER_LEN + pageSize)

/-- The whole frames of a log. -/
def framesOf (pageSize : Nat) (log : Bytes) : List LogFrame :=
  (List.range (frameCount pageSize log)).map fun i => LogFrame.parse (frameBytes pageSize log i)

/-- The checksum that a frame should carry, after the frames before it. -/
def LogFrame.summed (bigEndian : Bool) (running : Nat × Nat) (f : LogFrame) : Nat × Nat :=
  checksum bigEndian (checksum bigEndian running f.head) f.page

/-- **THE VALID FRAMES**: from the start, as long as salts and checksums match. -/
def validRun (bigEndian : Bool) (salt : Nat × Nat) : Nat × Nat → List LogFrame → List LogFrame
  | _, [] => []
  | running, f :: rest =>
      if f.salt = salt ∧ f.sum = f.summed bigEndian running then
        f :: validRun bigEndian salt (f.summed bigEndian running) rest
      else []

/-- The valid frames, cut after the last commit. -/
def committed (run : List LogFrame) : List LogFrame := run.rdropWhile fun f => f.commit = 0

/-- The size of the database after the last commit. -/
def finalSize (frames : List LogFrame) : Nat :=
  match frames.getLast? with
  | some f => f.commit
  | none => 0

/-- The newest version of a page. -/
def newest (frames : List LogFrame) (n : Nat) : Option LogFrame :=
  frames.reverse.find? fun f => f.number = n

/-- Some page within the final size has a version. -/
def Contributes (frames : List LogFrame) : Prop := ∃ f ∈ frames, f.number ≤ finalSize frames

/-! ## Words -/

theorem wordAt_lt (bytes : Bytes) (off : Nat) : wordAt bytes off < 2 ^ 32 := by
  have h := ofBe_lt ((bytes.drop off).take 4)
  have hlen : ((bytes.drop off).take 4).length ≤ 4 := length_take_le ..
  calc wordAt bytes off < 256 ^ ((bytes.drop off).take 4).length := h
    _ ≤ 256 ^ 4 := Nat.pow_le_pow_right (by decide) hlen

variable {bytes : Bytes} {a b count i n size start : Nat} {f : LogFrame} {frames : List LogFrame}

theorem be32_eq {off : Nat} (h : off + 3 < bytes.length) :
    be32 bytes off = .ok ⟨wordAt bytes off, wordAt_lt bytes off⟩ := by
  have hcut : (bytes.drop off).take 4
      = [bytes[off], bytes[off + 1], bytes[off + 2], bytes[off + 3]] := by
    rw [drop_eq_getElem_cons (by omega), drop_eq_getElem_cons (by omega),
      drop_eq_getElem_cons (by omega), drop_eq_getElem_cons (by omega)]
    rfl
  have hword : wordAt bytes off
      = ofBe [bytes[off], bytes[off + 1], bytes[off + 2], bytes[off + 3]] := by
    rw [wordAt, hcut]
  simp only [be32, index, getElem?_eq_getElem (show off < bytes.length by omega),
    getElem?_eq_getElem (show off + 1 < bytes.length by omega),
    getElem?_eq_getElem (show off + 2 < bytes.length by omega),
    getElem?_eq_getElem h, ok_bind, hword]
  rfl

theorem wordAt_take {off : Nat} (h : off + 4 ≤ n) :
    wordAt (bytes.take n) off = wordAt bytes off := by
  rw [wordAt, wordAt, drop_take, take_take, Nat.min_eq_left (by omega)]

theorem between_eq {stop : Nat} (h : start ≤ stop) (hstop : stop ≤ bytes.length) :
    between bytes start stop = .ok ((bytes.drop start).take (stop - start)) := by
  rw [between, if_pos ⟨h, hstop⟩]

theorem plus_eq (h : a + b < 2 ^ 64) : plus a b = .ok (a + b) := by
  rw [plus, if_pos h]

theorem times_eq (h : a * b < 2 ^ 64) : times a b = .ok (a * b) := by
  rw [times, if_pos h]

theorem minus_eq (h : b ≤ a) : minus a b = .ok (a - b) := by
  rw [minus, if_pos h]

theorem sliceSource_readAt {offset : Nat} (h : offset + count ≤ bytes.length)
    (hsmall : offset + count < 2 ^ 64) : (sliceSource bytes).readAt offset count
      = .ok ⟨(bytes.drop offset).take count, length_cut h⟩ := by
  show (if 2 ^ 64 ≤ offset + count then _ else if h : _ then _ else _) = _
  rw [if_neg (Nat.not_le.mpr hsmall), dif_neg (Nat.not_lt.mpr h)]

/-! ## The loop over the frames -/

section Loop

variable {log : Bytes} {h : LogHeader}

/-- What the frames of a run make of the loop's state, from an index on. -/
def LogState.absorb (h : LogHeader) : Nat → LogState → List LogFrame → LogState
  | _, st, [] => st
  | index, st, f :: rest =>
      absorb h (index + 1) (st.push index f.number f.commit
        (frameStart h.pageSize index + FRAME_HEADER_LEN) (f.summed h.bigEndian st.running)) rest

theorem frame_le {pageSize : Nat} (hlen : WAL_HEADER_LEN ≤ log.length)
    (hi : i < frameCount pageSize log) :
    frameStart pageSize i + (FRAME_HEADER_LEN + pageSize) ≤ log.length := by
  have hmul : (i + 1) * (FRAME_HEADER_LEN + pageSize) ≤ log.length - WAL_HEADER_LEN :=
    (Nat.mul_le_mul_right _ hi).trans (Nat.div_mul_le_self _ _)
  rw [frameStart]
  rw [Nat.add_mul, Nat.one_mul] at hmul
  omega

/-- A frame is far from the end of what 64 bits can address. -/
theorem frameStart_lt (h : LogHeader) (hi : i < 2 ^ 32) :
    i * (FRAME_HEADER_LEN + h.pageSize) < 2 ^ 63 + 2 ^ 37
      ∧ frameStart h.pageSize i + (FRAME_HEADER_LEN + h.pageSize) < 2 ^ 63 + 2 ^ 38 := by
  have hsmall := h.small
  have hmul : i * (FRAME_HEADER_LEN + h.pageSize) ≤ (2 ^ 32 - 1) * (24 + 2 ^ 31) :=
    Nat.mul_le_mul (by omega) (by rw [FRAME_HEADER_LEN]; omega)
  rw [frameStart, WAL_HEADER_LEN, FRAME_HEADER_LEN] at *
  constructor <;> omega

/-- **ONE FRAME**: what the loop does with it. -/
theorem openLoop_succ (hlen : WAL_HEADER_LEN ≤ log.length) (left : Nat) (st : LogState)
    (hsome : i < frameCount h.pageSize log) (hcap : i < 2 ^ 32)
    (hf : f = LogFrame.parse (frameBytes h.pageSize log i)) :
    openLoop (sliceSource log) h (left + 1) i st =
      if f.salt ≠ h.salt then .ok st
      else if f.summed h.bigEndian st.running ≠ f.sum then .ok st
      else refuse (f.number = 0) (Error.malformed none
          ("wal frame " ++ toString i ++ " claims to hold page 0")) >>= fun _ =>
        openLoop (sliceSource log) h left (i + 1) (st.push i f.number f.commit
          (frameStart h.pageSize i + FRAME_HEADER_LEN) (f.summed h.bigEndian st.running)) := by
  have hin := frame_le hlen hsome
  obtain ⟨hskip, hstart⟩ := frameStart_lt h hcap
  have hheader : ((log.drop (frameStart h.pageSize i)).take FRAME_HEADER_LEN).length = 24 :=
    length_cut (by omega)
  have hbytes : (log.drop (frameStart h.pageSize i)).take FRAME_HEADER_LEN
      = (frameBytes h.pageSize log i).take FRAME_HEADER_LEN := by
    rw [frameBytes, take_take, Nat.min_eq_left (Nat.le_add_right _ _)]
  have hword : ∀ off, off + 4 ≤ 24 →
      be32 ((log.drop (frameStart h.pageSize i)).take FRAME_HEADER_LEN) off
        = .ok ⟨wordAt (frameBytes h.pageSize log i) off, wordAt_lt _ _⟩ := by
    intro off hoff
    rw [be32_eq (by omega)]
    congr 2
    rw [hbytes]
    exact wordAt_take (n := FRAME_HEADER_LEN) hoff
  have hpage : (log.drop (frameStart h.pageSize i + FRAME_HEADER_LEN)).take h.pageSize
      = f.page := by
    rw [hf, LogFrame.parse, frameBytes, drop_take, drop_drop, Nat.add_sub_cancel_left]
  have hcovered : between ((log.drop (frameStart h.pageSize i)).take FRAME_HEADER_LEN) 0 8
      = .ok f.head := by
    rw [between_eq (by omega) (by omega), hbytes, hf, drop_zero, take_take]
    rfl
  subst hf
  have hoffset : plus WAL_HEADER_LEN (i * (FRAME_HEADER_LEN + h.pageSize))
      = .ok (frameStart h.pageSize i) := plus_eq (by rw [WAL_HEADER_LEN]; omega)
  rw [openLoop, times_eq (by omega), ok_bind, hoffset, ok_bind,
    sliceSource_readAt (by omega) (by omega), ok_bind]
  dsimp only
  rw [hword 0 (by omega), ok_bind, hword 4 (by omega), ok_bind, hword 8 (by omega), ok_bind,
    hword 12 (by omega), ok_bind]
  dsimp only
  refine if_congr Iff.rfl rfl ?_
  rw [plus_eq (show frameStart h.pageSize i + FRAME_HEADER_LEN < 2 ^ 64 by omega), ok_bind,
    sliceSource_readAt (by omega) (by omega), ok_bind, hcovered, ok_bind, hword 16 (by omega),
    ok_bind, hword 20 (by omega), ok_bind]
  simp only [hpage]
  rfl

/-- **THE LOOP TAKES THE VALID FRAMES**, as many as it is told to look at. -/
theorem openLoop_eq (hlen : WAL_HEADER_LEN ≤ log.length) (left index : Nat) (st : LogState)
    (hsome : index + left ≤ frameCount h.pageSize log) (hcap : index + left < 2 ^ 32)
    (hzero : ∀ f ∈ validRun h.bigEndian h.salt st.running
      (((framesOf h.pageSize log).drop index).take left), f.number ≠ 0) :
    openLoop (sliceSource log) h left index st
      = .ok (st.absorb h index (validRun h.bigEndian h.salt st.running
          (((framesOf h.pageSize log).drop index).take left))) := by
  induction left generalizing index st with
  | zero =>
      rw [take_zero]
      rfl
  | succ left ih =>
      have hlt : index < (framesOf h.pageSize log).length := by
        rw [framesOf, length_map, length_range]
        omega
      have hframe : (framesOf h.pageSize log)[index]
          = LogFrame.parse (frameBytes h.pageSize log index) := by
        simp only [framesOf, getElem_map, getElem_range]
      rw [drop_eq_getElem_cons hlt, take_succ_cons] at hzero ⊢
      rw [openLoop_succ hlen left st (by omega) (by omega) hframe]
      rw [validRun] at hzero ⊢
      split
      · next hsalt =>
        rw [if_neg fun hvalid => hsalt hvalid.1]
        rfl
      · next hsalt =>
        split
        · next hsum =>
          rw [if_neg fun hvalid => hsum hvalid.2.symm]
          rfl
        · next hsum =>
          have hvalid : (framesOf h.pageSize log)[index].salt = h.salt
              ∧ (framesOf h.pageSize log)[index].sum
                = (framesOf h.pageSize log)[index].summed h.bigEndian st.running :=
            ⟨not_not.mp hsalt, (not_not.mp hsum).symm⟩
          rw [if_pos hvalid] at hzero ⊢
          obtain ⟨hhead, htail⟩ := forall_mem_cons.mp hzero
          rw [refuse, dif_neg hhead, ok_bind, absorb]
          have hrunning : ∀ a b c, (st.push index a b c
              ((framesOf h.pageSize log)[index].summed h.bigEndian st.running)).running
                = (framesOf h.pageSize log)[index].summed h.bigEndian st.running := by
            intro a b c
            rw [push]
            split <;> rfl
          rw [ih (index + 1) _ (by omega) (by omega) (by rw [hrunning]; exact htail), hrunning]

/-- The version of a page in every frame, by the place of the page's bytes. -/
def entries (pageSize : Nat) (frames : List LogFrame) : List (Nat × Nat) :=
  frames.zipIdx.map fun p => (p.1.number, frameStart pageSize p.2 + FRAME_HEADER_LEN)

theorem entries_concat (pageSize : Nat) (frames : List LogFrame) (f : LogFrame) :
    entries pageSize (frames ++ [f])
      = entries pageSize frames
        ++ [(f.number, frameStart pageSize frames.length + FRAME_HEADER_LEN)] := by
  rw [entries, zipIdx_append, map_append, Nat.zero_add]
  rfl

theorem map_fst_entries (pageSize : Nat) (frames : List LogFrame) :
    (entries pageSize frames).map Prod.fst = frames.map LogFrame.number := by
  induction frames using List.reverseRecOn with
  | nil => rfl
  | append_singleton frames f ih =>
      rw [entries_concat, map_append, map_append, ih]
      rfl

theorem absorb_concat (index : Nat) (st : LogState) (run : List LogFrame) (f : LogFrame) :
    st.absorb h index (run ++ [f])
      = (st.absorb h index run).push (index + run.length) f.number f.commit
          (frameStart h.pageSize (index + run.length) + FRAME_HEADER_LEN)
          (f.summed h.bigEndian (st.absorb h index run).running) := by
  induction run generalizing index st with
  | nil => rfl
  | cons g run ih =>
      rw [cons_append, absorb, ih, absorb, length_cons,
        show index + 1 + run.length = index + (run.length + 1) by omega]

theorem finalSize_concat (frames : List LogFrame) (f : LogFrame) :
    finalSize (frames ++ [f]) = f.commit := by
  rw [finalSize, getLast?_concat]

/-- **WHAT COUNTS IS WHAT WAS COMMITTED**; the rest is pending. -/
theorem absorb_eq (running : Nat × Nat) (run : List LogFrame) :
    let st := absorb h 0 ⟨running, [], [], 0, 0⟩ run
    st.pages = (entries h.pageSize (committed run)).reverse
      ∧ entries h.pageSize (committed run) ++ st.pending = entries h.pageSize run
      ∧ st.pageCount = finalSize (committed run) := by
  induction run using List.reverseRecOn with
  | nil => exact ⟨rfl, rfl, rfl⟩
  | append_singleton run f ih =>
      obtain ⟨hpages, hpending, hcount⟩ := ih
      dsimp only
      rw [absorb_concat, Nat.zero_add, push]
      by_cases hf : f.commit = 0
      · have hsame : committed (run ++ [f]) = committed run :=
          rdropWhile_concat_pos _ _ _ (by simp [hf])
        rw [if_neg (not_not.mpr hf), hsame, entries_concat, ← hpending, append_assoc]
        exact ⟨hpages, rfl, hcount⟩
      · have hall : committed (run ++ [f]) = run ++ [f] :=
          rdropWhile_concat_neg _ _ _ (by simp [hf])
        rw [if_pos hf, hall, entries_concat, finalSize_concat, ← hpending]
        refine ⟨?_, append_nil _, rfl⟩
        rw [hpages, ← reverse_append, append_assoc]

/-! ### Finding a page -/

theorem newest_concat (frames : List LogFrame) (f : LogFrame) (n : Nat) :
    newest (frames ++ [f]) n = if f.number = n then some f else newest frames n := by
  rw [newest, reverse_append, reverse_singleton, singleton_append, find?_cons]
  by_cases hf : f.number = n
  · rw [if_pos hf, decide_eq_true hf]
  · rw [if_neg hf, decide_eq_false hf]
    rfl

/-- A lookup finds the place of the newest version. -/
theorem lookup_entries (pageSize : Nat) (frames : List LogFrame) (n : Nat) :
    ((entries pageSize frames).reverse.lookup n = none ∧ newest frames n = none) ∨
    ∃ i f, frames[i]? = some f ∧ newest frames n = some f ∧
      (entries pageSize frames).reverse.lookup n
        = some (frameStart pageSize i + FRAME_HEADER_LEN) := by
  induction frames using List.reverseRecOn with
  | nil => exact .inl ⟨rfl, rfl⟩
  | append_singleton frames f ih =>
      rw [entries_concat, reverse_append, reverse_singleton, singleton_append,
        newest_concat, lookup_cons]
      by_cases hf : f.number = n
      · refine .inr ⟨frames.length, f, getElem?_concat_length, if_pos hf, ?_⟩
        rw [hf, beq_self_eq_true]
      · rw [if_neg hf, beq_false_of_ne (Ne.symm hf)]
        rcases ih with hnone | ⟨i, g, hg, hnewest, hlookup⟩
        · exact .inl hnone
        · refine .inr ⟨i, g, ?_, hnewest, hlookup⟩
          obtain ⟨hi, -⟩ := List.getElem?_eq_some_iff.mp hg
          rw [getElem?_append_left hi]
          exact hg

theorem lookup_filter_le (l : List (Nat × Nat)) (hn : n ≤ size) :
    (l.filter fun e => e.1 ≤ size).lookup n = l.lookup n := by
  induction l with
  | nil => rfl
  | cons e l ih =>
      by_cases he : e.1 ≤ size
      · rw [filter_cons_of_pos (by simp [he]), lookup_cons, lookup_cons, ih]
      · rw [filter_cons_of_neg (by simp [he]), ih, lookup_cons,
          beq_false_of_ne (show n ≠ e.1 by omega)]

theorem lookup_filter_gt (l : List (Nat × Nat)) (hn : size < n) :
    (l.filter fun e => e.1 ≤ size).lookup n = none := by
  rw [lookup_eq_none_iff]
  intro e he
  have hle : e.1 ≤ size := by simpa using (mem_filter.mp he).2
  have hne : n ≠ e.1 := by omega
  simpa using hne

/-- Something is left of the pages when some version is within the size. -/
theorem isEmpty_entries (pageSize : Nat) (frames : List LogFrame) :
    ((entries pageSize frames).reverse.filter fun e => e.1 ≤ finalSize frames).isEmpty = true
      ↔ ¬ Contributes frames := by
  rw [List.isEmpty_iff, List.filter_eq_nil_iff, Contributes]
  have hmem : ∀ P : Nat → Prop, (∃ e ∈ entries pageSize frames, P e.1)
      ↔ ∃ f ∈ frames, P f.number := by
    intro P
    have hfst := map_fst_entries pageSize frames
    constructor
    · rintro ⟨e, he, hp⟩
      have : e.1 ∈ frames.map LogFrame.number := hfst ▸ List.mem_map_of_mem he
      obtain ⟨f, hf, hfe⟩ := List.mem_map.mp this
      exact ⟨f, hf, hfe.symm ▸ hp⟩
    · rintro ⟨f, hf, hp⟩
      have : f.number ∈ (entries pageSize frames).map Prod.fst := hfst.symm ▸ List.mem_map_of_mem hf
      obtain ⟨e, he, hef⟩ := List.mem_map.mp this
      exact ⟨e, he, hef.symm ▸ hp⟩
  rw [← hmem fun n => n ≤ finalSize frames]
  simp

end Loop

/-! ## Opening -/

/-- The frames that the loop looks at: as many as 32 bits count. -/
def seenFrames (h : LogHeader) (log : Bytes) : List LogFrame :=
  committed (validRun h.bigEndian h.salt h.running ((framesOf h.pageSize log).take U32_MAX))

/-- The committed prefix of a log. -/
def committedPrefix (h : LogHeader) (log : Bytes) : List LogFrame :=
  committed (validRun h.bigEndian h.salt h.running (framesOf h.pageSize log))

/-- An open log and the frames it serves. -/
structure Serves (w : Wal) (log : Bytes) (size : Nat) (frames : List LogFrame) : Prop where
  source : w.source = sliceSource log
  pageSize : w.pageSize = size
  pages : w.pages = (entries size frames).reverse.filter fun e => e.1 ≤ finalSize frames
  pageCount : w.pageCount = finalSize frames

/-- No valid frame is a version of page 0. -/
def NoPageZero (h : LogHeader) (log : Bytes) : Prop :=
  ∀ f ∈ validRun h.bigEndian h.salt h.running (framesOf h.pageSize log), f.number ≠ 0

/-- Looking at fewer frames finds fewer valid ones. -/
theorem validRun_take (bigEndian : Bool) (salt running : Nat × Nat) (frames : List LogFrame)
    (n : Nat) :
    validRun bigEndian salt running (frames.take n)
      = (validRun bigEndian salt running frames).take n := by
  induction frames generalizing n running with
  | nil => rw [take_nil, validRun, take_nil]
  | cons f frames ih =>
      cases n with
      | zero => rfl
      | succ n =>
          rw [take_succ_cons, validRun, validRun]
          split
          · rw [take_succ_cons, ih]
          · rfl

/-- **A LOG OPENS** as the frames that are looked at. -/
theorem open_eq {log : Bytes} {h : LogHeader} (hlen : WAL_HEADER_LEN ≤ log.length)
    (hparse : LogHeader.parse (log.take WAL_HEADER_LEN) = .ok h) (hzero : NoPageZero h log) :
    ∃ w, Wal.open (sliceSource log) = .ok w ∧ Serves w log h.pageSize (seenFrames h log) := by
  have hread : (sliceSource log).readAt 0 WAL_HEADER_LEN
      = .ok ⟨log.take WAL_HEADER_LEN, length_cut (show 0 + _ ≤ _ by omega)⟩ :=
    sliceSource_readAt (by omega) (by decide)
  have hframes : (framesOf h.pageSize log).take (min (frameCount h.pageSize log) U32_MAX)
      = (framesOf h.pageSize log).take U32_MAX := by
    have hlength : (framesOf h.pageSize log).length = frameCount h.pageSize log := by
      rw [framesOf, length_map, length_range]
    rw [← hlength, Nat.min_comm, ← take_eq_take_min]
  have hloop := openLoop_eq (h := h) hlen (min (frameCount h.pageSize log) U32_MAX) 0
    ⟨h.running, [], [], 0, 0⟩ (by omega) (by rw [U32_MAX]; omega) (by
      rw [drop_zero, hframes, validRun_take]
      exact fun f hf => hzero f (mem_of_mem_take hf))
  rw [drop_zero, hframes] at hloop
  obtain ⟨hpages, -, hcount⟩ := absorb_eq (h := h) h.running
    (validRun h.bigEndian h.salt h.running ((framesOf h.pageSize log).take U32_MAX))
  have hsource : (sliceSource log).len = .ok log.length := rfl
  rw [Wal.open, hsource, ok_bind, if_neg (Nat.not_lt.mpr hlen), hread, ok_bind, hparse, ok_bind,
    minus_eq hlen, ok_bind]
  change ∃ w, openLoop (sliceSource log) h (min (frameCount h.pageSize log) U32_MAX) 0 _ >>= _ = _
    ∧ _
  rw [hloop, ok_bind]
  refine ⟨_, rfl, rfl, rfl, ?_, hcount⟩
  dsimp only
  rw [hpages, hcount]
  rfl

/-! ## Reading -/

instance (frames : List LogFrame) : Decidable (Contributes frames) :=
  inferInstanceAs (Decidable (∃ f ∈ frames, f.number ≤ finalSize frames))

/-- **THE OVERLAY**: the byte of the newest version of a page, and of the main
    file where there is no version. -/
def overlaid (main : Bytes) (size : Nat) (frames : List LogFrame) (x : Nat) : Option UInt8 :=
  match newest frames (x / size + 1) with
  | some f => f.page[x % size]?
  | none => main[x]?

/-- How long a database with these frames is. -/
def seenLen (main : Bytes) (size : Nat) (frames : List LogFrame) : Nat :=
  if Contributes frames then finalSize frames * size else main.length

/-- What is read at a place of a database with these frames: frames that
    contribute nothing are no log. -/
def seenByte (main : Bytes) (size : Nat) (frames : List LogFrame) (x : Nat) : Option UInt8 :=
  if Contributes frames ∧ x / size + 1 ≤ finalSize frames then overlaid main size frames x
  else main[x]?

/-- A result is what is seen, or an error because something is not there. -/
def ReadsAs (see : Nat → Option UInt8) (start count : Nat)
    (res : Result { b : Bytes // b.length = count }) : Prop :=
  (∃ part, res = .ok part ∧ ∀ i, i < count → part.val[i]? = see (start + i)) ∨
  ∃ e, res = .error e ∧ ∃ i, i < count ∧ see (start + i) = none

theorem ReadsAs.congr {see see' : Nat → Option UInt8}
    {res : Result { b : Bytes // b.length = count }} (h : ReadsAs see start count res)
    (heq : ∀ i, i < count → see (start + i) = see' (start + i)) : ReadsAs see' start count res := by
  rcases h with ⟨part, hres, hpart⟩ | ⟨e, hres, i, hi, hnone⟩
  · exact .inl ⟨part, hres, fun i hi => (hpart i hi).trans (heq i hi)⟩
  · exact .inr ⟨e, hres, i, hi, (heq i hi).symm.trans hnone⟩

/-- Bytes in memory read as they are. -/
theorem sliceSource_readsAs (bytes : Bytes) (hpos : 0 < count) (hsmall : start + count < 2 ^ 64) :
    ReadsAs (fun x => bytes[x]?) start count ((sliceSource bytes).readAt start count) := by
  by_cases hin : start + count ≤ bytes.length
  · refine .inl ⟨_, sliceSource_readAt hin hsmall, fun i hi => ?_⟩
    rw [getElem?_take_of_lt hi, getElem?_drop]
  · refine .inr ⟨UNEXPECTED_EOF, ?_, count - 1, by omega, ?_⟩
    · show (if 2 ^ 64 ≤ start + count then _ else if h : _ then _ else _) = _
      rw [if_neg (Nat.not_le.mpr hsmall), dif_pos (Nat.lt_of_not_le hin)]
    · exact getElem?_eq_none (by omega)

section Read

variable {main log : Bytes} {h : LogHeader} {w : Wal}

theorem validRun_front (bigEndian : Bool) (salt running : Nat × Nat) (frames : List LogFrame) :
    validRun bigEndian salt running frames <+: frames := by
  induction frames generalizing running with
  | nil => exact prefix_rfl
  | cons f frames ih =>
      rw [validRun]
      split
      · exact prefix_cons_inj f |>.mpr (ih _)
      · exact nil_prefix

/-- The frames of a prefix of a log's. -/
theorem frames_getElem (hfront : frames <+: framesOf size log) (hf : frames[i]? = some f) :
    i < frameCount size log ∧ f = LogFrame.parse (frameBytes size log i) := by
  obtain ⟨rest, hrest⟩ := hfront
  obtain ⟨hi, -⟩ := List.getElem?_eq_some_iff.mp hf
  have hframe : (framesOf size log)[i]? = some f := by
    rw [← hrest, getElem?_append_left hi]
    exact hf
  rw [framesOf, getElem?_map] at hframe
  obtain ⟨j, hj, rfl⟩ := Option.map_eq_some_iff.mp hframe
  obtain ⟨hlt, hget⟩ := List.getElem?_eq_some_iff.mp hj
  rw [length_range] at hlt
  rw [getElem_range] at hget
  subst hget
  exact ⟨hlt, rfl⟩

theorem seenFrames_front (h : LogHeader) (log : Bytes) :
    seenFrames h log <+: (framesOf h.pageSize log).take U32_MAX :=
  rdropWhile_prefix _ _ |>.trans (validRun_front _ _ _ _)

theorem committedPrefix_front (h : LogHeader) (log : Bytes) :
    committedPrefix h log <+: framesOf h.pageSize log :=
  rdropWhile_prefix _ _ |>.trans (validRun_front _ _ _ _)

theorem finalSize_lt (hfront : frames <+: framesOf size log) : finalSize frames < 2 ^ 32 := by
  rw [finalSize]
  split
  · next f hlast =>
    obtain ⟨i, hi⟩ := mem_iff_getElem?.mp (mem_of_getLast? hlast)
    obtain ⟨-, rfl⟩ := frames_getElem hfront hi
    exact wordAt_lt _ _
  · decide

/-- The bytes of a version of a page, in the log. -/
theorem frame_page (hlen : WAL_HEADER_LEN ≤ log.length) (hfront : frames <+: framesOf size log)
    (hf : frames[i]? = some f) : f.page.length = size ∧ ∀ j, j < size →
      f.page[j]? = log[frameStart size i + FRAME_HEADER_LEN + j]? := by
  obtain ⟨hi, rfl⟩ := frames_getElem hfront hf
  have hin := frame_le hlen hi
  constructor
  · show ((frameBytes size log i).drop FRAME_HEADER_LEN).length = _
    rw [length_drop, frameBytes, length_cut hin]
    omega
  · intro j hj
    show ((frameBytes size log i).drop FRAME_HEADER_LEN)[j]? = _
    rw [getElem?_drop, frameBytes, getElem?_take_of_lt (by omega), getElem?_drop,
      Nat.add_assoc]

/-- Bytes of one page are at the same page. -/
theorem div_of_within (hi : start % size + i < size) :
    (start + i) / size = start / size ∧ (start + i) % size = start % size + i := by
  have hpos : 0 < size := by omega
  have hdiv := Nat.div_add_mod start size
  have hsum : start + i = start % size + i + size * (start / size) := by omega
  constructor
  · rw [hsum, Nat.add_mul_div_left _ _ hpos, Nat.div_eq_of_lt hi, Nat.zero_add]
  · rw [hsum, Nat.add_mul_mod_self_left, Nat.mod_eq_of_lt hi]

variable (main) in
/-- **ONE PAGE OF A READ** comes from the log or the main file, as the overlay
    says. -/
theorem readPart_readsAs (hlen : WAL_HEADER_LEN ≤ log.length)
    (hw : Serves w log h.pageSize (seenFrames h log)) (hc : Contributes (seenFrames h log))
    (hpos : 0 < count) (hroom : start % h.pageSize + count ≤ h.pageSize)
    (hsmall : start + count < 2 ^ 64) :
    ReadsAs (seenByte main h.pageSize (seenFrames h log)) start count
      (readPart (sliceSource main) w (start / h.pageSize + 1) (start % h.pageSize) start
        count) := by
  have hpage : ∀ i, i < count → (start + i) / h.pageSize = start / h.pageSize
      ∧ (start + i) % h.pageSize = start % h.pageSize + i :=
    fun i hi => div_of_within (by omega)
  have hfront := (seenFrames_front h log).trans <| take_prefix _ _
  have hfinal := finalSize_lt hfront
  have hleast := h.least
  have hmain := sliceSource_readsAs main hpos hsmall
  by_cases hn : start / h.pageSize + 1 ≤ finalSize (seenFrames h log)
  · have hsee : ∀ i, i < count → seenByte main h.pageSize (seenFrames h log) (start + i)
        = overlaid main h.pageSize (seenFrames h log) (start + i) := by
      intro i hi
      rw [seenByte, if_pos ⟨hc, by rw [(hpage i hi).1]; exact hn⟩]
    rw [readPart, if_pos (by omega), Wal.readPagePart, hw.pages, lookup_filter_le _ hn]
    rcases lookup_entries h.pageSize (seenFrames h log) (start / h.pageSize + 1) with
      ⟨hlookup, hnewest⟩ | ⟨k, f, hf, hnewest, hlookup⟩
    · rw [hlookup]
      refine hmain.congr fun i hi => ?_
      rw [hsee i hi, overlaid, (hpage i hi).1, hnewest]
    · obtain ⟨hk, -⟩ := frames_getElem hfront hf
      obtain ⟨-, hbytes⟩ := frame_page hlen hfront hf
      have hcap : k < 2 ^ 32 := by
        obtain ⟨hlt, -⟩ := List.getElem?_eq_some_iff.mp hf
        have hle := (seenFrames_front h log).length_le.trans (length_take_le _ _)
        rw [U32_MAX] at hle
        omega
      have hin := frame_le hlen hk
      obtain ⟨-, hfar⟩ := frameStart_lt h hcap
      have hread : (sliceSource log).readAt
          (frameStart h.pageSize k + FRAME_HEADER_LEN + start % h.pageSize) count = .ok _ :=
        sliceSource_readAt (by omega) (by omega)
      rw [hlookup]
      dsimp only
      rw [plus_eq (by have := h.small; omega), ok_bind, refuse,
        dif_neg (by rw [hw.pageSize]; omega), ok_bind, plus_eq (by omega), ok_bind, hw.source,
          hread]
      refine .inl ⟨_, rfl, fun i hi => ?_⟩
      dsimp only
      rw [hsee i hi, overlaid, (hpage i hi).1, hnewest, getElem?_take_of_lt hi,
        getElem?_drop]
      dsimp only
      rw [(hpage i hi).2, hbytes _ (by omega), Nat.add_assoc _ (start % h.pageSize) i]
  · -- past the committed size the log has no page
    have hnone : w.pages.lookup (start / h.pageSize + 1) = none := by
      rw [hw.pages]
      exact lookup_filter_gt _ (by omega)
    have heq : readPart (sliceSource main) w (start / h.pageSize + 1)
        (start % h.pageSize) start count = (sliceSource main).readAt start count := by
      rw [readPart, Wal.readPagePart, hnone]
      split <;> rfl
    rw [heq]
    refine hmain.congr fun i hi => ?_
    rw [seenByte, if_neg fun hsee => hn (by rw [← (hpage i hi).1]; exact hsee.2)]

variable (main) in
/-- **A READ IS ITS PAGES**, however it is split. -/
theorem readLoop_readsAs (hlen : WAL_HEADER_LEN ≤ log.length)
    (hw : Serves w log h.pageSize (seenFrames h log)) (hc : Contributes (seenFrames h log))
    (offset fuel done left : Nat) (hfuel : left ≤ fuel) (hsmall : offset + done + left < 2 ^ 64) :
    ReadsAs (seenByte main h.pageSize (seenFrames h log)) (offset + done) left
      (readLoop (sliceSource main) w h.pageSize offset fuel done left) := by
  induction fuel generalizing done left with
  | zero =>
      obtain rfl : left = 0 := by omega
      rw [readLoop]
      exact .inl ⟨_, rfl, fun i hi => absurd hi (Nat.not_lt_zero i)⟩
  | succ fuel ih =>
      cases left with
      | zero =>
          rw [readLoop]
          exact .inl ⟨_, rfl, fun i hi => absurd hi (Nat.not_lt_zero i)⟩
      | succ left =>
          have hleast := h.least
          have hwithin : (offset + done) % h.pageSize < h.pageSize := Nat.mod_lt _ (by omega)
          rw [readLoop, plus_eq (by omega), ok_bind, minus_eq hwithin.le, ok_bind]
          set take := min (h.pageSize - (offset + done) % h.pageSize) (left + 1) with htake
          have htake' : 0 < take ∧ take ≤ left + 1
              ∧ (offset + done) % h.pageSize + take ≤ h.pageSize := by omega
          obtain ⟨hpos, hle, hroom⟩ := htake'
          have hpart := readPart_readsAs main hlen hw hc hpos hroom (by omega)
          have hrest := ih (done + take) (left + 1 - take) (by omega) (by omega)
          rw [← Nat.add_assoc] at hrest
          rcases hpart with ⟨part, hres, hbytes⟩ | ⟨e, hres, i, hi, hnone⟩
          · rw [hres, ok_bind]
            rcases hrest with ⟨rest, hres', hbytes'⟩ | ⟨e, hres', i, hi, hnone⟩
            · rw [hres', ok_bind]
              refine .inl ⟨_, rfl, fun i hi => ?_⟩
              dsimp only
              by_cases hlt : i < take
              · rw [getElem?_append_left (by rw [part.property]; exact hlt)]
                exact hbytes i hlt
              · rw [getElem?_append_right (by rw [part.property]; omega), part.property,
                  hbytes' _ (by omega)]
                congr 1
                omega
            · rw [hres']
              refine .inr ⟨e, rfl, take + i, by omega, ?_⟩
              rw [← Nat.add_assoc]
              exact hnone
          · rw [hres]
            exact .inr ⟨e, rfl, i, by omega, hnone⟩

/-! ## A database with its log -/

/-- What `new` makes of a main file and a log. -/
theorem new_eq {header : Header} (hmain : HEADER_LEN ≤ main.length)
    (hheader : Header.parse (main.take HEADER_LEN) = .ok header)
    (hlen : WAL_HEADER_LEN ≤ log.length)
    (hparse : LogHeader.parse (log.take WAL_HEADER_LEN) = .ok h)
    (hsize : h.pageSize = header.pageSize) (hzero : NoPageZero h log) :
    ∃ ws, new (sliceSource main) (some (sliceSource log)) = .ok ws
      ∧ ws.main = sliceSource main ∧ ws.pageSize = h.pageSize
      ∧ ((Contributes (seenFrames h log) ∧ ∃ w, ws.log = some w
          ∧ Serves w log h.pageSize (seenFrames h log)
          ∧ ws.pageCount = finalSize (seenFrames h log))
        ∨ (¬ Contributes (seenFrames h log) ∧ ws.log = none)) := by
  obtain ⟨w, hopen, hw⟩ := open_eq hlen hparse hzero
  have hread : (sliceSource main).readAt 0 HEADER_LEN
      = .ok ⟨main.take HEADER_LEN, length_cut (show 0 + _ ≤ _ by omega)⟩ :=
    sliceSource_readAt (by omega) (by decide)
  have hsource : (sliceSource main).len = .ok main.length := rfl
  have hempty : w.isEmpty = true ↔ ¬ Contributes (seenFrames h log) := by
    rw [Wal.isEmpty, hw.pages]
    exact isEmpty_entries _ _
  have huse : useLog header.pageSize (some (sliceSource log))
      = .ok (if w.isEmpty then none else some w) := by
    rw [useLog, hopen, ok_bind, refuse,
      dif_neg fun hne => hne.2 (hw.pageSize.trans hsize)]
    rfl
  rw [new, hsource, ok_bind, refuse, dif_neg (Nat.not_lt.mpr hmain), ok_bind, hread,
    ok_bind, hheader, ok_bind, huse, ok_bind]
  by_cases hc : Contributes (seenFrames h log)
  · rw [if_neg fun he => hempty.mp he hc]
    exact ⟨_, rfl, rfl, hsize.symm, .inl ⟨hc, w, rfl, hw, hw.pageCount⟩⟩
  · rw [if_pos (hempty.mpr hc)]
    exact ⟨_, rfl, rfl, hsize.symm, .inr ⟨hc, rfl⟩⟩

end Read

end QuantySqlite
