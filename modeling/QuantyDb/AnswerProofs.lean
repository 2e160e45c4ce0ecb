import QuantyDb.KeyEncodingProofs
import QuantyDb.AnswerModel

/-! # An answer ends exactly once

    Rendering is total and encoding is not: a message over one of the limits is
    dropped on the way to the wire.  What reaches the client is therefore the
    frames of those messages that do encode, and that is an answer exactly when
    the result stays within the limits that `render` does not look at. -/

namespace QuantyAnswer

open QuantyKey QuantyPage QuantyEncoding QuantyAst QuantyProto QuantyConn LittleEndian List Writer
open ServerMessage

/-! ## Writers -/

/-- The bytes a string takes. -/
def size (s : String) : Nat := (asBytes s).length

/-- A length-prefixed byte string. -/
def prefixed (b : Bytes) : Bytes := le 4 b.length ++ b

theorem length_prefixed (b : Bytes) : (prefixed b).length = 4 + b.length := by
  rw [prefixed, length_append, length_le]

theorem raw_raw (w : Writer) (a b : Bytes) : (w.raw a).raw b = w.raw (a ++ b) := by
  simp [raw]

/-- A write that may fail: it appends its bytes, or it leaves an error behind;
    and an error is never taken back. -/
structure Puts (f : Writer → Writer) (fits : Prop) (out : Bytes) : Prop where
  fine : fits → ∀ w, f w = w.raw out
  fails : ¬ fits → ∀ w, (f w).err ≠ none
  keeps : ∀ w, w.err ≠ none → (f w).err ≠ none

theorem fail_err (w : Writer) (e : ProtoError) : (w.fail e).err ≠ none := by
  unfold fail
  cases h : w.err with
  | none => exact Option.some_ne_none e
  | some d => rw [h]; exact Option.some_ne_none d

theorem puts_bytes (b : Bytes) : Puts (bytes · b) (b.length ≤ MAX_BODY) (prefixed b) where
  fine h w := by
    rw [bytes, if_neg (Nat.not_lt.mpr h), u32, raw_raw, prefixed]
  fails h w := by
    rw [bytes, if_pos (Nat.not_le.mp h)]
    exact fail_err w _
  keeps w hw := by
    rw [bytes]
    split
    · exact fail_err w _
    · exact hw

theorem puts_raw (b : Bytes) : Puts (raw · b) True b where
  fine _ _ := rfl
  fails h := absurd trivial h
  keeps _ hw := hw

theorem puts_count (n hardMax : Nat) : Puts (Writer.count · n hardMax) (n ≤ hardMax) (le 4 n) where
  fine h w := by rw [Writer.count, if_neg (Nat.not_lt.mpr h), Writer.u32]
  fails h w := by
    rw [Writer.count, if_pos (Nat.not_le.mp h)]
    exact fail_err w _
  keeps w hw := by
    rw [Writer.count]
    split
    · exact fail_err w _
    · exact hw

variable {f : Writer → Writer} {p : Prop} {b out : Bytes} {t : UInt8} {m : ServerMessage}
  {q : Prop} {a body : Bytes} {α : Type} {rows : List (List Value)}

theorem Puts.then {g : Writer → Writer} (hf : Puts f p a) (hg : Puts g q b) :
    Puts (fun w => g (f w)) (p ∧ q) (a ++ b) where
  fine h w := by
    show g (f w) = _
    rw [hf.fine h.1, hg.fine h.2, raw_raw]
  fails h w := by
    by_cases hp : p
    · exact hg.fails (fun hq => h ⟨hp, hq⟩) (f w)
    · exact hg.keeps _ (hf.fails hp w)
  keeps w hw := hg.keeps _ (hf.keeps w hw)

theorem Puts.congr (hf : Puts f p a) (h : p ↔ q) : Puts f q a where
  fine hq := hf.fine (h.mpr hq)
  fails hq := hf.fails (fun hp => hq (h.mp hp))
  keeps := hf.keeps

/-- A list written element by element. -/
theorem puts_foldl {g : Writer → α → Writer} {p : α → Prop} {out : α → Bytes}
    (hg : ∀ x, Puts (g · x) (p x) (out x)) (l : List α) :
    Puts (fun w => l.foldl g w) (∀ x ∈ l, p x) (l.flatMap out) := by
  induction l with
  | nil =>
      refine ⟨fun _ w => ?_, fun h => absurd (fun x hx => nomatch hx) h, fun w hw => hw⟩
      rw [flatMap_nil, raw, append_nil]
      rfl
  | cons x l ih =>
      refine ((hg x).then ih).congr ?_
      exact forall_mem_cons.symm

/-- What a writer is finished with, from nothing. -/
theorem Puts.finish (hf : Puts f p out) :
    (p → (f new).finish = .ok out) ∧ (¬ p → ∃ e, (f new).finish = .error e) := by
  constructor
  · intro hp
    rw [hf.fine hp]
    rfl
  · intro hp
    obtain ⟨e, he⟩ := Option.ne_none_iff_exists'.mp (hf.fails hp new)
    exact ⟨e, by rw [Writer.finish, he]⟩

/-! ## Frames -/

/-- The frame of a body. -/
def frameBytes (msgType : UInt8) (body : Bytes) : Bytes := msgType :: prefixed body

theorem frame_eq (t : UInt8) (body : Bytes) :
    frame t body = if body.length > MAX_BODY then .error (.tooLarge body.length MAX_BODY)
      else .ok (frameBytes t body) := by
  rw [frame]
  split
  · rfl
  · show Except.ok _ = Except.ok _
    simp [raw, u8, u32, new, frameBytes, prefixed]

/-- A body that is written so gets a frame exactly when that fits. -/
theorem frame_of_puts {body : Except ProtoError Bytes} (hbody : body = (f new).finish)
    (hf : Puts f p out) :
    (p ∧ out.length ≤ MAX_BODY → (body >>= frame t) = .ok (frameBytes t out)) ∧
      (¬ (p ∧ out.length ≤ MAX_BODY) → ∃ e, (body >>= frame t) = .error e) := by
  obtain ⟨hfine, hfails⟩ := hf.finish
  refine ⟨fun h => ?_, fun h => ?_⟩
  · rw [hbody, hfine h.1]
    show frame t out = _
    rw [frame_eq, if_neg (Nat.not_lt.mpr h.2)]
  · rw [hbody]
    by_cases hp : p
    · rw [hfine hp]
      show ∃ e, frame t out = .error e
      rw [frame_eq, if_pos (Nat.not_le.mp (fun hle => h ⟨hp, hle⟩))]
      exact ⟨_, rfl⟩
    · obtain ⟨e, he⟩ := hfails hp
      exact ⟨e, by rw [he]; rfl⟩

/-- A message whose body is written so is encoded exactly when that fits. -/
theorem encode_of_puts (hbody : m.body = (f new).finish) (hf : Puts f p out) :
    (p ∧ out.length ≤ MAX_BODY → m.encode = .ok (frameBytes m.msgType out)) ∧
      (¬ (p ∧ out.length ≤ MAX_BODY) → ∃ e, m.encode = .error e) :=
  frame_of_puts hbody hf

/-- Frames as a peer takes them apart. -/
def splitFrames : Nat → Bytes → Option (List (UInt8 × Bytes))
  | _, [] => some []
  | 0, _ :: _ => none
  | fuel + 1, b :: buf =>
      let bytes := b :: buf
      if bytes.length < HEADER_LEN then none
      else match FrameHeader.decode (bytes.take HEADER_LEN) with
        | .error _ => none
        | .ok header =>
            if bytes.length < HEADER_LEN + header.bodyLen then none
            else (splitFrames fuel (bytes.drop (HEADER_LEN + header.bodyLen))).map
              ((header.msgType, slice HEADER_LEN header.bodyLen bytes) :: ·)

theorem decode_header (t : UInt8) (h : body.length ≤ MAX_BODY) :
    FrameHeader.decode (t :: le 4 body.length) = .ok ⟨t, body.length⟩ := by
  have hlt : body.length < 256 ^ 4 := lt_of_le_of_lt h (by decide)
  have hslice : slice 1 4 (t :: le 4 body.length) = le 4 body.length := by
    rw [slice, drop_succ_cons, drop_zero, take_of_length_le (by rw [length_le])]
  simp only [FrameHeader.decode, hslice, ofLe_le hlt]
  rw [if_neg (Nat.not_lt.mpr h)]
  rfl

/-- One frame is cut off what is left. -/
theorem splitFrames_succ (fuel : Nat) {bytes : Bytes} {header : FrameHeader}
    (hdecode : FrameHeader.decode (bytes.take HEADER_LEN) = .ok header)
    (hwhole : HEADER_LEN + header.bodyLen ≤ bytes.length) :
    splitFrames (fuel + 1) bytes
      = (splitFrames fuel (bytes.drop (HEADER_LEN + header.bodyLen))).map
          ((header.msgType, slice HEADER_LEN header.bodyLen bytes) :: ·) := by
  have hlong : HEADER_LEN ≤ bytes.length := (Nat.le_add_right _ _).trans hwhole
  cases bytes with
  | nil => exact absurd hlong (by decide)
  | cons b buf =>
      rw [splitFrames]
      simp only [if_neg (Nat.not_lt.mpr hlong), hdecode, if_neg (Nat.not_lt.mpr hwhole)]

theorem splitFrames_cons (h : body.length ≤ MAX_BODY) (fuel : Nat) (rest : Bytes) :
    splitFrames (fuel + 1) (frameBytes t body ++ rest)
      = (splitFrames fuel rest).map ((t, body) :: ·) := by
  have hlen : (le 4 body.length).length = 4 := length_le 4 _
  have htake : (frameBytes t body ++ rest).take HEADER_LEN = t :: le 4 body.length := by
    show List.take 5 (t :: (prefixed body ++ rest)) = _
    rw [take_succ_cons, prefixed, append_assoc, take_left' hlen]
  have hdecode : FrameHeader.decode ((frameBytes t body ++ rest).take HEADER_LEN)
      = .ok ⟨t, body.length⟩ := by rw [htake, decode_header t h]
  have hwhole : (frameBytes t body).length = HEADER_LEN + body.length := by
    rw [frameBytes, length_cons, length_prefixed, HEADER_LEN]
    omega
  have hbody : slice HEADER_LEN body.length (frameBytes t body ++ rest) = body := by
    have hsplit : frameBytes t body ++ rest = (t :: le 4 body.length) ++ (body ++ rest) := by
      simp [frameBytes, prefixed]
    rw [hsplit]
    exact slice_append (by rw [length_cons, hlen]; rfl) rfl
  have hdrop : (frameBytes t body ++ rest).drop (HEADER_LEN + body.length) = rest := by
    rw [← hwhole, drop_left]
  have hge : HEADER_LEN + body.length ≤ (frameBytes t body ++ rest).length := by
    rw [length_append, hwhole]
    omega
  rw [splitFrames_succ fuel hdecode hge, hdrop, hbody]

/-! ## What reaches the wire -/

/-- The bytes that answering a request adds to what a connection sends. -/
def wire (c : Conn) (messages : List ServerMessage) : Bytes :=
  (c.resume messages).outbuf.drop c.outbuf.length

/-- The messages of an answer that do get a frame. -/
def sent (messages : List ServerMessage) : List ServerMessage :=
  messages.filter (fun m => m.encode.isOk)

theorem encode_eq_ok (h : m.encode = .ok b) :
    ∃ body : Bytes, body.length ≤ MAX_BODY ∧ b = frameBytes m.msgType body := by
  rw [encode] at h
  cases hbody : m.body with
  | error e => rw [hbody] at h; nomatch h
  | ok body =>
      rw [hbody] at h
      have hframe : frame m.msgType body = .ok b := h
      rw [frame_eq] at hframe
      split at hframe
      · nomatch hframe
      · exact ⟨body, by omega, (Except.ok.inj hframe).symm⟩

theorem sent_cons_ok (h : m.encode = .ok b) (rest : List ServerMessage) :
    sent (m :: rest) = m :: sent rest := by
  rw [sent, filter_cons_of_pos (by rw [h]; rfl), sent]

theorem sent_cons_error {e : ProtoError} (h : m.encode = .error e) (rest : List ServerMessage) :
    sent (m :: rest) = sent rest := by
  rw [sent, filter_cons_of_neg (by rw [h]; exact nofun), sent]

/-- The connection sends the frames of the messages that encode, one after
    another, and a peer takes them apart again. -/
theorem resume_sends (messages : List ServerMessage) (c : Conn) :
    ∃ out : Bytes, (messages.foldl Conn.push c).outbuf = c.outbuf ++ out ∧
      (sent messages).length ≤ out.length ∧
      ∀ fuel, (sent messages).length ≤ fuel → ∃ fs, splitFrames fuel out = some fs ∧
        fs.map Prod.fst = (sent messages).map msgType := by
  induction messages generalizing c with
  | nil => exact ⟨[], (append_nil _).symm, le_rfl, fun fuel _ => ⟨[], by cases fuel <;> rfl, rfl⟩⟩
  | cons m rest ih =>
      cases henc : m.encode with
      | error e =>
          obtain ⟨out, hout, hlen, hsplit⟩ := ih { c with phase := .draining }
          rw [sent_cons_error henc]
          refine ⟨out, ?_, hlen, hsplit⟩
          rw [foldl_cons, Conn.push, henc]
          exact hout
      | ok b =>
          obtain ⟨body, hbody, rfl⟩ := encode_eq_ok henc
          obtain ⟨out, hout, hlen, hsplit⟩ :=
            ih { c with outbuf := c.outbuf ++ frameBytes m.msgType body }
          rw [sent_cons_ok henc]
          refine ⟨frameBytes m.msgType body ++ out, ?_, ?_, ?_⟩
          · rw [foldl_cons, Conn.push, henc]
            exact hout.trans (append_assoc _ _ _)
          · rw [length_cons, length_append, frameBytes, length_cons]
            omega
          · intro fuel hfuel
            rw [length_cons] at hfuel
            obtain ⟨fuel, rfl⟩ := Nat.exists_eq_add_of_le' (Nat.le_of_add_left_le hfuel)
            obtain ⟨fs, hfs, htypes⟩ := hsplit fuel (by omega)
            refine ⟨(m.msgType, body) :: fs, ?_, ?_⟩
            · rw [splitFrames_cons hbody, hfs]
              rfl
            · rw [map_cons, map_cons, htypes]

/-! ## An answer -/

/-- The types under which a terminal message travels. -/
def terminalTypes : List UInt8 := [T_OK, T_COUNT, T_ROWS_END, T_LINES, T_ERROR]

theorem isTerminal_iff (m : ServerMessage) : m.isTerminal ↔ m.msgType ∈ terminalTypes := by
  cases m <;> simp [isTerminal, msgType, terminalTypes, T_READY, T_OK,
    T_COUNT, T_ROWS_BEGIN, T_ROW_BATCH, T_ROWS_END, T_LINES, T_ERROR]

/-- Frames of these types are an answer: one terminal message, at the end, and
    batches of rows only after the message that opens them. -/
def OneAnswer (types : List UInt8) : Prop :=
  ∃ init last, types = init ++ [last] ∧ last ∈ terminalTypes ∧ (∀ t ∈ init, t ∉ terminalTypes) ∧
    ∀ pre post, types = pre ++ T_ROW_BATCH :: post → T_ROWS_BEGIN ∈ pre

/-- What a client reads off these bytes is an answer. -/
def Answers (bytes : Bytes) : Prop :=
  ∃ fs, splitFrames bytes.length bytes = some fs ∧ OneAnswer (fs.map Prod.fst)

/-- **ONLY WHAT ENCODES COUNTS**: the bytes answer the client exactly when the
    messages that get a frame do. -/
theorem answers_iff_sent (c : Conn) (messages : List ServerMessage) :
    Answers (wire c messages) ↔ OneAnswer ((sent messages).map msgType) := by
  obtain ⟨out, hout, hlen, hsplit⟩ := resume_sends messages { c with awaiting := false }
  have hwire : wire c messages = out := by
    rw [wire, Conn.resume, hout]
    exact drop_left
  obtain ⟨fs, hfs, htypes⟩ := hsplit out.length hlen
  rw [hwire, ← htypes]
  constructor
  · rintro ⟨gs, hgs, h⟩
    rw [hfs] at hgs
    exact Option.some.inj hgs ▸ h
  · intro h
    exact ⟨fs, hfs, h⟩

theorem not_oneAnswer_nil : ¬ OneAnswer [] := by
  rintro ⟨init, last, h, -⟩
  exact absurd h.symm (append_ne_nil_of_right_ne_nil init (cons_ne_nil last []))

theorem oneAnswer_single (h : t ∈ terminalTypes) : OneAnswer [t] := by
  refine ⟨[], t, rfl, h, fun x hx => absurd hx not_mem_nil, fun pre post hsplit => ?_⟩
  have hmem : T_ROW_BATCH ∈ [t] := hsplit ▸ mem_append_right pre (.head _)
  rw [mem_singleton] at hmem
  exact absurd (hmem ▸ h) (by decide)

/-- One terminal message answers exactly when it gets a frame. -/
theorem answers_single (hm : m.isTerminal) (hok : p → ∃ b, m.encode = .ok b)
    (herr : ¬ p → ∃ e, m.encode = .error e) (c : Conn) : Answers (wire c [m]) ↔ p := by
  rw [answers_iff_sent]
  by_cases hp : p
  · obtain ⟨b, hb⟩ := hok hp
    rw [sent_cons_ok hb]
    exact iff_of_true (oneAnswer_single ((isTerminal_iff m).mp hm)) hp
  · obtain ⟨e, he⟩ := herr hp
    rw [sent_cons_error he]
    exact iff_of_false not_oneAnswer_nil hp

/-- Batches of rows and the message that ends them, with or without the one
    that opens them. -/
theorem oneAnswer_rows {opened : List UInt8} {n : Nat} {last : UInt8}
    (hopen : opened = [] ∨ opened = [T_ROWS_BEGIN]) (hlast : last ∈ terminalTypes) :
    OneAnswer (opened ++ (List.replicate n T_ROW_BATCH ++ [last])) ↔ opened ≠ [] ∨ n = 0 := by
  have hplain : ∀ t ∈ opened ++ List.replicate n T_ROW_BATCH, t ∉ terminalTypes := by
    intro t ht
    rcases mem_append.mp ht with h | h
    · rcases hopen with rfl | rfl
      · nomatch h
      · rw [mem_singleton.mp h]
        decide
    · rw [(mem_replicate.mp h).2]
      decide
  constructor
  · rintro ⟨init, l, -, -, -, hbatch⟩
    rcases hopen with rfl | rfl
    · cases n with
      | zero => exact .inr rfl
      | succ n => exact absurd (hbatch [] _ rfl) not_mem_nil
    · exact .inl (cons_ne_nil _ _)
  · intro h
    refine ⟨opened ++ List.replicate n T_ROW_BATCH, last, (append_assoc ..).symm, hlast, hplain, ?_⟩
    intro pre post hsplit
    rcases hopen with rfl | rfl
    · obtain rfl : n = 0 := h.resolve_left (fun hne => hne rfl)
      have hmem : T_ROW_BATCH ∈ [last] := by
        have : [last] = pre ++ T_ROW_BATCH :: post := hsplit
        rw [this]
        exact mem_append_right pre (.head _)
      rw [mem_singleton] at hmem
      exact absurd (hmem ▸ hlast) (by decide)
    · cases pre with
      | nil =>
          have hhead : T_ROWS_BEGIN = T_ROW_BATCH := (List.cons.inj hsplit).1
          exact absurd hhead (by decide)
      | cons x pre =>
          have hhead : T_ROWS_BEGIN = x := (List.cons.inj hsplit).1
          rw [← hhead]
          exact .head _

/-! ## Messages over lists of strings -/

/-- The body of a list of strings. -/
def textsLen (ss : List String) : Nat := 4 + (ss.map (fun s => 4 + size s)).sum

theorem length_flatMap_prefixed (f : α → Bytes) (l : List α) :
    (l.flatMap (fun x => prefixed (f x))).length = (l.map (fun x => 4 + (f x).length)).sum := by
  simp [length_flatMap, length_prefixed]

/-- A counted list of strings is encoded exactly when it is short enough in
    both senses. -/
theorem encode_texts (ss : List String) (hardMax : Nat)
    (hbody : m.body = (ss.foldl text (new.count ss.length hardMax)).finish) :
    (ss.length ≤ hardMax ∧ textsLen ss ≤ MAX_BODY → ∃ b, m.encode = .ok b) ∧
      (¬ (ss.length ≤ hardMax ∧ textsLen ss ≤ MAX_BODY) → ∃ e, m.encode = .error e) := by
  have hputs := (puts_count ss.length hardMax).then
    (puts_foldl (fun s : String => puts_bytes (asBytes s)) ss)
  have hlen : (le 4 ss.length ++ ss.flatMap (fun s => prefixed (asBytes s))).length
      = textsLen ss := by
    rw [length_append, length_le, length_flatMap_prefixed, textsLen]
    rfl
  obtain ⟨hok, herr⟩ := encode_of_puts hbody hputs
  rw [hlen] at hok herr
  -- a string over the limit makes the whole body too long
  have hall : textsLen ss ≤ MAX_BODY → ∀ s ∈ ss, (asBytes s).length ≤ MAX_BODY := by
    intro h s hs
    have hle : 4 + size s ≤ (ss.map (fun s => 4 + size s)).sum :=
      le_sum_of_mem (mem_map_of_mem (f := fun s => 4 + size s) hs)
    rw [textsLen] at h
    have : (asBytes s).length = size s := rfl
    omega
  refine ⟨fun h => ⟨_, hok ⟨⟨h.1, hall h.2⟩, h.2⟩⟩, fun h => herr (fun h' => h ⟨h'.1.1, h'.2⟩)⟩

/-! ## Batches of rows -/

/-- The bytes of a value on the wire. -/
def valueBytes : Value → Bytes
  | .null => [TAG_NULL]
  | .bool b => [TAG_BOOL, if b then 1 else 0]
  | .int i => TAG_INT :: le 8 i.toUInt64.toNat
  | .float bits => TAG_FLOAT :: le 8 bits.toNat
  | .text s => TAG_TEXT :: prefixed (asBytes s)
  | .bytes b => TAG_BYTES :: prefixed b

theorem length_valueBytes (v : Value) : (valueBytes v).length = encodedValueLen v := by
  cases v <;> simp [valueBytes, encodedValueLen, length_prefixed, Nat.add_comm]

/-- The strings a value is made of. -/
def valueStrings : Value → List Bytes
  | .text s => [asBytes s]
  | .bytes b => [b]
  | _ => []

theorem length_valueStrings {v : Value} (h : b ∈ valueStrings v) :
    b.length ≤ (valueBytes v).length := by
  cases v with
  | text s =>
      obtain rfl := mem_singleton.mp h
      rw [valueBytes, length_cons, length_prefixed]
      omega
  | bytes b' =>
      obtain rfl := mem_singleton.mp h
      rw [valueBytes, length_cons, length_prefixed]
      omega
  | _ => nomatch h

theorem puts_value (v : Value) :
    Puts (writeValue · v) (∀ b ∈ valueStrings v, b.length ≤ MAX_BODY) (valueBytes v) := by
  have hplain : ∀ {a b : Bytes}, Puts (fun w => (raw w a).raw b) True (a ++ b) := fun {a b} =>
    ((puts_raw a).then (puts_raw b)).congr (and_self_iff)
  have hlong : ∀ (t : UInt8) (b : Bytes),
      Puts (fun w => (u8 w t).bytes b) (b.length ≤ MAX_BODY) (t :: prefixed b) := fun t b =>
    ((puts_raw [t]).then (puts_bytes b)).congr (iff_of_eq (true_and _))
  cases v with
  | null => exact (puts_raw [TAG_NULL]).congr (by simp [valueStrings])
  | bool b => exact hplain.congr (by simp [valueStrings])
  | int i => exact hplain.congr (by simp [valueStrings])
  | float bits => exact hplain.congr (by simp [valueStrings])
  | text s => exact (hlong TAG_TEXT (asBytes s)).congr (by simp [valueStrings])
  | bytes b => exact (hlong TAG_BYTES b).congr (by simp [valueStrings])

/-- A row whose values do not exceed a body is written in full. -/
theorem puts_row {row : List Value} (hn : row.length ≤ MAX_VALUES_PER_ROW)
    (hlen : encodedRowLen row ≤ MAX_BODY) :
    Puts (writeRow · row) True (le 4 row.length ++ row.flatMap valueBytes) := by
  refine ((puts_count row.length MAX_VALUES_PER_ROW).then (puts_foldl puts_value row)).congr ?_
  refine iff_of_true ⟨hn, fun v hv b hb => ?_⟩ trivial
  have hle : encodedValueLen v ≤ (row.map encodedValueLen).sum :=
    le_sum_of_mem (mem_map_of_mem hv)
  have hb' := length_valueStrings hb
  rw [length_valueBytes] at hb'
  rw [encodedRowLen] at hlen
  omega

/-- A batch that a frame has room for. -/
structure Framed (batch : List (List Value)) : Prop where
  some : batch ≠ []
  count : batch.length ≤ MAX_ROWS_PER_BATCH
  room : (batch.map encodedRowLen).sum ≤ BATCH_BUDGET
  rows : ∀ row ∈ batch, row.length ≤ MAX_VALUES_PER_ROW

theorem Framed.encode {batch : List (List Value)} (h : Framed batch) :
    ∃ b, (rowBatch batch).encode = .ok b := by
  have hroom := h.room
  rw [BATCH_BUDGET] at hroom
  have hrow : ∀ row ∈ batch, encodedRowLen row ≤ MAX_BODY := by
    intro row hr
    have hle : encodedRowLen row ≤ (batch.map encodedRowLen).sum :=
      le_sum_of_mem (mem_map_of_mem hr)
    omega
  -- rows outside the batch may do anything, so the list is written under its membership
  have hputs : ∀ l : List (List Value), (∀ row ∈ l, row ∈ batch) →
    Puts (fun w => l.foldl writeRow w) True
      (l.flatMap (fun row => le 4 row.length ++ row.flatMap valueBytes)) := by
    intro l
    induction l with
    | nil =>
        intro _
        refine ⟨fun _ w => ?_, fun hn => absurd trivial hn, fun w hw => hw⟩
        rw [flatMap_nil, raw, append_nil]
        rfl
    | cons row l ih =>
        intro hl
        have hr := hl row (.head _)
        exact ((puts_row (h.rows row hr) (hrow row hr)).then
          (ih (fun r hr' => hl r (mem_cons_of_mem row hr')))).congr and_self_iff
  have hbody := (puts_count batch.length MAX_ROWS_PER_BATCH).then (hputs batch (fun _ hr => hr))
  have hlen : (le 4 batch.length
      ++ batch.flatMap (fun row => le 4 row.length ++ row.flatMap valueBytes)).length
        = 4 + (batch.map encodedRowLen).sum := by
    rw [length_append, length_le, length_flatMap]
    congr 2
    refine map_congr_left (fun row _ => ?_)
    rw [length_append, length_le, length_flatMap, encodedRowLen]
    congr 2
    exact map_congr_left (fun v _ => length_valueBytes v)
  have h4 : 4 ≤ MAX_BODY := by decide
  exact ⟨_, (encode_of_puts (m := .rowBatch batch) rfl hbody).1
    ⟨⟨h.count, trivial⟩, by rw [hlen]; omega⟩⟩

/-- A row that no batch takes. -/
def oversize (row : List Value) : Prop :=
  encodedRowLen row > BATCH_BUDGET ∨ row.length > MAX_VALUES_PER_ROW

/-- The batches being filled: what they hold so far has room, and so does what
    follows. -/
theorem batchLoop_ok (h : ∀ row ∈ rows, ¬ oversize row) {pending : List (List Value)}
    (hp : pending = [] ∨ Framed pending) :
    ∃ batches, batchLoop pending (pending.map encodedRowLen).sum rows
        = .ok (batches.map rowBatch) ∧
      (∀ b ∈ batches, Framed b) ∧ (batches = [] ↔ pending = [] ∧ rows = [])
      ∧ batches.flatten = pending ++ rows := by
  induction rows generalizing pending with
  | nil =>
      rw [batchLoop]
      rcases hp with rfl | hp
      · exact ⟨[], rfl, fun _ hb => absurd hb not_mem_nil, by simp, rfl⟩
      · refine ⟨[pending], ?_, fun b hb => ?_, by simp [hp.some], by simp⟩
        · rw [if_neg (fun he => hp.some (isEmpty_iff.mp he))]
          rfl
        · rw [mem_singleton.mp hb]
          exact hp
  | cons row rest ih =>
      have hfit := h row (.head _)
      rw [oversize, not_or] at hfit
      have hrest : ∀ r ∈ rest, ¬ oversize r := fun r hr => h r (mem_cons_of_mem row hr)
      have halone : Framed [row] :=
        ⟨cons_ne_nil _ _, by simp [MAX_ROWS_PER_BATCH], by simpa using hfit.1,
          by simpa using hfit.2⟩
      rw [batchLoop, if_neg (by rw [not_or]; exact hfit)]
      by_cases hfull : ¬ pending.isEmpty ∧ ((pending.map encodedRowLen).sum + encodedRowLen row
          > BATCH_BUDGET ∨ pending.length ≥ MAX_ROWS_PER_BATCH)
      · have hne : pending ≠ [] := fun he => hfull.1 (by rw [he]; rfl)
        obtain ⟨batches, hrun, hall, -, hflat⟩ := ih hrest (.inr halone)
        rw [if_pos hfull]
        refine ⟨pending :: batches, ?_, ?_, by simp, by rw [flatten_cons, hflat]; rfl⟩
        · rw [map_singleton, sum_singleton] at hrun
          rw [hrun]
          rfl
        · intro b hb
          rcases mem_cons.mp hb with rfl | hb
          · exact hp.resolve_left hne
          · exact hall b hb
      · rw [if_neg hfull]
        have hsum : (pending.map encodedRowLen).sum + encodedRowLen row
            = ((pending ++ [row]).map encodedRowLen).sum := by simp
        have hnext : Framed (pending ++ [row]) := by
          rcases hp with rfl | hp
          · exact halone
          · have hopen : ¬ (pending.isEmpty = true) :=
              fun he => hp.some (isEmpty_iff.mp he)
            have hroom := not_or.mp (fun hor => hfull ⟨hopen, hor⟩)
            refine ⟨append_ne_nil_of_left_ne_nil hp.some _, ?_, ?_, ?_⟩
            · rw [length_append, length_singleton]
              omega
            · rw [← hsum]
              omega
            · intro r hr
              rcases mem_append.mp hr with hr | hr
              · exact hp.rows r hr
              · exact halone.rows r hr
        rw [hsum]
        obtain ⟨batches, hrun, hall, hnil, hflat⟩ := ih hrest (.inr hnext)
        exact ⟨batches, hrun, hall, hnil.trans (by simp), hflat.trans (by simp)⟩

theorem batchLoop_error (h : ∃ row ∈ rows, oversize row) (pending : List (List Value))
    (used : Nat) :
    ∃ n, batchLoop pending used rows = .error (.tooLarge (n % 2 ^ 64) BATCH_BUDGET) := by
  induction rows generalizing pending used with
  | nil => obtain ⟨row, hrow, -⟩ := h; nomatch hrow
  | cons row rest ih =>
      rw [batchLoop]
      by_cases hrow : encodedRowLen row > BATCH_BUDGET ∨ row.length > MAX_VALUES_PER_ROW
      · exact ⟨_, by rw [if_pos hrow]⟩
      · have hrest : ∃ r ∈ rest, oversize r := by
          obtain ⟨r, hr, hbig⟩ := h
          rcases mem_cons.mp hr with rfl | hr
          · exact absurd hbig hrow
          · exact ⟨r, hr, hbig⟩
        rw [if_neg hrow]
        split
        · obtain ⟨n, hn⟩ := ih hrest [row] (encodedRowLen row)
          exact ⟨n, by rw [hn]; rfl⟩
        · exact ih hrest _ _

/-! ## Texts that always fit -/

theorem size_append (s t : String) : size (s ++ t) = size s + size t := by
  rw [size, asBytes, String.toByteArray_append, ByteArray.data_append, Array.toList_append,
    length_append]
  rfl

/-- A number of the machine takes at most twenty digits. -/
theorem size_number (n : Nat) : size (toString (n % 2 ^ 64)) ≤ 80 := by
  have hdigits : (Nat.toDigits 10 (n % 2 ^ 64)).length ≤ 20 :=
    (Nat.length_toDigits_le_iff (by omega) (by omega)).mpr
      (lt_of_lt_of_le (Nat.mod_lt n (by decide)) (by decide))
  have hsize : ∀ l : List Char, (l.flatMap String.utf8EncodeChar).length ≤ 4 * l.length := by
    intro l
    induction l with
    | nil => exact le_rfl
    | cons x l ih =>
        have hx := Char.utf8Size_le_four x
        rw [flatMap_cons, length_append, String.length_utf8EncodeChar, length_cons]
        omega
  show (asBytes (String.ofList (Nat.toDigits 10 (n % 2 ^ 64)))).length ≤ 80
  rw [asBytes_ofList]
  exact (hsize _).trans (by omega)

theorem show_tooLarge (declared limit : Nat) : ProtoError.show (.tooLarge declared limit)
    = "declared length " ++ toString declared ++ " exceeds limit " ++ toString limit := rfl

theorem show_tooLarge_fits (n : Nat) :
    6 + size (ProtoError.show (.tooLarge (n % 2 ^ 64) BATCH_BUDGET)) ≤ MAX_BODY := by
  have hlim : size (toString BATCH_BUDGET) ≤ 80 := by
    have h := size_number BATCH_BUDGET
    rwa [Nat.mod_eq_of_lt (show BATCH_BUDGET < 2 ^ 64 by decide)] at h
  have hopen : size "declared length " ≤ 100 := by decide
  have hmid : size " exceeds limit " ≤ 100 := by decide
  have hshow : size (ProtoError.show (.tooLarge (n % 2 ^ 64) BATCH_BUDGET))
      = size "declared length " + size (toString (n % 2 ^ 64)) + size " exceeds limit "
        + size (toString BATCH_BUDGET) := by
    simp only [show_tooLarge, size_append]
  have hsum := Nat.add_le_add (Nat.add_le_add (Nat.add_le_add hopen (size_number n)) hmid) hlim
  rw [← hshow] at hsum
  exact (Nat.add_le_add_left hsum 6).trans (by decide)

/-! ## The answer of a statement -/

theorem encode_count (verb : String) (n : UInt64) :
    (12 + size verb ≤ MAX_BODY → ∃ b, (count verb n).encode = .ok b) ∧
      (¬ 12 + size verb ≤ MAX_BODY → ∃ e, (count verb n).encode = .error e) := by
  have hlen : (prefixed (asBytes verb) ++ le 8 n.toNat).length = 12 + size verb := by
    rw [length_append, length_prefixed, length_le, size]
    omega
  obtain ⟨hok, herr⟩ := encode_of_puts (m := .count verb n) rfl
    ((puts_bytes (asBytes verb)).then (puts_raw (le 8 n.toNat)))
  rw [hlen] at hok herr
  exact ⟨fun h => ⟨_, hok ⟨⟨by rw [size] at h; omega, trivial⟩, h⟩⟩,
    fun h => herr (fun h' => h h'.2)⟩

theorem encode_failure (code : ErrorCode) (message : String) :
    (6 + size message ≤ MAX_BODY → ∃ b, (failure code message).encode = .ok b) ∧
      (¬ 6 + size message ≤ MAX_BODY →
        ∃ e, (failure code message).encode = .error e) := by
  have hlen : (le 2 code.asU16.toNat ++ prefixed (asBytes message)).length = 6 + size message := by
    rw [length_append, length_prefixed, length_le, size]
    omega
  obtain ⟨hok, herr⟩ := encode_of_puts (m := .failure code message) rfl
    ((puts_raw (le 2 code.asU16.toNat)).then (puts_bytes (asBytes message)))
  rw [hlen] at hok herr
  exact ⟨fun h => ⟨_, hok ⟨⟨trivial, by rw [size] at h; omega⟩, h⟩⟩,
    fun h => herr (fun h' => h h'.2)⟩

/-- The limits that a result has to keep for its answer to reach the client.
    A result set may leave out the names of its columns when no batch follows
    them. -/
def Deliverable (ioText : String) : Except ExecError Output → Prop
  | .error e => 6 + size (e.show ioText) ≤ MAX_BODY
  | .ok .ok => True
  | .ok (.count verb _) => 12 + size verb ≤ MAX_BODY
  | .ok (.lines ls) => ls.length ≤ MAX_LINES ∧ textsLen ls ≤ MAX_BODY
  | .ok (.rows columns rows) =>
      (columns.length ≤ MAX_VALUES_PER_ROW ∧ textsLen columns ≤ MAX_BODY)
        ∨ rows = [] ∨ ∃ row ∈ rows, oversize row

/-- The types of a list of messages that all get a frame. -/
theorem sent_all {ms : List ServerMessage} (h : ∀ m ∈ ms, ∃ b, m.encode = .ok b) :
    sent ms = ms := by
  rw [sent, filter_eq_self]
  intro m hm
  obtain ⟨b, hb⟩ := h m hm
  rw [hb]
  rfl

/-- An opening message, so many batches and the message that ends them. -/
theorem answers_rows (c : Conn) (columns : List String) {batches : List (List (List Value))}
    (hbatches : ∀ b ∈ batches, Framed b) {last : ServerMessage} (hlast : last.isTerminal)
    (henc : ∃ b, last.encode = .ok b) :
    Answers (wire c (.rowsBegin columns :: (batches.map .rowBatch ++ [last]))) ↔
      (columns.length ≤ MAX_VALUES_PER_ROW ∧ textsLen columns ≤ MAX_BODY) ∨ batches = [] := by
  have htail : sent (batches.map rowBatch ++ [last])
      = batches.map rowBatch ++ [last] := by
    refine sent_all (fun m hm => ?_)
    rcases mem_append.mp hm with hm | hm
    · obtain ⟨b, hb, rfl⟩ := mem_map.mp hm
      exact (hbatches b hb).encode
    · rw [mem_singleton.mp hm]
      exact henc
  have htypes : (batches.map rowBatch ++ [last]).map msgType
      = List.replicate batches.length T_ROW_BATCH ++ [last.msgType] := by
    rw [map_append, map_map, map_singleton]
    congr 1
    exact map_eq_replicate_iff.mpr (fun _ _ => rfl)
  obtain ⟨hok, herr⟩ := encode_texts (m := .rowsBegin columns) columns
    MAX_VALUES_PER_ROW rfl
  rw [answers_iff_sent]
  by_cases hcols : columns.length ≤ MAX_VALUES_PER_ROW ∧ textsLen columns ≤ MAX_BODY
  · obtain ⟨b, hb⟩ := hok hcols
    rw [sent_cons_ok hb, htail, map_cons, htypes]
    have h := oneAnswer_rows (n := batches.length) (.inr rfl) ((isTerminal_iff last).mp hlast)
    exact iff_of_true (h.mpr (.inl (cons_ne_nil _ _))) (.inl hcols)
  · obtain ⟨e, he⟩ := herr hcols
    rw [sent_cons_error he, htail, htypes]
    have h := oneAnswer_rows (n := batches.length) (.inl rfl) ((isTerminal_iff last).mp hlast)
    rw [nil_append] at h
    rw [h, length_eq_zero_iff]
    exact ⟨fun h => .inr (h.resolve_left (fun hne => hne rfl)),
      fun h => .inr (h.resolve_left hcols)⟩

/-- **AN ANSWER ENDS EXACTLY ONCE**: the frames that answer a statement end
    with one terminal message, none before it and no batch of rows unopened,
    exactly when the result keeps the limits of `Deliverable`. -/
theorem answer_ends_once_iff (ioText : String) (c : Conn) (result : Except ExecError Output) :
    Answers (wire c (render ioText result)) ↔ Deliverable ioText result := by
  cases result with
  | error e =>
      obtain ⟨hok, herr⟩ := encode_failure (codeFor e) (e.show ioText)
      exact answers_single rfl hok herr c
  | ok out =>
      cases out with
      | ok => exact answers_single (p := True) rfl (fun _ => ⟨_, rfl⟩) (fun h => absurd trivial h) c
      | count verb n =>
          obtain ⟨hok, herr⟩ := encode_count verb n
          exact answers_single rfl hok herr c
      | lines ls =>
          obtain ⟨hok, herr⟩ := encode_texts (m := .lines ls) ls MAX_LINES rfl
          exact answers_single rfl hok herr c
      | rows columns rows =>
          rw [render, rowsOrError, batchRows, Deliverable]
          by_cases hbig : ∃ row ∈ rows, oversize row
          · obtain ⟨n, hn⟩ := batchLoop_error hbig [] 0
            rw [hn]
            have hshow := show_tooLarge_fits n
            have hnone : ∀ b ∈ ([] : List (List (List Value))), Framed b :=
              fun _ hb => absurd hb not_mem_nil
            have h := answers_rows c columns hnone rfl ((encode_failure .execution _).1 hshow)
            exact iff_of_true (h.mpr (.inr rfl)) (.inr (.inr hbig))
          · obtain ⟨batches, hrun, hall, hnil, -⟩ := batchLoop_ok
              (fun row hr hover => hbig ⟨row, hr, hover⟩)
                (.inl (rfl : ([] : List (List Value)) = []))
            rw [map_nil, sum_nil] at hrun
            rw [hrun]
            have hend : ∃ b, rowsEnd.encode = .ok b := ⟨_, rfl⟩
            refine (answers_rows c columns hall rfl hend).trans (or_congr_right ?_)
            rw [hnil, or_iff_left hbig]
            exact and_iff_right rfl

/-- More lines than a message may carry: nothing is sent at all. -/
theorem wire_lines_nil {ls : List String} (h : MAX_LINES < ls.length) (ioText : String) (c : Conn) :
    wire c (render ioText (.ok (.lines ls))) = [] := by
  obtain ⟨e, he⟩ := (encode_texts (m := .lines ls) ls MAX_LINES rfl).2
    (fun hle => absurd hle.1 (Nat.not_le.mpr h))
  rw [render, wire, Conn.resume, foldl_cons, foldl_nil, Conn.push, he]
  exact drop_length

theorem too_many_lines_go_unanswered :
    ¬ Answers (wire Conn.new (render "" (.ok (.lines (List.replicate 65537 ""))))) := by
  rw [wire_lines_nil (by rw [length_replicate]; decide)]
  rintro ⟨fs, hfs, h⟩
  obtain rfl : fs = [] := (Option.some.inj hfs).symm
  exact not_oneAnswer_nil h

end QuantyAnswer
