import QuantyDb.ClientModel
import QuantyDb.WireProofs

/-! # What the client shows is what was rendered

    A connection is described by the bytes that are still ahead of it, in its
    buffer or in reads to come; how they are cut never matters.  Waiting for
    some bytes takes exactly those (`fillExactly_spec`), so a message takes its
    frame (`message_spec`), and an answer the frames of its messages.

    The two renderers then write the same text, one row by row into a buffer
    and one by joining, and the batches of an answer put together are its
    rows. -/

namespace QuantyClient

open QuantyKey QuantyPage QuantyEncoding QuantyAst QuantyProto QuantyConn QuantyAnswer QuantyWire
open List
open LittleEndian

variable (t : Texts)

/-! ## Texts -/

theorem foldl_hexByte (b : Bytes) (out : String) :
    b.foldl (fun out byte => out ++ hexByte byte) out
      = out ++ b.foldl (fun out byte => out ++ hexByte byte) "" := by
  induction b generalizing out with
  | nil => simp
  | cons x b ih =>
      rw [foldl_cons, foldl_cons, ih, ih ("" ++ hexByte x), String.empty_append,
        String.append_assoc]

theorem renderInto_eq (v : Value) (out : String) : renderInto t v out = out ++ renderValue t v := by
  cases v with
  | null => simp [renderInto, renderValue]
  | bool b => cases b <;> simp [renderInto, renderValue]
  | int i => simp [renderInto, renderValue]
  | float bits => simp [renderInto, renderValue]
  | text s => simp [renderInto, renderValue]
  | bytes b =>
      simp only [renderInto, renderValue]
      rw [foldl_hexByte b (out ++ "x\""), foldl_hexByte b ("" ++ "x\"")]
      simp only [String.append_assoc, String.empty_append]

/-- Writing into one buffer is joining. -/
theorem joinInto_eq {α : Type} {sep : String} {put : α → String → String} {text : α → String}
    (h : ∀ a out, put a out = out ++ text a) (l : List α) (out : String) :
    joinInto sep put 0 l out = out ++ sep.intercalate (l.map text) := by
  have hlater : ∀ (l : List α) (a : α) (i : Nat) (out : String), joinInto sep put (i + 1) l
      (out ++ text a) = out ++ sep.intercalate ((a :: l).map text) := by
    intro l
    induction l with
    | nil =>
        intro a i out
        rw [joinInto, map_singleton, String.intercalate_singleton]
    | cons b l ih =>
        intro a i out
        rw [joinInto, if_pos (Nat.succ_pos i), h, ih, map_cons, map_cons, map_cons,
          String.intercalate_cons_cons]
        simp only [String.append_assoc]
  cases l with
  | nil => rw [joinInto, map_nil, String.intercalate_nil, String.append_empty]
  | cons a l => rw [joinInto, if_neg (Nat.lt_irrefl 0), h, hlater]

/-- **THE TWO RENDERERS** agree on a set of rows. -/
theorem render_rows (columns : List String) (rows : List (List Value)) :
    Output.render t (.rows columns rows) = "\n".intercalate (rows.map (renderRow t)) := by
  have hrow : ∀ (row : List Value) (out : String),
      joinInto "|" (renderInto t) 0 row out = out ++ renderRow t row :=
    fun row out => joinInto_eq (renderInto_eq t) row out
  rw [Output.render, joinInto_eq hrow, String.empty_append]

/-! ## Bytes -/

/-- Nothing goes wrong on the socket. -/
def Fine (turns : List Turn) : Prop :=
  ∀ turn ∈ turns, turn ≠ .late ∧ turn ≠ .read .error ∧ turn ≠ .read (.data [])

/-- A connection that has these bytes ahead and will get them. -/
structure Remote.Brings (r : Remote) (bytes : Bytes) : Prop where
  ahead : r.ahead = bytes
  fine : Fine r.turns

variable {turns : List Turn} {buf rest : Bytes} {columns : List String} {rows : List (List Value)}

theorem fillLoop_enough {n : Nat} (h : n ≤ buf.length) :
    fillLoop t n turns buf = .ok ⟨buf, turns⟩ := by
  cases turns <;> exact if_neg (not_lt.mpr h)

theorem fillLoop_spec (n : Nat) (hfine : Fine turns) (hlen : n ≤ (buf ++ arriving turns).length) :
    ∃ r : Remote, fillLoop t n turns buf = .ok r
      ∧ r.Brings (buf ++ arriving turns) ∧ n ≤ r.buf.length := by
  by_cases henough : n ≤ buf.length
  · exact ⟨_, fillLoop_enough t henough, ⟨rfl, hfine⟩, henough⟩
  induction turns generalizing buf with
  | nil =>
      simp only [arriving, flatMap_nil, append_nil] at hlen
      exact absurd hlen henough
  | cons turn rest ih =>
      obtain ⟨hturn, hrest⟩ := forall_mem_cons.mp hfine
      match turn, hturn with
      | .late, h => exact absurd rfl h.1
      | .read .error, h => exact absurd rfl h.2.1
      | .read (.data []), h => exact absurd rfl h.2.2
      | .read .wouldBlock, _ =>
          rw [fillLoop, if_pos (not_le.mp henough)]
          exact ih hrest hlen henough
      | .read .interrupted, _ =>
          rw [fillLoop, if_pos (not_le.mp henough)]
          exact ih hrest hlen henough
      | .read (.data (b :: bs)), _ =>
          have hall : buf ++ arriving (.read (.data (b :: bs)) :: rest)
              = buf ++ (b :: bs) ++ arriving rest := by simp [arriving]
          rw [hall] at hlen ⊢
          rw [fillLoop, if_pos (not_le.mp henough)]
          show ∃ r, fillLoop t n rest (buf ++ (b :: bs)) = .ok r ∧ _
          by_cases hnow : n ≤ (buf ++ (b :: bs)).length
          · exact ⟨_, fillLoop_enough t hnow, ⟨rfl, hrest⟩, hnow⟩
          · exact ih hrest hlen hnow

variable {r : Remote} {bytes tail : Bytes} {m : ServerMessage} {ms : List ServerMessage}

/-- **WAITING FOR BYTES** takes exactly those. -/
theorem fillExactly_spec (h : r.Brings (bytes ++ rest)) :
    ∃ r' : Remote, fillExactly t bytes.length r = .ok (bytes, r') ∧ r'.Brings rest := by
  have hlen : bytes.length ≤ (r.buf ++ arriving r.turns).length := by
    have := congrArg List.length h.ahead
    rw [Remote.ahead] at this
    rw [this, length_append]
    omega
  obtain ⟨r₁, hloop, hbrings, henough⟩ := fillLoop_spec t bytes.length h.fine hlen
  have hahead : r₁.buf ++ arriving r₁.turns = bytes ++ rest := hbrings.ahead.trans h.ahead
  obtain ⟨more, hmore⟩ : ∃ more, r₁.buf = bytes ++ more := by
    refine ⟨r₁.buf.drop bytes.length, ?_⟩
    have htake : r₁.buf.take bytes.length = bytes := by
      rw [← take_append_of_le_length henough, hahead, take_left]
    rw [← htake, length_take, Nat.min_eq_left henough, take_append_drop]
  rw [hmore, append_assoc, append_cancel_left_eq] at hahead
  refine ⟨{ r₁ with buf := more }, ?_, ⟨hahead, hbrings.fine⟩⟩
  rw [fillExactly, hloop]
  show Except.ok (r₁.buf.take bytes.length, { r₁ with buf := r₁.buf.drop bytes.length }) = _
  rw [hmore, take_left, drop_left]

/-- **A MESSAGE** takes its frame. -/
theorem message_spec (h : r.Brings (bytes ++ rest)) (henc : m.encode = .ok bytes) :
    ∃ r' : Remote, message t r = .ok (m, r') ∧ r'.Brings rest := by
  obtain ⟨body, -, hlen, rfl, hdecode⟩ := decode_of_encode henc
  have hcut : frameBytes m.msgType body ++ rest
      = (m.msgType :: le 4 body.length) ++ (body ++ rest) := by simp [frameBytes, prefixed]
  rw [hcut] at h
  obtain ⟨r₁, hhead, h₁⟩ := fillExactly_spec t h
  obtain ⟨r₂, hbody, h₂⟩ := fillExactly_spec t h₁
  have hfive : (m.msgType :: le 4 body.length).length = HEADER_LEN := by
    rw [length_cons, length_le]
    rfl
  rw [hfive] at hhead
  refine ⟨r₂, ?_, h₂⟩
  dsimp only [message, bind, StateT.bind, Except.bind]
  rw [hhead]
  dsimp only
  rw [decode_header m.msgType hlen]
  dsimp only [StateT.bind, bind, Except.bind]
  rw [hbody]
  dsimp only
  rw [hdecode]
  rfl

/-! ## Answers -/

/-- The bytes of messages one after another, if all of them encode. -/
def stream : List ServerMessage → Except ProtoError Bytes
  | [] => .ok []
  | m :: rest => do
      let bytes ← m.encode
      return bytes ++ (← stream rest)

theorem stream_cons (h : stream (m :: ms) = .ok bytes) :
    ∃ first rest, m.encode = .ok first ∧ stream ms = .ok rest ∧ bytes = first ++ rest := by
  rw [stream] at h
  cases hm : m.encode with
  | error e =>
      rw [hm] at h
      nomatch h
  | ok first =>
      rw [hm] at h
      cases hms : stream ms with
      | error e =>
          rw [hms] at h
          nomatch h
      | ok rest =>
          rw [hms] at h
          exact ⟨first, rest, rfl, rfl, (Except.ok.inj h).symm⟩

theorem length_stream (h : stream ms = .ok bytes) : ms.length ≤ bytes.length := by
  induction ms generalizing bytes with
  | nil => exact Nat.zero_le _
  | cons m ms ih =>
      obtain ⟨first, rest, hm, hms, rfl⟩ := stream_cons h
      obtain ⟨body, -, -, rfl, -⟩ := decode_of_encode hm
      have := ih hms
      rw [length_cons, length_append, frameBytes, length_cons]
      omega

/-- What the loop does with a message, once it has it. -/
theorem answerLoop_message (m : ServerMessage) (r r' : Remote) (fuel : Nat)
    (rows : Option (List String)) : message t r = .ok (m, r') →
    answerLoop t (fuel + 1) rows r = (match m with
      | .ready | .ok => pure .done
      | .count verb n => pure (.text (verb ++ " " ++ toString n.toNat))
      | .lines lines => pure (.text ("\n".intercalate lines))
      | .error _ message => pure (.error message)
      | .rowsBegin _ => answerLoop t fuel (some [])
      | .rowBatch batch =>
          match rows with
          | none => throw (.failed "the server sent rows without beginning them")
          | some collected => answerLoop t fuel (some (collected ++ batch.map (renderRow t)))
      | .rowsEnd =>
          match rows with
          | none => throw (.failed "the server ended rows it never began")
          | some collected => pure (.text ("\n".intercalate collected)) : Client Reply) r' := by
  intro h
  show (message t r >>= fun p => _) = _
  rw [h]
  cases m <;> rfl

/-- **THE ROWS OF ALL BATCHES** are put together, up to the end. -/
theorem answerLoop_batches (batches : List (List (List Value))) {collected : List String}
    {fuel : Nat} (hbytes : stream (batches.map .rowBatch ++ [.rowsEnd]) = .ok bytes)
    (hbrings : r.Brings (bytes ++ tail)) (hfuel : batches.length < fuel) :
    ∃ r' : Remote, answerLoop t fuel (some collected) r = .ok (.text ("\n".intercalate
      (collected ++ batches.flatten.map (renderRow t))), r') ∧ r'.Brings tail := by
  induction batches generalizing collected fuel r bytes with
  | nil =>
      obtain ⟨fuel, rfl⟩ : ∃ f, fuel = f + 1 := ⟨fuel - 1, by omega⟩
      obtain ⟨first, rest, hend, hnil, rfl⟩ := stream_cons hbytes
      cases hnil
      rw [append_nil] at hbrings
      obtain ⟨r', hmessage, hr'⟩ := message_spec t hbrings hend
      refine ⟨r', ?_, hr'⟩
      rw [answerLoop_message t _ _ _ _ _ hmessage, flatten_nil, map_nil, append_nil]
      rfl
  | cons batch batches ih =>
      rw [length_cons] at hfuel
      obtain ⟨fuel, rfl⟩ : ∃ f, fuel = f + 1 := ⟨fuel - 1, by omega⟩
      obtain ⟨first, rest, hbatch, hrest, rfl⟩ := stream_cons hbytes
      rw [append_assoc] at hbrings
      obtain ⟨r₁, hmessage, hr₁⟩ := message_spec t hbrings hbatch
      have hlt : batches.length < fuel := by omega
      obtain ⟨r', hloop, hr'⟩ := ih hrest hr₁ hlt
      refine ⟨r', ?_, hr'⟩
      rw [answerLoop_message t _ _ _ _ _ hmessage, flatten_cons, map_append, ← append_assoc]
      exact hloop

/-- What a reply shows; an acknowledgement stands for `ok`. -/
def Reply.shown : Reply → Option String
  | .done => some "ok"
  | .text s => some s
  | .error _ => none

/-- Every row of a result fits a batch. -/
def Batchable : Output → Prop
  | .rows _ rows => ∀ row ∈ rows, ¬ oversize row
  | _ => True

/-- The messages of an answer arrive, the first of them by itself. -/
theorem answer_first (hbytes : stream (m :: ms) = .ok bytes) (hbrings : r.Brings (bytes ++ tail)) :
    ∃ (fuel : Nat) (r' : Remote) (rest : Bytes),
      answer t r = answerLoop t (fuel + 1) none r ∧ ms.length ≤ fuel
      ∧ message t r = .ok (m, r') ∧ stream ms = .ok rest ∧ r'.Brings (rest ++ tail) := by
  obtain ⟨first, rest, hm, hms, rfl⟩ := stream_cons hbytes
  have hlen := length_stream hms
  have hahead := congrArg List.length hbrings.ahead
  rw [length_append, length_append] at hahead
  rw [append_assoc] at hbrings
  obtain ⟨r', hmessage, hr'⟩ := message_spec t hbrings hm
  exact ⟨r.ahead.length, r', rest, rfl, by omega, hmessage, hms, hr'⟩

/-- An answer of one message, for which the loop returns. -/
theorem answer_single (reply : Reply) (hbytes : stream [m] = .ok bytes)
    (hbrings : r.Brings (bytes ++ tail)) (hreply : ∀ fuel r', message t r = .ok (m, r') →
      answerLoop t (fuel + 1) none r = .ok (reply, r')) :
    ∃ r' : Remote, answer t r = .ok (reply, r') ∧ r'.Brings tail := by
  obtain ⟨fuel, r', rest, hanswer, -, hmessage, hnil, hr'⟩ := answer_first t hbytes hbrings
  cases hnil
  exact ⟨r', hanswer.trans (hreply fuel r' hmessage), hr'⟩

/-- A set of rows that all fit a batch. -/
theorem answer_rows (hfit : ∀ row ∈ rows, ¬ oversize row)
    (hbytes : stream (rowsOrError columns rows) = .ok bytes) (hbrings : r.Brings (bytes ++ tail)) :
    ∃ r' : Remote, answer t r = .ok (.text ("\n".intercalate (rows.map (renderRow t))), r')
      ∧ r'.Brings tail := by
  obtain ⟨batches, hloop, -, -, hflatten⟩ := batchLoop_ok hfit (.inl rfl)
  have hmessages : rowsOrError columns rows
      = .rowsBegin columns :: (batches.map .rowBatch ++ [.rowsEnd]) := by
    rw [rowsOrError, show batchRows rows = .ok (batches.map .rowBatch) from hloop]
  rw [hmessages] at hbytes
  obtain ⟨fuel, r₁, rest, hanswer, hfuel, hmessage, hrest, hr₁⟩ := answer_first t hbytes hbrings
  rw [length_append, length_map, length_singleton] at hfuel
  obtain ⟨r', hcollect, hr'⟩ := answerLoop_batches t batches hrest hr₁ hfuel
  refine ⟨r', ?_, hr'⟩
  rw [hanswer, answerLoop_message t _ _ _ _ _ hmessage, ← nil_append rows, ← hflatten]
  exact hcollect

/-- Rows that the batcher refuses are answered by its error. -/
theorem answer_refused {e : ProtoError} (hbatch : batchRows rows = .error e)
    (hbytes : stream (rowsOrError columns rows) = .ok bytes) (hbrings : r.Brings (bytes ++ tail)) :
    ∃ r' : Remote, answer t r = .ok (.error e.show, r') ∧ r'.Brings tail := by
  have hmessages : rowsOrError columns rows
      = [.rowsBegin columns, .failure .execution e.show] := by
    rw [rowsOrError, hbatch]
  rw [hmessages] at hbytes
  obtain ⟨fuel, r₁, rest, hanswer, hfuel, hbegin, hrest, hr₁⟩ := answer_first t hbytes hbrings
  obtain ⟨fuel, rfl⟩ : ∃ f, fuel = f + 1 := Nat.exists_eq_succ_of_ne_zero (Nat.ne_of_gt hfuel)
  obtain ⟨first, last, herror, hnil, rfl⟩ := stream_cons hrest
  cases hnil
  rw [append_nil] at hr₁
  obtain ⟨r', hmessage, hr'⟩ := message_spec t hr₁ herror
  refine ⟨r', ?_, hr'⟩
  rw [hanswer, answerLoop_message t _ _ _ _ _ hbegin]
  exact answerLoop_message t _ _ _ _ _ hmessage

/-- **THE CLIENT SHOWS WHAT WAS RENDERED**: the messages of an output, cut
    into reads in any way, give the text the output renders to, and leave the
    client at what follows them.  Only a set of rows one of which fits no
    batch is not shown: the client then has the error of the batcher. -/
theorem answer_shows_render (ioText : String) (o : Output) {r : Remote} {bytes tail : Bytes}
    (hbytes : stream (render ioText (.ok o)) = .ok bytes)
    (hbrings : r.Brings (bytes ++ tail)) :
    ∃ (reply : Reply) (r' : Remote), answer t r = .ok (reply, r') ∧ r'.Brings tail
      ∧ (Batchable o → reply.shown = some (Output.render t o))
      ∧ (¬ Batchable o → ∃ columns rows e n, o = .rows columns rows ∧ batchRows rows = .error e
          ∧ e = .tooLarge (n % 2 ^ 64) BATCH_BUDGET ∧ reply = .error e.show) := by
  cases o with
  | ok =>
      obtain ⟨r', hanswer, hr'⟩ := answer_single t .done hbytes hbrings
        fun fuel r' h => answerLoop_message t _ _ _ _ _ h
      exact ⟨_, r', hanswer, hr', fun _ => rfl, fun h => absurd trivial h⟩
  | count verb n =>
      obtain ⟨r', hanswer, hr'⟩ := answer_single t (.text (verb ++ " " ++ toString n.toNat))
        hbytes hbrings fun fuel r' h => answerLoop_message t _ _ _ _ _ h
      exact ⟨_, r', hanswer, hr', fun _ => rfl, fun h => absurd trivial h⟩
  | lines lines =>
      obtain ⟨r', hanswer, hr'⟩ := answer_single t (.text ("\n".intercalate lines))
        hbytes hbrings fun fuel r' h => answerLoop_message t _ _ _ _ _ h
      exact ⟨_, r', hanswer, hr', fun _ => rfl, fun h => absurd trivial h⟩
  | rows columns rows =>
      by_cases hfit : ∀ row ∈ rows, ¬ oversize row
      · obtain ⟨r', hanswer, hr'⟩ := answer_rows t hfit hbytes hbrings
        refine ⟨_, r', hanswer, hr', fun _ => ?_, fun h => absurd hfit h⟩
        rw [render_rows]
        rfl
      · have hbig : ∃ row ∈ rows, oversize row := by
          simpa only [not_forall, not_not, exists_prop] using hfit
        obtain ⟨n, hbatch⟩ := batchLoop_error hbig [] 0
        obtain ⟨r', hanswer, hr'⟩ := answer_refused t hbatch hbytes hbrings
        exact ⟨_, r', hanswer, hr', fun h => absurd h hfit,
          fun _ => ⟨columns, rows, _, n, rfl, hbatch, rfl, rfl⟩⟩

/-- Bytes that come one at a time. -/
def dripping (bytes : Bytes) : Remote := ⟨[], bytes.map fun b => .read (.data [b])⟩

theorem dripping_brings (bytes : Bytes) : (dripping bytes).Brings bytes where
  ahead := by
    rw [dripping, Remote.ahead, arriving, flatMap_map, nil_append]
    exact flatMap_singleton' bytes
  fine := by
    intro turn hturn
    obtain ⟨b, -, rfl⟩ := mem_map.mp hturn
    simp

/-- Two rows, in reads of one byte, with one more byte behind them. -/
theorem answer_shows_render_dripping :
    ∃ (bytes : Bytes) (reply : Reply) (r' : Remote),
      stream (render "" (.ok (.rows ["a", "b"] [[.int 7, .null], [.text "x"]])))
        = .ok bytes
      ∧ answer ⟨fun _ => "", ""⟩ (dripping (bytes ++ [1])) = .ok (reply, r') ∧ r'.Brings [1]
      ∧ reply.shown = some "7|null\nx" := by
  have hok : (stream (render "" (.ok (.rows ["a", "b"]
      [[.int 7, .null], [.text "x"]])))).toOption.isSome := by decide +kernel
  cases hbytes : stream (render "" (.ok (.rows ["a", "b"]
      [[.int 7, .null], [.text "x"]]))) with
  | error e =>
      rw [hbytes] at hok
      nomatch hok
  | ok bytes =>
      obtain ⟨reply, r', hanswer, hr', hshown, -⟩ := answer_shows_render ⟨fun _ => "", ""⟩ "" _
        hbytes (dripping_brings (bytes ++ [1]))
      refine ⟨bytes, reply, r', rfl, hanswer, hr', (hshown ?_).trans (by decide +kernel)⟩
      show ∀ row ∈ [[Value.int 7, .null], [.text "x"]],
        ¬ (encodedRowLen row > BATCH_BUDGET ∨ row.length > MAX_VALUES_PER_ROW)
      decide +kernel

/-- A row of too many values is a set of rows whose messages all encode, and
    that the client does not show. -/
theorem wide_row_not_shown :
    ∃ (o : Output) (bytes : Bytes) (reply : Reply) (r' : Remote),
      stream (render "" (.ok o)) = .ok bytes
      ∧ answer ⟨fun _ => "", ""⟩ (dripping bytes) = .ok (reply, r')
      ∧ reply.shown ≠ some (Output.render ⟨fun _ => "", ""⟩ o) := by
  have hbig : ∃ row ∈ [List.replicate 4097 Value.null], oversize row :=
    ⟨_, mem_singleton.mpr rfl, .inr (by rw [length_replicate]; decide)⟩
  have hok : (stream (rowsOrError [] [List.replicate 4097 Value.null])).toOption.isSome := by
    decide +kernel
  cases hbytes : stream (rowsOrError [] [List.replicate 4097 Value.null]) with
  | error e =>
      rw [hbytes] at hok
      nomatch hok
  | ok bytes =>
      have hbrings : (dripping bytes).Brings (bytes ++ []) := by
        rw [append_nil]
        exact dripping_brings bytes
      obtain ⟨n, hbatch⟩ := batchLoop_error hbig [] 0
      obtain ⟨r', hanswer, -⟩ := answer_refused ⟨fun _ => "", ""⟩ hbatch hbytes hbrings
      exact ⟨.rows [] [List.replicate 4097 .null], bytes, _, r', hbytes, hanswer, nofun⟩

end QuantyClient
