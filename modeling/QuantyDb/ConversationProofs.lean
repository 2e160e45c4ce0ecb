import QuantyDb.ConnProofs

/-! # How bytes arrive does not matter

    A connection is driven to a standstill after every chunk its peer sends:
    fill, step, answer what was submitted, flush, until a round changes
    nothing.  What it submits and says over all chunks is a function of the
    bytes alone (`outcome`).

    The proof keeps one quantity: what was submitted and said so far, together
    with the outcome of the bytes that are buffered or still to come.  A round
    moves something from the second part to the first and leaves the whole as
    it is (`Talk.round_spec`); at a standstill the second part is what is to
    come of bytes not yet sent. -/

namespace QuantyConn

open QuantyKey QuantyPage QuantyProto QuantyAnswer LittleEndian List Conn ServerHello FrameHeader

/-! ## Driving to a standstill -/

/-- `fill` on a socket that has these reads and then would block.  What it
    does not read stays with the socket. -/
def Conn.fillFrom (c : Conn) : List Bytes → Conn × List Bytes
  | [] => (c, [])
  | piece :: rest =>
      if c.inbuf.length > HEADER_LEN + MAX_BODY then (c, piece :: rest)
      else fillFrom { c with inbuf := c.inbuf ++ piece } rest

section Answer

variable (answer : ClientMessage → List ServerMessage)

/-- Step, deliver the answer to what was submitted, and flush into a socket
    that takes everything: what was submitted, and what was said. -/
def Conn.turn (c : Conn) : Conn × List ClientMessage × Bytes :=
  let (out, c) := c.step
  let c := match out with
    | .submit request => c.resume (answer request)
    | _ => c
  let (_, after, _) := c.flush [.took c.pending]
  (after, out.submitted, c.outbuf.drop c.outpos)

/-- A connection and its socket: the reads that wait, and what came of it. -/
structure Talk where
  conn : Conn
  arrived : List Bytes
  submitted : List ClientMessage
  sent : Bytes
  deriving DecidableEq, Repr

def Talk.fresh : Talk := ⟨.new, [], [], []⟩

def Talk.round (t : Talk) : Talk :=
  let (c, arrived) := t.conn.fillFrom t.arrived
  let (c, submitted, sent) := c.turn answer
  ⟨c, arrived, t.submitted ++ submitted, t.sent ++ sent⟩

/-- Rounds until one changes nothing. -/
def Talk.settle : Nat → Talk → Option Talk
  | 0, _ => none
  | fuel + 1, t => if t.round answer = t then some t else Talk.settle fuel (t.round answer)

/-- What a round that changes something takes from. -/
def Conn.weight (c : Conn) : Nat := c.inbuf.length + if c.phase = .draining then 0 else 1

def Talk.weight (t : Talk) : Nat :=
  t.arrived.length + 2 * t.arrived.flatten.length + t.conn.weight

/-- A chunk arrives, as reads, and the connection is driven. -/
def Talk.feed (t : Talk) (chunk : List Bytes) : Option Talk :=
  let t := { t with arrived := t.arrived ++ chunk }
  t.settle answer (t.weight + 1)

/-- A whole conversation, chunk by chunk. -/
def converse (chunks : List (List Bytes)) : Option Talk :=
  chunks.foldlM (Talk.feed answer) .fresh

/-! ## What comes of a stream -/

/-- The bytes of a message that encodes. -/
def said (m : ServerMessage) : Bytes := m.encode.toOption.getD []

def encodes (m : ServerMessage) : Bool := m.encode.toOption.isSome

/-- What frames lead to, when these bytes are all of them. -/
def framesOutcome (bytes : Bytes) : List ClientMessage × Bytes :=
  match _h : front bytes with
  | .incomplete => ([], [])
  | .tooLarge => ([], said (.failure .protocol "frame too large"))
  | .malformed _ => ([], said (.failure .protocol "malformed message"))
  | .close _ => ([], [])
  | .request m rest =>
      let later := if (answer m).all encodes then framesOutcome rest else ([], [])
      (m :: later.1, (answer m).flatMap said ++ later.2)
termination_by bytes.length
decreasing_by exact front_request_lt ‹_›

/-- What a stream leads to, from a phase on. -/
def outcome : Phase → Bytes → List ClientMessage × Bytes
  | .hello, bytes =>
      if bytes.length < CLIENT_HELLO_LEN then ([], [])
      else match helloReply (bytes.take CLIENT_HELLO_LEN) with
        | .accepted v =>
            let later := framesOutcome answer (bytes.drop CLIENT_HELLO_LEN)
            (later.1, (accepted v).encode ++ said .ready ++ later.2)
        | .refused r => ([], (refused r).encode)
  | .frames, bytes => framesOutcome answer bytes
  | .draining, _ => ([], [])

/-- A buffer that begins with a whole frame begins with it whatever comes
    after. -/
def Front.append (more : Bytes) : Front → Front
  | .incomplete => .incomplete
  | .tooLarge => .tooLarge
  | .malformed rest => .malformed (rest ++ more)
  | .close rest => .close (rest ++ more)
  | .request m rest => .request m (rest ++ more)

theorem front_append {bytes : Bytes} (h : front bytes ≠ .incomplete) (more : Bytes) :
    front (bytes ++ more) = (front bytes).append more := by
  unfold front at h ⊢
  by_cases hshort : bytes.length < HEADER_LEN
  · rw [if_pos hshort] at h
    exact absurd rfl h
  have hle : HEADER_LEN ≤ bytes.length := Nat.not_lt.mp hshort
  rw [if_neg hshort] at h ⊢
  rw [if_neg (by rw [length_append]; omega), take_append_of_le_length hle]
  cases hdec : decode (bytes.take HEADER_LEN) with
  | error e => rfl
  | ok header =>
      rw [hdec] at h
      dsimp only at h ⊢
      by_cases hbody : bytes.length < HEADER_LEN + header.bodyLen
      · rw [if_pos hbody] at h
        exact absurd rfl h
      have hwhole : HEADER_LEN + header.bodyLen ≤ bytes.length := Nat.not_lt.mp hbody
      rw [if_neg hbody, if_neg (by rw [length_append]; omega),
        drop_append_of_le_length hwhole]
      have hslice : slice HEADER_LEN header.bodyLen (bytes ++ more)
          = slice HEADER_LEN header.bodyLen bytes := by
        rw [slice, slice, drop_append_of_le_length hle,
          take_append_of_le_length (by rw [length_drop]; omega)]
      rw [hslice]
      cases ClientMessage.decode header.msgType (slice HEADER_LEN header.bodyLen bytes) with
      | error e => rfl
      | ok m => cases m <;> rfl

/-- A buffer too full to be filled begins with something. -/
theorem length_of_incomplete {bytes : Bytes} (h : front bytes = .incomplete) :
    bytes.length ≤ HEADER_LEN + MAX_BODY := by
  unfold front at h
  split at h
  · omega
  · cases hdec : decode (bytes.take HEADER_LEN) with
    | error e =>
        rw [hdec] at h
        cases h
    | ok header =>
        have hmax : header.bodyLen ≤ MAX_BODY := by
          rw [decode] at hdec
          split at hdec
          · cases hdec
          · rename_i hsmall
            cases hdec
            exact Nat.not_lt.mp hsmall
        rw [hdec] at h
        dsimp only at h
        split at h
        · omega
        · cases hmsg : ClientMessage.decode header.msgType
              (slice HEADER_LEN header.bodyLen bytes) with
          | error e =>
              rw [hmsg] at h
              cases h
          | ok m =>
              rw [hmsg] at h
              cases m <;> cases h

/-! ## One turn -/

/-- A connection with nothing to write and nothing outstanding. -/
def resting (phase : Phase) (inbuf : Bytes) : Conn := ⟨phase, false, false, inbuf, [], 0⟩

/-- What a turn does to a connection at rest: its new phase and input, what is
    submitted and what is said. -/
def advance : Phase → Bytes → (Phase × Bytes) × List ClientMessage × Bytes
  | .hello, bytes =>
      if bytes.length < CLIENT_HELLO_LEN then ((.hello, bytes), [], [])
      else
        let rest := bytes.drop CLIENT_HELLO_LEN
        match helloReply (bytes.take CLIENT_HELLO_LEN) with
        | .accepted v => ((.frames, rest), [], (accepted v).encode ++ said .ready)
        | .refused r => ((.draining, rest), [], (refused r).encode)
  | .frames, bytes =>
      match front bytes with
      | .incomplete => ((.frames, bytes), [], [])
      | .tooLarge => ((.draining, bytes), [], said (.failure .protocol "frame too large"))
      | .malformed rest => ((.draining, rest), [], said (.failure .protocol "malformed message"))
      | .close rest => ((.draining, rest), [], [])
      | .request m rest =>
          ((if (answer m).all encodes then .frames else .draining, rest), [m],
            (answer m).flatMap said)
  | .draining, bytes => ((.draining, bytes), [], [])

/-- A socket that takes everything. -/
theorem flush_all (c : Conn) : (c.flush [.took c.pending]).2.1 = c.cleared := by
  rcases flush_cases c [.took c.pending] with ⟨-, rest, h⟩ | ⟨hno, -⟩
  · rw [h]
  · cases hn : c.pending with
    | zero =>
        rw [hn, absorbs_zero] at hno
        nomatch hno
    | succ n =>
        rw [hn, absorbs, Nat.sub_self, absorbs_zero] at hno
        nomatch hno

theorem push_eq (c : Conn) (m : ServerMessage) : c.push m = { c with
    outbuf := c.outbuf ++ said m
    phase := if encodes m then c.phase else .draining } := by
  rw [push, said, encodes]
  cases m.encode with
  | ok bytes => rfl
  | error e =>
      show _ = { c with outbuf := c.outbuf ++ [], phase := .draining }
      rw [append_nil]

theorem resume_eq (c : Conn) (messages : List ServerMessage) : c.resume messages = { c with
    awaiting := false
    outbuf := c.outbuf ++ messages.flatMap said
    phase := if messages.all encodes then c.phase else .draining } := by
  have hfold : ∀ c : Conn, messages.foldl push c = { c with
      outbuf := c.outbuf ++ messages.flatMap said
      phase := if messages.all encodes then c.phase else .draining } := by
    induction messages with
    | nil =>
        intro c
        rw [flatMap_nil, append_nil]
        rfl
    | cons m rest ih =>
        intro c
        rw [foldl_cons, ih, push_eq, flatMap_cons, append_assoc, all_cons]
        cases encodes m with
        | false => simp
        | true => simp
  exact hfold { c with awaiting := false }

theorem fail_eq (c : Conn) (code : ErrorCode) (detail : String) : c.fail code detail
    = (.stalled,
      { c with outbuf := c.outbuf ++ said (.failure code detail), phase := .draining }) := by
  rw [fail, push_eq]

/-- A step that submits nothing leaves its output to the socket. -/
theorem turn_of_state {c c' : Conn} (h : c.step = (c'.state, c')) :
    c.turn answer = (c'.cleared, [], c'.outbuf.drop c'.outpos) := by
  rw [turn, h]
  have hstate : (match c'.state with
      | .submit request => c'.resume (answer request)
      | _ => c') = c' := by
    rw [state]
    cases c'.isFinished <;> rfl
  dsimp only
  rw [hstate, submitted_state, flush_all]

/-- A step that submits a request has its answer to write. -/
theorem turn_of_submit {c c' : Conn} {m : ClientMessage} (h : c.step = (.submit m, c')) :
    c.turn answer = ((c'.resume (answer m)).cleared, [m],
      (c'.resume (answer m)).outbuf.drop (c'.resume (answer m)).outpos) := by
  rw [turn, h]
  dsimp only
  rw [flush_all]
  rfl

theorem turn_hello (bytes : Bytes) : (resting .hello bytes).turn answer =
    (resting (advance answer .hello bytes).1.1 (advance answer .hello bytes).1.2,
      (advance answer .hello bytes).2) := by
  have hstep := step.eq_1 (resting .hello bytes)
  rw [if_neg (by rintro ⟨⟩), show (resting .hello bytes).phase = _ from rfl] at hstep
  by_cases hshort : bytes.length < CLIENT_HELLO_LEN
  · rw [stepHello_short (c := resting .hello bytes) hshort] at hstep
    rw [turn_of_state answer hstep, advance, if_pos hshort]
    rfl
  rw [advance, if_neg hshort]
  cases hreply : helloReply (bytes.take CLIENT_HELLO_LEN) with
  | accepted v =>
      -- the second round of the loop finds the greeting waiting
      have hhello : (resting .hello bytes).stepHello = (true, { resting .frames
          (bytes.drop CLIENT_HELLO_LEN) with
          outbuf := (accepted v).encode ++ said .ready }) := by
        rw [stepHello, if_neg (show ¬ (resting .hello bytes).inbuf.length < _ from hshort),
          show helloReply ((resting .hello bytes).inbuf.take CLIENT_HELLO_LEN) = _ from hreply]
        dsimp only
        rw [push_eq]
        rfl
      rw [hhello] at hstep
      exact turn_of_state answer hstep
  | refused r =>
      have hhello : (resting .hello bytes).stepHello = (false, { resting .draining
          (bytes.drop CLIENT_HELLO_LEN) with outbuf := (refused r).encode }) := by
        rw [stepHello, if_neg (show ¬ (resting .hello bytes).inbuf.length < _ from hshort),
          show helloReply ((resting .hello bytes).inbuf.take CLIENT_HELLO_LEN) = _ from hreply]
        rfl
      rw [hhello] at hstep
      exact turn_of_state answer hstep

theorem turn_frames (bytes : Bytes) : (resting .frames bytes).turn answer =
    (resting (advance answer .frames bytes).1.1 (advance answer .frames bytes).1.2,
      (advance answer .frames bytes).2) := by
  have hstep : (resting .frames bytes).step = _ := step_frames rfl rfl
  rw [stepFrame_eq] at hstep
  rw [advance]
  cases hfront : front bytes with
  | incomplete =>
      rw [show front (resting .frames bytes).inbuf = _ from hfront] at hstep
      exact turn_of_state answer hstep
  | tooLarge =>
      rw [show front (resting .frames bytes).inbuf = _ from hfront, fail_eq] at hstep
      exact turn_of_state answer hstep
  | malformed rest =>
      rw [show front (resting .frames bytes).inbuf = _ from hfront, fail_eq] at hstep
      exact turn_of_state answer hstep
  | close rest =>
      rw [show front (resting .frames bytes).inbuf = _ from hfront] at hstep
      exact turn_of_state answer hstep
  | request m rest =>
      rw [show front (resting .frames bytes).inbuf = _ from hfront] at hstep
      rw [turn_of_submit answer hstep, resume_eq]
      rfl

/-- **A TURN** of a connection at rest. -/
theorem turn_resting (phase : Phase) (bytes : Bytes) : (resting phase bytes).turn answer =
    (resting (advance answer phase bytes).1.1 (advance answer phase bytes).1.2,
      (advance answer phase bytes).2) := by
  cases phase with
  | hello => exact turn_hello answer bytes
  | frames => exact turn_frames answer bytes
  | draining => exact turn_of_state answer (step_held rfl)

theorem framesOutcome_eq (bytes : Bytes) : framesOutcome answer bytes = match front bytes with
    | .incomplete => ([], [])
    | .tooLarge => ([], said (.failure .protocol "frame too large"))
    | .malformed _ => ([], said (.failure .protocol "malformed message"))
    | .close _ => ([], [])
    | .request m rest =>
        let later := if (answer m).all encodes then framesOutcome answer rest else ([], [])
        (m :: later.1, (answer m).flatMap said ++ later.2) := by
  rw [framesOutcome]
  split <;> rename_i h <;> rw [h]

/-- **NOTHING IS LOST IN A TURN**: what a stream leads to is what the turn
    gives and what the rest leads to. -/
theorem outcome_advance (phase : Phase) (bytes more : Bytes) :
    outcome answer phase (bytes ++ more) =
      ((advance answer phase bytes).2.1 ++ (outcome answer (advance answer phase bytes).1.1
          ((advance answer phase bytes).1.2 ++ more)).1,
        (advance answer phase bytes).2.2 ++ (outcome answer (advance answer phase bytes).1.1
          ((advance answer phase bytes).1.2 ++ more)).2) := by
  cases phase with
  | draining => rfl
  | hello =>
      by_cases hshort : bytes.length < CLIENT_HELLO_LEN
      · rw [advance, if_pos hshort]
        rfl
      · have hle : CLIENT_HELLO_LEN ≤ bytes.length := Nat.not_lt.mp hshort
        rw [advance, if_neg hshort, outcome, if_neg (by rw [length_append]; omega),
          take_append_of_le_length hle, drop_append_of_le_length hle]
        cases helloReply (bytes.take CLIENT_HELLO_LEN) with
        | accepted v => rfl
        | refused r => rw [outcome, append_nil, append_nil]
  | frames =>
      rw [advance]
      by_cases hpart : front bytes = .incomplete
      · rw [hpart]
        rfl
      · rw [outcome, framesOutcome_eq, front_append hpart]
        -- only an answer that encodes leaves more to come of the rest
        cases hfront : front bytes with
        | incomplete => exact absurd hfront hpart
        | tooLarge => simp only [Front.append, outcome, append_nil]
        | malformed rest => simp only [Front.append, outcome, append_nil]
        | close rest => simp only [Front.append, outcome, append_nil]
        | request m rest =>
            dsimp only [Front.append]
            cases (answer m).all encodes <;> rfl

/-- What is behind the frame at the front. -/
def Front.behind : Front → Bytes
  | .malformed rest | .close rest | .request _ rest => rest
  | .incomplete | .tooLarge => []

theorem length_behind (bytes : Bytes) : (front bytes).behind.length ≤ bytes.length := by
  unfold front
  by_cases hshort : bytes.length < HEADER_LEN
  · rw [if_pos hshort]
    exact Nat.zero_le _
  rw [if_neg hshort]
  cases decode (bytes.take HEADER_LEN) with
  | error e => exact Nat.zero_le _
  | ok header =>
      dsimp only
      by_cases hbody : bytes.length < HEADER_LEN + header.bodyLen
      · rw [if_pos hbody]
        exact Nat.zero_le _
      rw [if_neg hbody]
      cases ClientMessage.decode header.msgType (slice HEADER_LEN header.bodyLen bytes) with
      | error e => exact (drop_sublist _ _).length_le
      | ok m => cases m <;> exact (drop_sublist _ _).length_le

theorem weight_resting (phase : Phase) (inbuf : Bytes) :
    (resting phase inbuf).weight = inbuf.length + if phase = .draining then 0 else 1 := rfl

/-- A turn that does something uses up input or stops reading it. -/
theorem weight_advance (phase : Phase) (bytes : Bytes) :
    (resting (advance answer phase bytes).1.1 (advance answer phase bytes).1.2).weight
        < (resting phase bytes).weight
      ∨ (advance answer phase bytes = ((phase, bytes), [], []) ∧ (phase = .draining
        ∨ bytes.length ≤ HEADER_LEN + MAX_BODY ∧ outcome answer phase bytes = ([], []))) := by
  have hmost : ∀ (p : Phase) (rest : Bytes), (resting p rest).weight ≤ rest.length + 1 := by
    intro p rest
    rw [weight_resting]
    split <;> omega
  cases phase with
  | draining => exact .inr ⟨rfl, .inl rfl⟩
  | hello =>
      have hnow : (resting .hello bytes).weight = bytes.length + 1 := rfl
      rw [advance, outcome]
      by_cases hshort : bytes.length < CLIENT_HELLO_LEN
      · rw [if_pos hshort, if_pos hshort]
        exact .inr ⟨rfl, .inr ⟨le_trans (le_of_lt hshort) (by decide), rfl⟩⟩
      · have hrest : (bytes.drop CLIENT_HELLO_LEN).length < bytes.length := by
          have hpos : 0 < CLIENT_HELLO_LEN := by decide
          rw [length_drop]
          omega
        rw [if_neg hshort]
        left
        cases helloReply (bytes.take CLIENT_HELLO_LEN) with
        | accepted v =>
            have := hmost .frames (bytes.drop CLIENT_HELLO_LEN)
            dsimp only
            omega
        | refused r =>
            have := hmost .draining (bytes.drop CLIENT_HELLO_LEN)
            dsimp only
            omega
  | frames =>
      have hnow : (resting .frames bytes).weight = bytes.length + 1 := rfl
      have hdrain : ∀ rest : Bytes, (resting .draining rest).weight = rest.length := fun _ => rfl
      have hle := length_behind bytes
      rw [advance, outcome, framesOutcome_eq]
      cases hfront : front bytes with
      | incomplete => exact .inr ⟨rfl, .inr ⟨length_of_incomplete hfront, rfl⟩⟩
      | tooLarge => exact .inl (Nat.lt_succ_self _)
      | malformed rest =>
          rw [hfront] at hle
          exact .inl (Nat.lt_succ_of_le hle)
      | close rest =>
          rw [hfront] at hle
          exact .inl (Nat.lt_succ_of_le hle)
      | request m rest =>
          have := front_request_lt hfront
          have := hmost (if (answer m).all encodes then .frames else .draining) rest
          left
          dsimp only
          omega

/-! ## Rounds -/

/-- What a conversation comes to, if these bytes are still to arrive. -/
def Talk.total (t : Talk) (later : Bytes) : List ClientMessage × Bytes :=
  let ahead := outcome answer t.conn.phase (t.conn.inbuf ++ t.arrived.flatten ++ later)
  (t.submitted ++ ahead.1, t.sent ++ ahead.2)

/-- Every connection between two rounds is at rest. -/
def Talk.Resting (t : Talk) : Prop := t.conn = resting t.conn.phase t.conn.inbuf

/-- `fill` takes reads, in whole, and stops at a full buffer. -/
theorem fillFrom_spec (phase : Phase) (inbuf : Bytes) (pieces : List Bytes) :
    ∃ moved left, (resting phase inbuf).fillFrom pieces
        = (resting phase (inbuf ++ moved.flatten), left)
      ∧ moved ++ left = pieces
      ∧ (left = [] ∨ HEADER_LEN + MAX_BODY < (inbuf ++ moved.flatten).length) := by
  induction pieces generalizing inbuf with
  | nil => exact ⟨[], [], by rw [flatten_nil, append_nil]; rfl, rfl, .inl rfl⟩
  | cons piece rest ih =>
      rw [fillFrom]
      by_cases hfull : inbuf.length > HEADER_LEN + MAX_BODY
      · rw [if_pos (show (resting phase inbuf).inbuf.length > _ from hfull)]
        refine ⟨[], piece :: rest, ?_, rfl, .inr ?_⟩
        · rw [flatten_nil, append_nil]
        · rw [flatten_nil, append_nil]
          exact hfull
      · rw [if_neg (show ¬ (resting phase inbuf).inbuf.length > _ from hfull)]
        obtain ⟨moved, left, hfill, hpieces, hleft⟩ := ih (inbuf ++ piece)
        rw [append_assoc] at hfill hleft
        exact ⟨piece :: moved, left, hfill, by rw [cons_append, hpieces], hleft⟩

/-- **A ROUND** leaves the whole conversation as it is, and does something or
    finds that nothing comes of what has arrived. -/
theorem Talk.round_spec {t : Talk} (h : t.Resting) :
    (t.round answer).Resting
      ∧ (∀ later, (t.round answer).total answer later = t.total answer later)
      ∧ ((t.round answer).weight < t.weight
        ∨ t.round answer = t ∧ t.total answer [] = (t.submitted, t.sent)) := by
  obtain ⟨conn, arrived, submitted, sent⟩ := t
  obtain ⟨phase, inbuf, rfl⟩ : ∃ phase inbuf, conn = resting phase inbuf := ⟨_, _, h⟩
  obtain ⟨moved, left, hfill, rfl, hleft⟩ := fillFrom_spec phase inbuf arrived
  have hround : Talk.round answer ⟨resting phase inbuf, moved ++ left, submitted, sent⟩
      = ⟨resting (advance answer phase (inbuf ++ moved.flatten)).1.1
          (advance answer phase (inbuf ++ moved.flatten)).1.2, left,
        submitted ++ (advance answer phase (inbuf ++ moved.flatten)).2.1,
        sent ++ (advance answer phase (inbuf ++ moved.flatten)).2.2⟩ := by
    rw [Talk.round, hfill]
    dsimp only
    rw [turn_resting]
  rw [hround]
  refine ⟨rfl, fun later => ?_, ?_⟩
  · have hwhole : inbuf ++ (moved ++ left).flatten ++ later
        = inbuf ++ moved.flatten ++ (left.flatten ++ later) := by
      rw [flatten_append]
      simp only [append_assoc]
    have hturn := outcome_advance answer phase (inbuf ++ moved.flatten) (left.flatten ++ later)
    simp only [Talk.total, resting]
    rw [hwhole, hturn]
    simp only [append_assoc]
  · have hfilled : (resting phase (inbuf ++ moved.flatten)).weight
        = (resting phase inbuf).weight + moved.flatten.length := by
      rw [weight_resting, weight_resting, length_append]
      omega
    simp only [Talk.weight, flatten_append, length_append]
    rcases weight_advance answer phase (inbuf ++ moved.flatten) with hless | ⟨hstill, hquiet⟩
    · left
      omega
    · rw [hstill, append_nil, append_nil]
      cases moved with
      | cons piece moved =>
          left
          rw [length_cons]
          dsimp only
          omega
      | nil =>
          simp only [flatten_nil, append_nil, nil_append] at hleft hquiet ⊢
          refine .inr ⟨trivial, ?_⟩
          -- a connection that still reads has read everything
          rcases hquiet with rfl | ⟨hsmall, hnothing⟩
          · simp only [Talk.total, resting, outcome, append_nil]
          · obtain rfl : left = [] := hleft.resolve_right (not_lt.mpr hsmall)
            simp only [Talk.total, resting, flatten_nil, append_nil, hnothing]

/-- Driving comes to a standstill, at which nothing comes of what has
    arrived. -/
theorem Talk.settle_spec {fuel : Nat} {t : Talk} (h : t.Resting) (hfuel : t.weight < fuel) :
    ∃ t', t.settle answer fuel = some t' ∧ t'.Resting
      ∧ (∀ later, t'.total answer later = t.total answer later)
      ∧ t'.total answer [] = (t'.submitted, t'.sent) := by
  induction fuel generalizing t with
  | zero => omega
  | succ fuel ih =>
      obtain ⟨hrest, htotal, hless | ⟨hsame, hnothing⟩⟩ := t.round_spec answer h
      · have hne : t.round answer ≠ t := by
          intro he
          rw [he] at hless
          exact lt_irrefl _ hless
        obtain ⟨t', hsettle, hrest', htotal', hnothing⟩ := ih hrest (by omega)
        refine ⟨t', ?_, hrest', fun later => (htotal' later).trans (htotal later), hnothing⟩
        rw [Talk.settle, if_neg hne, hsettle]
      · exact ⟨t, by rw [Talk.settle, if_pos hsame], h, fun _ => rfl, hnothing⟩

/-- **A CONVERSATION** is a function of its bytes. -/
theorem converse_spec (chunks : List (List Bytes)) :
    ∃ t, converse answer chunks = some t
      ∧ (t.submitted, t.sent) = outcome answer .hello chunks.flatten.flatten := by
  -- from any standstill on, with the chunks that are left still to come
  have hgen : ∀ (t : Talk), t.Resting → t.total answer [] = (t.submitted, t.sent) →
      ∃ t', chunks.foldlM (Talk.feed answer) t = some t'
        ∧ (t'.submitted, t'.sent) = t.total answer chunks.flatten.flatten := by
    induction chunks with
    | nil => exact fun t _ hnothing => ⟨t, rfl, hnothing.symm⟩
    | cons chunk rest ih =>
        intro t hrest _
        obtain ⟨t₁, hfeed, hrest₁, htotal, hnothing⟩ :=
          Talk.settle_spec answer (t := { t with arrived := t.arrived ++ chunk }) hrest
            (Nat.lt_succ_self _)
        obtain ⟨t', hlater, ht'⟩ := ih t₁ hrest₁ hnothing
        refine ⟨t', ?_, ?_⟩
        · rw [foldlM_cons, Talk.feed, hfeed]
          exact hlater
        · rw [ht', htotal]
          simp only [Talk.total, flatten_cons, flatten_append, append_assoc]
  exact hgen .fresh rfl rfl

end Answer

/-- **ANY PARTITION**: two peers that send the same bytes, in whatever chunks
    and reads, have the same requests submitted and get the same bytes back. -/
theorem converse_same_bytes (answer : ClientMessage → List ServerMessage)
    (chunks chunks' : List (List Bytes))
    (h : chunks.flatten.flatten = chunks'.flatten.flatten) :
    ∃ t t', converse answer chunks = some t ∧ converse answer chunks' = some t'
      ∧ t.submitted = t'.submitted ∧ t.sent = t'.sent := by
  obtain ⟨t, ht, hspec⟩ := converse_spec answer chunks
  obtain ⟨t', ht', hspec'⟩ := converse_spec answer chunks'
  have hsame : (t.submitted, t.sent) = (t'.submitted, t'.sent) := by rw [hspec, hspec', h]
  exact ⟨t, t', ht, ht', congrArg Prod.fst hsame, congrArg Prod.snd hsame⟩

/-- A hello, a request and a frame that is too large: in one gulp, and a byte
    at a time. -/
theorem converse_same_bytes_greeting :
    ∃ t t', converse (fun _ => [.ok]) [[helloBytes ++ authBytes ++ [1, 255, 255, 255, 255]]]
      = some t
      ∧ converse (fun _ => [.ok])
        ((helloBytes ++ authBytes ++ [1, 255, 255, 255, 255]).map fun b => [[b]]) = some t'
      ∧ t.submitted = t'.submitted ∧ t.sent = t'.sent :=
  converse_same_bytes _ _ _ rfl

end QuantyConn
