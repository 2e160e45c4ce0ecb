import QuantyDb.AnswerProofs

/-! # Requests that are left waiting

    `drive` is meant to leave nothing undone: when it returns for a connection
    that waits for nothing, no complete frame is buffered, and a connection
    whose peer is done sending is closed only after everything it sent has been
    submitted.

    Output suspends decoding for a round, and the loop stops when that round
    used up no input.  So it holds up to output: what a round that only writes
    finds in the buffer stays there, or is dropped when the peer is done.
    `drive_settles_iff` says exactly when. -/

namespace QuantyConn

open QuantyKey QuantyPage QuantyProto QuantyAnswer LittleEndian List Conn FrameHeader ClientMessage

/-! ## What is at the front of the input -/

/-- What the bytes of a buffer begin with. -/
inductive Front
  | incomplete
  | tooLarge
  | malformed (rest : Bytes)
  | close (rest : Bytes)
  | request (m : ClientMessage) (rest : Bytes)
  deriving DecidableEq, Repr

def front (bytes : Bytes) : Front :=
  if bytes.length < HEADER_LEN then .incomplete
  else match decode (bytes.take HEADER_LEN) with
    | .error _ => .tooLarge
    | .ok header =>
        if bytes.length < HEADER_LEN + header.bodyLen then .incomplete
        else
          let rest := bytes.drop (HEADER_LEN + header.bodyLen)
          match decode header.msgType (slice HEADER_LEN header.bodyLen bytes) with
          | .error _ => .malformed rest
          | .ok .close => .close rest
          | .ok m => .request m rest

/-- Whether a complete frame is at the front. -/
def Front.complete : Front → Bool
  | .incomplete | .tooLarge => false
  | .malformed _ | .close _ | .request _ _ => true

/-- `step_frame` goes by what is at the front. -/
theorem stepFrame_eq (c : Conn) : c.stepFrame = match front c.inbuf with
    | .incomplete => (.stalled, c)
    | .tooLarge => c.fail .protocol "frame too large"
    | .malformed rest => { c with inbuf := rest }.fail .protocol "malformed message"
    | .close rest => (.stalled, { c with inbuf := rest, phase := .draining })
    | .request m rest => (.request m, { c with inbuf := rest }) := by
  unfold stepFrame front
  split
  · rfl
  · cases decode (c.inbuf.take HEADER_LEN) with
    | error e => rfl
    | ok header =>
        dsimp only
        split
        · rfl
        · cases decode header.msgType (slice HEADER_LEN header.bodyLen c.inbuf) with
          | error e => rfl
          | ok m => cases m <;> rfl

variable {bytes rest : Bytes} {m : ClientMessage} {c c' : Conn} {out : Step}
  {v : UInt16}

/-- A request at the front: a header, its whole body, and a message in it. -/
theorem front_eq_request : front bytes = .request m rest ↔
      ∃ header, decode (bytes.take HEADER_LEN) = .ok header ∧
        HEADER_LEN + header.bodyLen ≤ bytes.length ∧
        decode header.msgType (slice HEADER_LEN header.bodyLen bytes) = .ok m ∧
        m ≠ .close ∧ bytes.drop (HEADER_LEN + header.bodyLen) = rest := by
  constructor
  · intro h
    unfold front at h
    split at h
    · nomatch h
    · cases hdec : decode (bytes.take HEADER_LEN) with
      | error e => rw [hdec] at h; nomatch h
      | ok header =>
          rw [hdec] at h
          dsimp only at h
          split at h
          · nomatch h
          · rename_i hbody
            refine ⟨header, rfl, Nat.not_lt.mp hbody, ?_⟩
            cases hmsg : decode header.msgType
                (slice HEADER_LEN header.bodyLen bytes) with
            | error e => rw [hmsg] at h; nomatch h
            | ok m' =>
                rw [hmsg] at h
                cases m' with
                | close => nomatch h
                | _ =>
                    obtain ⟨rfl, hrest⟩ := Front.request.inj h
                    exact ⟨rfl, nofun, hrest⟩
  · rintro ⟨header, hdec, hle, hmsg, hne, rfl⟩
    rw [front, if_neg (by omega), hdec]
    dsimp only
    rw [if_neg (Nat.not_lt.mpr hle), hmsg]
    cases m with
    | close => exact absurd rfl hne
    | _ => rfl

theorem front_request_lt (h : front bytes = .request m rest) : rest.length < bytes.length := by
  obtain ⟨header, -, hle, -, -, rfl⟩ := front_eq_request.mp h
  have h5 : HEADER_LEN = 5 := rfl
  rw [length_drop]
  omega

/-- A request is read the same, whatever follows its frame. -/
theorem front_request_split (h : front bytes = .request m rest) :
    ∃ used, bytes = used ++ rest ∧ ∀ more, front (used ++ more) = .request m more := by
  obtain ⟨header, hdec, hle, hmsg, hne, rfl⟩ := front_eq_request.mp h
  have hused : (bytes.take (HEADER_LEN + header.bodyLen)).length = HEADER_LEN + header.bodyLen := by
    rw [length_take, Nat.min_eq_left hle]
  refine ⟨bytes.take (HEADER_LEN + header.bodyLen), (take_append_drop _ _).symm, fun more => ?_⟩
  refine front_eq_request.mpr ⟨header, ?_, ?_, ?_, hne, drop_left' hused⟩
  · rw [take_append_of_le_length (by omega), take_take,
      Nat.min_eq_left (Nat.le_add_right _ _)]
    exact hdec
  · rw [length_append, hused]
    omega
  · rw [slice, drop_append_of_le_length (by omega),
      take_append_of_le_length (by rw [length_drop]; omega), drop_take, take_take,
      Nat.add_sub_cancel_left, Nat.min_self]
    exact hmsg

/-- The requests that a run of frames carries, up to a `Close` or a frame that
    breaks the protocol. -/
def owedLoop : Nat → Bytes → List ClientMessage
  | 0, _ => []
  | fuel + 1, bytes =>
      match front bytes with
      | .request m rest => m :: owedLoop fuel rest
      | _ => []

def owed (bytes : Bytes) : List ClientMessage := owedLoop (bytes.length + 1) bytes

theorem owedLoop_eq {fuel : Nat} (h : bytes.length < fuel) : owedLoop fuel bytes = owed bytes := by
  -- both run through the same frames, with fuel to spare
  have hgen : ∀ (f g : Nat) (b : Bytes), b.length < f → b.length < g →
      owedLoop f b = owedLoop g b := by
    intro f
    induction f with
    | zero => intro g b hf; omega
    | succ f ih =>
        intro g b hf hg
        obtain ⟨g, rfl⟩ := Nat.exists_eq_add_of_lt hg
        rw [owedLoop, owedLoop]
        cases hfront : front b with
        | request m rest =>
            have hlt := front_request_lt hfront
            exact congrArg (m :: ·) (ih _ rest (by omega) (by omega))
        | _ => rfl
  exact hgen fuel (bytes.length + 1) bytes h (Nat.lt_succ_self _)

theorem owed_request (h : front bytes = .request m rest) : owed bytes = m :: owed rest := by
  rw [owed, owedLoop, h]
  exact congrArg (m :: ·) (owedLoop_eq (front_request_lt h))

theorem owed_of_not_request (h : ∀ m rest, front bytes ≠ .request m rest) : owed bytes = [] := by
  rw [owed, owedLoop]
  cases hfront : front bytes with
  | request m rest => exact absurd hfront (h m rest)
  | _ => rfl

/-- The requests of a whole stream: a hello that is accepted, and frames. -/
def requests (stream : Bytes) : List ClientMessage :=
  if stream.length < CLIENT_HELLO_LEN then []
  else match helloReply (stream.take CLIENT_HELLO_LEN) with
    | .accepted _ => owed (stream.drop CLIENT_HELLO_LEN)
    | .refused _ => []

/-! ## Flushing -/

/-- The bytes the socket has not taken yet. -/
def Conn.pending (c : Conn) : Nat := c.outbuf.length - c.outpos

/-- Whether the socket takes so many bytes before it blocks or fails. -/
def absorbs : List Write → Nat → Bool
  | _, 0 => true
  | [], _ + 1 => false
  | .took 0 :: _, _ + 1 => false
  | .took (k + 1) :: rest, n + 1 => absorbs rest (n - k)
  | .interrupted :: rest, n + 1 => absorbs rest (n + 1)
  | .wouldBlock :: _, _ + 1 => false
  | .error :: _, _ + 1 => false

theorem absorbs_zero (w : List Write) : absorbs w 0 = true := by
  cases w with
  | nil => rfl
  | cons x rest => cases x <;> rfl

/-- A connection with everything written. -/
def Conn.cleared (c : Conn) : Conn := { c with outbuf := [], outpos := 0 }

theorem wantsWrite_iff (c : Conn) : c.wantsWrite = true ↔ 0 < c.pending := by
  rw [wantsWrite, pending, decide_eq_true_iff]
  omega

theorem wantsWrite_eq_false_iff (c : Conn) : c.wantsWrite = false ↔ c.pending = 0 := by
  rw [← Bool.not_eq_true, wantsWrite_iff]
  omega

theorem flush_idle (h : c.pending = 0) (w : List Write) : c.flush w = (true, c.cleared, w) := by
  have hno : c.wantsWrite = false := (wantsWrite_eq_false_iff c).mpr h
  cases w with
  | nil => rw [flush, hno]; rfl
  | cons x rest => rw [flush.eq_def, hno]; rfl

/-- The socket takes everything, or some is left. -/
theorem flush_cases (c : Conn) (w : List Write) :
    (absorbs w c.pending = true ∧ ∃ rest, c.flush w = (true, c.cleared, rest)) ∨
      (absorbs w c.pending = false ∧ ∃ fine pos rest, pos < c.outbuf.length ∧
        c.flush w = (fine, { c with outpos := pos }, rest)) := by
  induction w generalizing c with
  | nil =>
      cases hn : c.pending with
      | zero => exact .inl ⟨rfl, _, flush_idle hn _⟩
      | succ n =>
          have hyes : c.wantsWrite = true := (wantsWrite_iff c).mpr (by omega)
          refine .inr ⟨rfl, true, c.outpos, [], by simpa [wantsWrite] using hyes, ?_⟩
          rw [flush, if_pos hyes]
  | cons x rest ih =>
      cases hn : c.pending with
      | zero => exact .inl ⟨by cases x <;> rfl, _, flush_idle hn _⟩
      | succ n =>
          have hyes : c.wantsWrite = true := (wantsWrite_iff c).mpr (by omega)
          have hpos : c.outpos < c.outbuf.length := by simpa [wantsWrite] using hyes
          rw [flush.eq_def]
          dsimp only
          rw [if_pos hyes]
          cases x with
          | took k =>
              cases k with
              | zero => exact .inr ⟨rfl, false, c.outpos, rest, hpos, rfl⟩
              | succ k =>
                  have hnext : ({ c with outpos := c.outpos + (k + 1) } : Conn).pending
                      = n - k := by
                    rw [pending] at hn ⊢
                    dsimp only
                    omega
                  have h := ih { c with outpos := c.outpos + (k + 1) }
                  rw [hnext] at h
                  exact h
          | wouldBlock => exact .inr ⟨rfl, true, c.outpos, rest, hpos, rfl⟩
          | interrupted =>
              have h := ih c
              rw [hn] at h
              exact h
          | error => exact .inr ⟨rfl, false, c.outpos, rest, hpos, rfl⟩

/-! ## One round -/

/-- What a step hands to the dispatcher. -/
def Step.submitted : Step → List ClientMessage
  | .submit request => [request]
  | _ => []

/-- A round whose output the socket takes in full. -/
theorem round_absorbed {w : List Write} (hstep : c.step = (out, c'))
    (habs : absorbs w c'.pending = true) (fuel : Nat) : ∃ rest, driveLoop (fuel + 1) c w =
      if (out == .closed || c'.cleared.isFinished) || c'.awaiting || c'.buffered == c.buffered then
        ⟨c'.cleared, out.submitted, out == .closed || c'.cleared.isFinished, false⟩
      else
        let d := driveLoop fuel c'.cleared rest
        { d with submitted := out.submitted ++ d.submitted } := by
  rcases flush_cases c' w with ⟨-, rest, hflush⟩ | ⟨hno, -⟩
  · refine ⟨rest, ?_⟩
    have hwrite : c'.cleared.wantsWrite = false := rfl
    rw [driveLoop, hstep]
    dsimp only
    rw [hflush]
    dsimp only
    rw [hwrite, Bool.not_true, Bool.or_false, Bool.or_false]
    cases out <;> rfl
  · rw [habs] at hno
    nomatch hno

/-- A round that leaves output behind is the last. -/
theorem round_blocked {w : List Write} (hstep : c.step = (out, c'))
    (habs : absorbs w c'.pending = false) (fuel : Nat) :
    ∃ fine pos, pos < c'.outbuf.length ∧ driveLoop (fuel + 1) c w =
      ⟨{ c' with outpos := pos }, out.submitted, out == .closed || !fine, !fine⟩ := by
  rcases flush_cases c' w with ⟨hyes, -⟩ | ⟨-, fine, pos, rest, hpos, hflush⟩
  · rw [habs] at hyes
    nomatch hyes
  · refine ⟨fine, pos, hpos, ?_⟩
    have hwrite : ({ c' with outpos := pos } : Conn).wantsWrite = true := decide_eq_true hpos
    have hfin : ({ c' with outpos := pos } : Conn).isFinished = false := by
      rw [isFinished, hwrite, Bool.not_true, Bool.and_false, Bool.false_and]
    rw [driveLoop, hstep]
    dsimp only
    rw [hflush]
    dsimp only
    rw [hwrite, hfin, Bool.or_false, Bool.or_true, Bool.true_or, if_pos rfl]
    cases out <;> rfl

/-! ## A peer and its connection -/

/-- A connection together with what its peer has sent and what was submitted
    for it. -/
structure Peer where
  conn : Conn
  received : Bytes
  submitted : List ClientMessage
  closed : Bool
  broken : Bool
  deriving DecidableEq, Repr

variable {p q : Peer}

def Peer.fresh : Peer := ⟨.new, [], [], false, false⟩

/-- What makes the worker drive a connection: input, room for output, or the
    answer to the request that is out. -/
inductive Event
  | readable (reads : List Read) (writes : List Write)
  | writable (writes : List Write)
  | answered (messages : List ServerMessage) (writes : List Write)
  deriving Repr

def Event.writes : Event → List Write
  | .readable _ writes | .writable writes | .answered _ writes => writes

/-- What `on_ready` and `deliver` do before they drive the connection.  A read
    that fails closes it without driving it. -/
def Peer.arrive (p : Peer) : Event → Option Peer
  | .readable reads _ =>
      match p.conn.fill reads with
      | (some more, c) => some { p with
          conn := if more then c else c.peerDone
          received := p.received ++ c.inbuf.drop p.conn.inbuf.length }
      | (none, _) => none
  | .writable _ => some p
  | .answered messages _ =>
      if p.conn.awaiting then some { p with conn := p.conn.resume messages } else none

def Peer.after (p : Peer) (d : Conn.Driven) : Peer :=
  { p with
    conn := d.conn
    submitted := p.submitted ++ d.submitted
    closed := d.finished
    broken := d.broken }

def Peer.driven (p : Peer) (writes : List Write) : Peer := p.after (p.conn.drive writes)

/-- Every way a connection can have come to be. -/
inductive Reached : Peer → Prop
  | fresh : Reached .fresh
  | drive {p q : Peer} {e : Event} (h : Reached p) (hopen : p.closed = false)
      (harrive : p.arrive e = some q) : Reached (q.driven e.writes)

/-- Nothing is left undone: no complete frame waits while nothing is
    outstanding, and no request of a peer that is done sending is dropped. -/
structure Peer.Settled (p : Peer) : Prop where
  idle : p.closed = false → p.conn.awaiting = false → p.conn.wantsWrite = false →
    p.conn.phase = .hello ∨ (front p.conn.inbuf).complete = false
  kept : p.closed = true → p.broken = false → p.conn.inputClosed = true →
    p.submitted = requests p.received

/-- What has been read is what was used and what is buffered, and the requests
    of the used part are those submitted. -/
structure Peer.Sound (p : Peer) : Prop where
  hello : p.conn.phase = .hello → p.received = p.conn.inbuf ∧ p.submitted = [] ∧
    p.conn.outbuf = [] ∧ p.conn.outpos = 0 ∧ p.conn.awaiting = false
  frames : p.conn.phase = .frames → ∃ used, p.received = used ++ p.conn.inbuf ∧
    ∀ more, requests (used ++ more) = p.submitted ++ owed more
  draining : p.conn.phase = .draining → p.conn.awaiting = false

/-- Of a connection that drains, little is asked. -/
theorem sound_draining (h : p.conn.phase = .draining) (ha : p.conn.awaiting = false) : p.Sound where
  hello hp := by rw [h] at hp; nomatch hp
  frames hp := by rw [h] at hp; nomatch hp
  draining _ := ha

theorem sound_frames (used : Bytes) (h : p.conn.phase = .frames)
    (hrec : p.received = used ++ p.conn.inbuf)
    (hreq : ∀ more, requests (used ++ more) = p.submitted ++ owed more) : p.Sound where
  hello hp := by rw [h] at hp; nomatch hp
  frames _ := ⟨used, hrec, hreq⟩
  draining hp := by rw [h] at hp; nomatch hp

theorem Peer.Sound.requests_frames (hs : p.Sound) (h : p.conn.phase = .frames) :
    requests p.received = p.submitted ++ owed p.conn.inbuf := by
  obtain ⟨used, hrec, hreq⟩ := hs.frames h
  rw [hrec, hreq]

/-! ## Rounds that end in draining -/

/-- A step that leaves a connection draining, with all that was sent answered
    for: whatever the socket does, nothing is left undone. -/
theorem drains (hstep : q.conn.step = (out, c')) (hphase : c'.phase = .draining)
    (haw : c'.awaiting = false) (hout : out.submitted = [])
    (hreq : q.submitted = requests q.received) (fuel : Nat) (w : List Write) :
    (q.after (driveLoop (fuel + 1) q.conn w)).Sound ∧
      (q.after (driveLoop (fuel + 1) q.conn w)).Settled := by
  cases habs : absorbs w c'.pending with
  | true =>
      obtain ⟨rest, hround⟩ := round_absorbed hstep habs fuel
      have hfin : c'.cleared.isFinished = true := by
        simp [isFinished, cleared, wantsWrite, hphase, haw]
      rw [hfin, Bool.or_true, Bool.true_or, Bool.true_or, if_pos rfl] at hround
      rw [hround]
      refine ⟨sound_draining hphase haw, nofun, fun _ _ _ => ?_⟩
      show q.submitted ++ out.submitted = _
      rw [hout, append_nil]
      exact hreq
  | false =>
      obtain ⟨fine, pos, hpos, hround⟩ := round_blocked hstep habs fuel
      rw [hround]
      refine ⟨sound_draining hphase haw, fun _ _ hw => ?_, fun _ _ _ => ?_⟩
      · exact absurd hw (by simp [Peer.after, wantsWrite, hpos])
      · show q.submitted ++ out.submitted = _
        rw [hout, append_nil]
        exact hreq

/-! ## Rounds that read frames -/

theorem step_frames (hphase : c.phase = .frames) (hheld : c.held = false) :
    c.step = match c.stepFrame with
      | (.stalled, c) => (c.state, c)
      | (.request request, c) => (.submit request, { c with awaiting := true }) := by
  rw [step, if_neg (by rw [hheld]; exact nofun), hphase]
  dsimp only
  exact if_neg (by rw [hheld]; exact nofun)

theorem held_eq_false (h : c.held = false) :
    c.phase ≠ .draining ∧ c.awaiting = false ∧ c.pending = 0 := by
  rw [held, Bool.or_eq_false_iff, Bool.or_eq_false_iff] at h
  refine ⟨fun hd => ?_, h.1.2, (wantsWrite_eq_false_iff c).mp h.2⟩
  rw [hd] at h
  nomatch h.1.1

theorem fail_phase (c : Conn) (code : ErrorCode) (detail : String) :
    (c.fail code detail).1 = .stalled ∧ (c.fail code detail).2.phase = .draining ∧
      (c.fail code detail).2.awaiting = c.awaiting := by
  refine ⟨rfl, rfl, ?_⟩
  show (c.push (.failure code detail)).awaiting = _
  rw [push]
  cases (ServerMessage.failure code detail).encode <;> rfl

theorem submitted_state (c : Conn) : c.state.submitted = [] := by
  rw [state]
  split <;> rfl

/-- A round over frames, with nothing outstanding, leaves nothing undone. -/
theorem frames_round (hs : q.Sound) (hphase : q.conn.phase = .frames) (hheld : q.conn.held = false)
    (fuel : Nat) (w : List Write) : (q.after (driveLoop (fuel + 1) q.conn w)).Sound ∧
      (q.after (driveLoop (fuel + 1) q.conn w)).Settled := by
  obtain ⟨-, haw, hpend⟩ := held_eq_false hheld
  have hstep := step_frames hphase hheld
  have hreq := hs.requests_frames hphase
  rw [stepFrame_eq] at hstep
  -- a frame that ends the reading, however it is reported
  have hend : ∀ c' : Conn, q.conn.step = (c'.state, c') → c'.phase = .draining →
      c'.awaiting = false → (∀ m rest, front q.conn.inbuf ≠ .request m rest) →
      (q.after (driveLoop (fuel + 1) q.conn w)).Sound ∧
        (q.after (driveLoop (fuel + 1) q.conn w)).Settled := by
    intro c' hc hp ha hfront
    refine drains hc hp ha (submitted_state c') ?_ fuel w
    rw [hreq, owed_of_not_request hfront, append_nil]
  cases hfront : front q.conn.inbuf with
  | incomplete =>
      rw [hfront] at hstep
      have habs : absorbs w q.conn.pending = true := hpend ▸ absorbs_zero w
      obtain ⟨rest, hround⟩ := round_absorbed hstep habs fuel
      rw [beq_self_eq_true, Bool.or_true, if_pos rfl] at hround
      rw [hround]
      have hsub : q.submitted ++ q.conn.state.submitted = q.submitted := by
        rw [submitted_state, append_nil]
      refine ⟨?_, fun _ _ _ => .inr ?_, fun _ _ _ => ?_⟩
      · obtain ⟨used, hrec, hall⟩ := hs.frames hphase
        refine sound_frames used hphase hrec (fun more => ?_)
        show _ = q.submitted ++ q.conn.state.submitted ++ owed more
        rw [hsub, hall]
      · show (front q.conn.inbuf).complete = false
        rw [hfront]
        rfl
      · show q.submitted ++ q.conn.state.submitted = requests q.received
        rw [hsub, hreq, owed_of_not_request (fun m r h => by rw [hfront] at h; nomatch h),
          append_nil]
  | tooLarge =>
      rw [hfront] at hstep
      obtain ⟨h1, h2, h3⟩ := fail_phase q.conn .protocol "frame too large"
      exact hend _ hstep h2 (h3.trans haw) (fun m r h => by rw [hfront] at h; nomatch h)
  | malformed rest =>
      rw [hfront] at hstep
      obtain ⟨h1, h2, h3⟩ := fail_phase { q.conn with inbuf := rest } .protocol "malformed message"
      exact hend _ hstep h2 (h3.trans haw) (fun m r h => by rw [hfront] at h; nomatch h)
  | close rest =>
      rw [hfront] at hstep
      exact hend _ hstep rfl haw (fun m r h => by rw [hfront] at h; nomatch h)
  | request m rest =>
      rw [hfront] at hstep
      have habs : absorbs w ({ q.conn with inbuf := rest, awaiting := true } : Conn).pending
          = true := by
        show absorbs w q.conn.pending = true
        rw [hpend]
        exact absorbs_zero w
      obtain ⟨rest', hround⟩ := round_absorbed hstep habs fuel
      have hfin : ({ q.conn with inbuf := rest, awaiting := true } : Conn).cleared.isFinished
          = false := by
        simp [isFinished, cleared]
      rw [hfin] at hround
      rw [if_pos (by simp)] at hround
      rw [hround]
      refine ⟨?_, fun _ ha => absurd ha (by simp [Peer.after, cleared]), fun hc => absurd hc ?_⟩
      · obtain ⟨used, hrec, hall⟩ := hs.frames hphase
        obtain ⟨frm, hsplit, hread⟩ := front_request_split hfront
        refine sound_frames (used ++ frm) hphase ?_ (fun more => ?_)
        · show q.received = used ++ frm ++ rest
          rw [hrec, hsplit, append_assoc]
        · show _ = q.submitted ++ [m] ++ owed more
          rw [append_assoc, hall, owed_request (hread more), append_assoc]
          rfl
      · exact nofun

/-! ## Rounds that only write -/

theorem step_held (h : c.held = true) : c.step = (c.state, c) := by
  rw [step, if_pos h]

/-- A connection that waits for something only writes. -/
theorem held_round (hheld : q.conn.held = true) (fuel : Nat) (w : List Write) :
    (absorbs w q.conn.pending = true ∧ q.after (driveLoop (fuel + 1) q.conn w)
      = { q with conn := q.conn.cleared, closed := q.conn.cleared.isFinished, broken := false }) ∨
    (absorbs w q.conn.pending = false ∧ ∃ fine pos, pos < q.conn.outbuf.length ∧
      q.after (driveLoop (fuel + 1) q.conn w)
        = { q with conn := { q.conn with outpos := pos }, closed := !fine, broken := !fine }) := by
  have hstep := step_held hheld
  have hnone := submitted_state q.conn
  cases habs : absorbs w q.conn.pending with
  | true =>
      obtain ⟨rest, hround⟩ := round_absorbed hstep habs fuel
      rw [beq_self_eq_true, Bool.or_true, if_pos rfl, hnone] at hround
      refine .inl ⟨rfl, ?_⟩
      -- a connection that was finished still is
      have hfin : (q.conn.state == .closed || q.conn.cleared.isFinished)
          = q.conn.cleared.isFinished := by
        rw [state]
        split
        · rename_i h
          rw [isFinished, Bool.and_eq_true, Bool.and_eq_true] at h
          have hclear : q.conn.cleared.isFinished = true := by
            rw [isFinished, Bool.and_eq_true, Bool.and_eq_true]
            exact ⟨⟨h.1.1, rfl⟩, h.2⟩
          rw [hclear, Bool.or_true]
        · exact Bool.false_or _
      rw [hround, hfin, Peer.after, append_nil]
  | false =>
      obtain ⟨fine, pos, hpos, hround⟩ := round_blocked hstep habs fuel
      have hpend : q.conn.pending ≠ 0 := by
        intro h0
        rw [h0, absorbs_zero] at habs
        nomatch habs
      have hwant : q.conn.wantsWrite = true := (wantsWrite_iff _).mpr (Nat.pos_of_ne_zero hpend)
      have hopen : q.conn.state = .stayOpen := by
        rw [state, isFinished, hwant, Bool.not_true, Bool.and_false, Bool.false_and]
        rfl
      rw [hnone, hopen] at hround
      refine .inr ⟨rfl, fine, pos, hpos, ?_⟩
      rw [hround, Peer.after, append_nil]
      rfl

/-! ## Rounds that read a hello -/

/-- The greeting: the reply to a hello and the message that says so. -/
def GREETING_LEN : Nat := 9

theorem stepHello_short (h : c.inbuf.length < CLIENT_HELLO_LEN) : c.stepHello = (false, c) := by
  rw [stepHello, if_pos h]

theorem stepHello_refused {r : Refusal} (h : CLIENT_HELLO_LEN ≤ c.inbuf.length)
    (hr : helloReply (c.inbuf.take CLIENT_HELLO_LEN) = .refused r) :
    ∃ out, c.stepHello = (false, { c with
      inbuf := c.inbuf.drop CLIENT_HELLO_LEN, outbuf := out, phase := .draining }) := by
  rw [stepHello, if_neg (Nat.not_lt.mpr h), hr]
  exact ⟨_, rfl⟩

theorem stepHello_accepted (h : CLIENT_HELLO_LEN ≤ c.inbuf.length)
    (hr : helloReply (c.inbuf.take CLIENT_HELLO_LEN) = .accepted v) (hout : c.outbuf = []) :
    ∃ out : Bytes, out.length = GREETING_LEN ∧ c.stepHello = (true, { c with
      inbuf := c.inbuf.drop CLIENT_HELLO_LEN, outbuf := out, phase := .frames }) := by
  have hready : ServerMessage.ready.encode = .ok (frameBytes T_READY []) := rfl
  refine ⟨(ServerHello.accepted v).encode ++ frameBytes T_READY [], ?_, ?_⟩
  · simp [ServerHello.encode, frameBytes, prefixed, GREETING_LEN]
  · rw [stepHello, if_neg (Nat.not_lt.mpr h), hr, hout]
    dsimp only
    rw [push, hready]
    rfl

/-- When a drive leaves nothing undone, seen from before it.  A hello that is
    accepted, an answer, or the rest of either, is output that the socket may
    take at once; what is buffered behind it is then not looked at. -/
def Peer.Clear (q : Peer) (w : List Write) : Prop :=
  match q.conn.phase with
  | .hello => q.conn.inputClosed = true → CLIENT_HELLO_LEN ≤ q.conn.inbuf.length →
      (∃ v, helloReply (q.conn.inbuf.take CLIENT_HELLO_LEN) = .accepted v) →
      absorbs w GREETING_LEN = true → owed (q.conn.inbuf.drop CLIENT_HELLO_LEN) = []
  | .frames => q.conn.awaiting = false → 0 < q.conn.pending →
      absorbs w q.conn.pending = true →
      if q.conn.inputClosed then owed q.conn.inbuf = [] else (front q.conn.inbuf).complete = false
  | .draining => q.conn.inputClosed = true → absorbs w q.conn.pending = true →
      q.submitted = requests q.received

/-- A connection before its hello has said nothing and waits for nothing. -/
theorem step_hello (hs : q.Sound) (hphase : q.conn.phase = .hello) :
    q.conn.step = match q.conn.stepHello with
      | (true, c) => c.stepFrames
      | (false, c) => (c.state, c) := by
  obtain ⟨-, -, hout, -, haw⟩ := hs.hello hphase
  have hpend : q.conn.pending = 0 := by rw [pending, hout]; exact Nat.zero_sub _
  have hheld : q.conn.held = false := by
    rw [held, hphase, haw, (wantsWrite_eq_false_iff _).mpr hpend]
    rfl
  have hstep : q.conn.step = match q.conn.phase with
      | .hello =>
          match q.conn.stepHello with
          | (true, c) => c.stepFrames
          | (false, c) => (c.state, c)
      | .frames => q.conn.stepFrames
      | .draining => (q.conn.state, q.conn) := if_neg (by rw [hheld]; exact nofun)
  refine hstep.trans ?_
  cases q.conn.stepHello with
  | mk done c => cases done <;> simp only [hphase]

/-- The drive of a connection that has not even a hello. -/
theorem short_hello (hs : q.Sound) (hphase : q.conn.phase = .hello)
    (hlen : q.conn.inbuf.length < CLIENT_HELLO_LEN) (w : List Write) :
    (q.driven w).Sound ∧ (q.driven w).Settled := by
  obtain ⟨hrec, hsub, hout, hpos, haw⟩ := hs.hello hphase
  have hstep := step_hello hs hphase
  rw [stepHello_short hlen] at hstep
  have habs : absorbs w q.conn.pending = true := by
    rw [pending, hout, length_nil, Nat.zero_sub]
    exact absorbs_zero w
  obtain ⟨rest, hround⟩ := round_absorbed hstep habs q.conn.buffered
  rw [beq_self_eq_true, Bool.or_true, if_pos rfl, submitted_state] at hround
  rw [Peer.driven, drive, hround]
  refine ⟨⟨fun _ => ⟨hrec, ?_, rfl, rfl, haw⟩, fun h => ?_, fun _ => haw⟩, fun _ _ _ => .inl hphase,
    ?_⟩
  · exact (append_nil _).trans hsub
  · nomatch hphase.symm.trans h
  · intro _ _ _
    show q.submitted ++ [] = requests q.received
    rw [hsub, hrec, requests, if_pos hlen]
    rfl

/-- An accepted hello: the connection reads frames, once its greeting is out. -/
theorem step_greeting (hs : q.Sound) (hphase : q.conn.phase = .hello)
    (hge : CLIENT_HELLO_LEN ≤ q.conn.inbuf.length)
    (hreply : helloReply (q.conn.inbuf.take CLIENT_HELLO_LEN) = .accepted v) :
    ∃ c : Conn, q.conn.step = (.stayOpen, c) ∧ c.phase = .frames ∧ c.awaiting = false ∧
      c.inputClosed = q.conn.inputClosed ∧ c.inbuf = q.conn.inbuf.drop CLIENT_HELLO_LEN ∧
      c.pending = GREETING_LEN := by
  obtain ⟨-, -, hout, hpos, haw⟩ := hs.hello hphase
  obtain ⟨out, hgreet, hhello⟩ := stepHello_accepted hge hreply hout
  have hstep := step_hello hs hphase
  rw [hhello] at hstep
  refine ⟨{ q.conn with
    inbuf := q.conn.inbuf.drop CLIENT_HELLO_LEN, outbuf := out, phase := .frames },
    ?_, rfl, haw, rfl, rfl, ?_⟩
  · have hwant : ({ q.conn with
        inbuf := q.conn.inbuf.drop CLIENT_HELLO_LEN, outbuf := out,
        phase := .frames } : Conn).wantsWrite
        = true := by
      rw [wantsWrite, hgreet, hpos]
      rfl
    rw [hstep]
    dsimp only
    rw [stepFrames, held, hwant, Bool.or_true, if_pos rfl, state, isFinished, hwant,
      Bool.not_true, Bool.and_false, Bool.false_and]
    rfl
  · show out.length - q.conn.outpos = _
    rw [hgreet, hpos]
    rfl

/-- The drive of a connection whose hello is accepted. -/
theorem greeting_drive (hs : q.Sound) (hphase : q.conn.phase = .hello)
    (hge : CLIENT_HELLO_LEN ≤ q.conn.inbuf.length)
    (hreply : helloReply (q.conn.inbuf.take CLIENT_HELLO_LEN) = .accepted v) (w : List Write) :
    (q.driven w).Sound ∧ ((q.driven w).Settled ↔
      (q.conn.inputClosed = true → absorbs w GREETING_LEN = true →
        owed (q.conn.inbuf.drop CLIENT_HELLO_LEN) = [])) := by
  obtain ⟨hrec, hsub, -, -, -⟩ := hs.hello hphase
  obtain ⟨c, hstep, hphase', haw', hclosed', hin, hpend⟩ := step_greeting hs hphase hge hreply
  -- the hello is used up, and what follows it decides what is owed
  have hread : ∀ more, requests (q.conn.inbuf.take CLIENT_HELLO_LEN ++ more) = q.submitted
      ++ owed more := by
    intro more
    have htake : (q.conn.inbuf.take CLIENT_HELLO_LEN).length = CLIENT_HELLO_LEN := by
      rw [length_take, Nat.min_eq_left hge]
    rw [requests, if_neg (by rw [length_append]; omega), take_left' htake,
      drop_left' htake, hreply, hsub]
    rfl
  have hsplit : q.received = q.conn.inbuf.take CLIENT_HELLO_LEN ++ c.inbuf := by
    rw [hin, take_append_drop, hrec]
  have hreads : ∀ more, requests (q.conn.inbuf.take CLIENT_HELLO_LEN ++ more)
      = q.submitted ++ [] ++ owed more := by
    intro more
    rw [append_nil, hread]
  rw [Peer.driven, drive]
  cases habs : absorbs w GREETING_LEN with
  | false =>
      obtain ⟨fine, pos, hlt, hround⟩ := round_blocked hstep (hpend ▸ habs) q.conn.buffered
      rw [hround]
      refine ⟨sound_frames _ hphase' hsplit hreads,
        iff_of_true ⟨fun _ _ hw => ?_, fun hfin hb => ?_⟩ ?_⟩
      · exact absurd hw (by simp [Peer.after, wantsWrite, hlt])
      · nomatch hfin.symm.trans hb
      · nofun
  | true =>
      obtain ⟨rest, hround⟩ := round_absorbed hstep (hpend ▸ habs) q.conn.buffered
      have hfin : c.cleared.isFinished = q.conn.inputClosed := by
        show ((c.phase == .draining || c.inputClosed) && !false && !c.awaiting) = _
        rw [hphase', haw', hclosed', Bool.not_false, Bool.and_true, Bool.and_true]
        exact Bool.false_or _
      have h9 : CLIENT_HELLO_LEN = 9 := rfl
      have hshort : (c.buffered == q.conn.buffered) = false := by
        rw [buffered, buffered, hin, length_drop, beq_eq_false_iff_ne]
        omega
      rw [hfin, haw', hshort, Bool.or_false, Bool.or_false] at hround
      cases hclosed : q.conn.inputClosed with
      | true =>
          -- the peer is done: the connection is closed behind its greeting
          rw [hclosed, Bool.or_true, if_pos rfl] at hround
          rw [hround]
          have hkept : q.submitted ++ [] = requests q.received ↔
              owed (q.conn.inbuf.drop CLIENT_HELLO_LEN) = [] := by
            rw [hsplit, hread, hin, append_nil]
            exact self_eq_append_right
          refine ⟨sound_frames _ hphase' hsplit hreads, fun hset _ _ => ?_, fun hclear => ?_⟩
          · exact hkept.mp (hset.kept rfl rfl (hclosed'.trans hclosed))
          · exact ⟨nofun, fun _ _ _ => hkept.mpr (hclear rfl rfl)⟩
      | false =>
          -- the next round finds the frames with nothing outstanding
          rw [hclosed] at hround
          rw [if_neg (by decide)] at hround
          obtain ⟨n, hn⟩ : ∃ n, q.conn.buffered = n + 1 :=
            ⟨q.conn.inbuf.length - 1, by rw [buffered]; omega⟩
          have hnext : (⟨c.cleared, q.received, q.submitted, q.closed, q.broken⟩ : Peer).Sound :=
            sound_frames _ hphase' hsplit hread
          have hfree : c.cleared.held = false := by
            show (c.phase == .draining || c.awaiting || false) = false
            rw [hphase', haw']
            rfl
          have hdone := frames_round hnext hphase' hfree n rest
          rw [hround, hn]
          exact ⟨hdone.1, iff_of_true hdone.2 nofun⟩

/-- The drive of a connection that waits for its hello. -/
theorem hello_drive (hs : q.Sound) (hphase : q.conn.phase = .hello) (w : List Write) :
    (q.driven w).Sound ∧ ((q.driven w).Settled ↔ q.Clear w) := by
  obtain ⟨hrec, hsub, -, -, haw⟩ := hs.hello hphase
  rw [Peer.Clear, hphase]
  by_cases hlen : q.conn.inbuf.length < CLIENT_HELLO_LEN
  · obtain ⟨hsound, hset⟩ := short_hello hs hphase hlen w
    exact ⟨hsound, iff_of_true hset (fun _ hge => absurd hlen (Nat.not_lt.mpr hge))⟩
  · have hge : CLIENT_HELLO_LEN ≤ q.conn.inbuf.length := Nat.not_lt.mp hlen
    cases hreply : helloReply (q.conn.inbuf.take CLIENT_HELLO_LEN) with
    | refused r =>
        obtain ⟨out, hhello⟩ := stepHello_refused hge hreply
        have hstep := step_hello hs hphase
        rw [hhello] at hstep
        have hnone : q.submitted = requests q.received := by
          rw [hsub, hrec, requests, if_neg hlen, hreply]
        obtain ⟨hsound, hset⟩ := drains hstep rfl haw (submitted_state _) hnone q.conn.buffered w
        refine ⟨hsound, iff_of_true hset ?_⟩
        rintro - - ⟨v, hv⟩
        nomatch hv
    | accepted v =>
        obtain ⟨hsound, hset⟩ := greeting_drive hs hphase hge hreply w
        refine ⟨hsound,
          hset.trans ⟨fun h hclosed _ _ habs => h hclosed habs, fun h hclosed habs => ?_⟩⟩
        exact h hclosed hge ⟨v, rfl⟩ habs

/-! ## Every drive -/

/-- The drive of a connection that reads frames. -/
theorem frames_drive (hs : q.Sound) (hphase : q.conn.phase = .frames) (w : List Write) :
    (q.driven w).Sound ∧ ((q.driven w).Settled ↔ q.Clear w) := by
  obtain ⟨used, hrec, hall⟩ := hs.frames hphase
  have hreq := hs.requests_frames hphase
  have hclear : q.Clear w ↔ (q.conn.awaiting = false → 0 < q.conn.pending →
      absorbs w q.conn.pending = true →
      if q.conn.inputClosed then owed q.conn.inbuf = []
      else (front q.conn.inbuf).complete = false) := by
    rw [Peer.Clear, hphase]
  rw [Peer.driven, drive, hclear]
  cases hheld : q.conn.held with
  | false =>
      obtain ⟨-, -, hpend⟩ := held_eq_false hheld
      obtain ⟨hsound, hset⟩ := frames_round hs hphase hheld q.conn.buffered w
      exact ⟨hsound, iff_of_true hset (fun _ hpos => absurd hpos (by omega))⟩
  | true =>
      rcases held_round hheld q.conn.buffered w with
        ⟨habs, hround⟩ | ⟨habs, fine, pos, hpos, hround⟩
      · rw [hround]
        refine ⟨sound_frames used hphase hrec hall, ?_⟩
        have hfin : q.conn.cleared.isFinished = (q.conn.inputClosed && !q.conn.awaiting) := by
          show ((q.conn.phase == .draining || q.conn.inputClosed) && !false && !q.conn.awaiting) = _
          rw [hphase, Bool.not_false, Bool.and_true]
          rfl
        cases haw : q.conn.awaiting with
        | true =>
            rw [haw, Bool.not_true, Bool.and_false] at hfin
            refine iff_of_true ⟨fun _ ha => ?_, fun hc => ?_⟩ nofun
            · nomatch haw.symm.trans ha
            · nomatch hfin.symm.trans hc
        | false =>
            have hwant : 0 < q.conn.pending := by
              rw [← wantsWrite_iff]
              rw [held, hphase, haw] at hheld
              exact hheld
            rw [haw, Bool.not_false, Bool.and_true] at hfin
            cases hclosed : q.conn.inputClosed with
            | true =>
                -- nobody will look at the buffer again
                have hkept : q.submitted = requests q.received ↔ owed q.conn.inbuf = [] := by
                  rw [hreq]
                  exact self_eq_append_right
                constructor
                · intro hset _ _ _
                  exact hkept.mp (hset.kept (hfin.trans hclosed) rfl hclosed)
                · intro h
                  refine ⟨fun hc => ?_, fun _ _ _ => hkept.mpr (h rfl hwant habs)⟩
                  nomatch hc.symm.trans (hfin.trans hclosed)
            | false =>
                constructor
                · intro hset _ _ _
                  rcases hset.idle (hfin.trans hclosed) haw rfl with h | h
                  · nomatch hphase.symm.trans h
                  · exact h
                · intro h
                  refine ⟨fun _ _ _ => .inr (h rfl hwant habs), fun hc => ?_⟩
                  nomatch hc.symm.trans (hfin.trans hclosed)
      · rw [hround]
        refine ⟨sound_frames used hphase hrec hall,
          iff_of_true ⟨fun _ _ hw => ?_, fun hc hb => ?_⟩ ?_⟩
        · exact absurd hw (by simp [wantsWrite, hpos])
        · nomatch hc.symm.trans hb
        · intro _ _ h
          nomatch habs.symm.trans h

/-- The drive of a connection that drains. -/
theorem draining_drive (hs : q.Sound) (hphase : q.conn.phase = .draining) (w : List Write) :
    (q.driven w).Sound ∧ ((q.driven w).Settled ↔ q.Clear w) := by
  have haw := hs.draining hphase
  have hheld : q.conn.held = true := by
    rw [held, hphase]
    rfl
  have hclear : q.Clear w ↔ (q.conn.inputClosed = true → absorbs w q.conn.pending = true →
      q.submitted = requests q.received) := by
    rw [Peer.Clear, hphase]
  rw [Peer.driven, drive, hclear]
  rcases held_round hheld q.conn.buffered w with ⟨habs, hround⟩ | ⟨habs, fine, pos, hpos, hround⟩
  · rw [hround]
    have hfin : q.conn.cleared.isFinished = true := by
      show ((q.conn.phase == .draining || q.conn.inputClosed) && !false && !q.conn.awaiting) = _
      rw [hphase, haw]
      rfl
    refine ⟨sound_draining hphase haw, ?_⟩
    constructor
    · intro hset hclosed _
      exact hset.kept hfin rfl hclosed
    · intro h
      exact ⟨(fun hc => nomatch hc.symm.trans hfin), fun _ _ hclosed => h hclosed habs⟩
  · rw [hround]
    refine ⟨sound_draining hphase haw, iff_of_true ⟨fun _ _ hw => ?_, fun hc hb => ?_⟩ ?_⟩
    · exact absurd hw (by simp [wantsWrite, hpos])
    · nomatch hc.symm.trans hb
    · intro _ h
      nomatch habs.symm.trans h

theorem drive_sound (hs : q.Sound) (w : List Write) :
    (q.driven w).Sound ∧ ((q.driven w).Settled ↔ q.Clear w) := by
  cases hphase : q.conn.phase with
  | hello => exact hello_drive hs hphase w
  | frames => exact frames_drive hs hphase w
  | draining => exact draining_drive hs hphase w

/-! ## Every run -/

/-- `fill` only adds to the input. -/
theorem fill_appends (c : Conn) (reads : List Read) :
    ∃ b, (c.fill reads).2 = { c with inbuf := c.inbuf ++ b } := by
  induction reads generalizing c with
  | nil => exact ⟨[], by rw [append_nil]; rfl⟩
  | cons r rest ih =>
      have hsame : ∃ b, c = { c with inbuf := c.inbuf ++ b } := ⟨[], by rw [append_nil]⟩
      rw [fill.eq_def]
      dsimp only
      split
      · exact hsame
      · cases r with
        | data b =>
            dsimp only
            split
            · exact hsame
            · obtain ⟨b', hb'⟩ := ih { c with inbuf := c.inbuf ++ b }
              refine ⟨b ++ b', hb'.trans ?_⟩
              rw [append_assoc]
        | wouldBlock => exact hsame
        | interrupted => exact ih c
        | error => exact hsame

theorem push_keeps (c : Conn) (m : ServerMessage) :
    (c.push m).inbuf = c.inbuf ∧ (c.push m).awaiting = c.awaiting ∧
      ((c.push m).phase = c.phase ∨ (c.push m).phase = .draining) := by
  rw [push]
  cases m.encode with
  | ok bytes => exact ⟨rfl, rfl, .inl rfl⟩
  | error e => exact ⟨rfl, rfl, .inr rfl⟩

/-- `resume` leaves the input alone; it may leave the connection draining. -/
theorem resume_keeps (c : Conn) (messages : List ServerMessage) :
    (c.resume messages).inbuf = c.inbuf ∧ (c.resume messages).awaiting = false ∧
      ((c.resume messages).phase = c.phase ∨ (c.resume messages).phase = .draining) := by
  have hfold : ∀ c : Conn, (messages.foldl push c).inbuf = c.inbuf ∧
      (messages.foldl push c).awaiting = c.awaiting ∧
      ((messages.foldl push c).phase = c.phase ∨
        (messages.foldl push c).phase = .draining) := by
    induction messages with
    | nil => exact fun c => ⟨rfl, rfl, .inl rfl⟩
    | cons m rest ih =>
        intro c
        obtain ⟨hin, haw, hphase⟩ := push_keeps c m
        obtain ⟨hin', haw', hphase'⟩ := ih (c.push m)
        refine ⟨hin'.trans hin, haw'.trans haw, ?_⟩
        rcases hphase' with h | h
        · rw [foldl_cons, h]
          exact hphase
        · exact .inr h
  exact hfold { c with awaiting := false }

/-- What arrives keeps the account of what was read. -/
theorem arrive_sound {e : Event} (hs : p.Sound) (h : p.arrive e = some q) : q.Sound := by
  cases e with
  | readable reads writes =>
      obtain ⟨b, hb⟩ := fill_appends p.conn reads
      rw [Peer.arrive] at h
      cases hfill : p.conn.fill reads with
      | mk more c =>
          rw [hfill] at h hb
          cases hb
          cases more with
          | none => nomatch h
          | some more =>
              have hq := Option.some.inj h
              dsimp only at hq
              rw [drop_left] at hq
              -- the end of the stream changes nothing the account is about
              have hconn : q.conn.phase = p.conn.phase ∧ q.conn.inbuf = p.conn.inbuf ++ b ∧
                  q.conn.outbuf = p.conn.outbuf ∧ q.conn.outpos = p.conn.outpos ∧
                  q.conn.awaiting = p.conn.awaiting := by
                rw [← hq]
                cases more <;> exact ⟨rfl, rfl, rfl, rfl, rfl⟩
              have hrec : q.received = p.received ++ b := by rw [← hq]
              have hsub : q.submitted = p.submitted := by rw [← hq]
              obtain ⟨hphase, hin, hout, hpos, haw⟩ := hconn
              constructor
              · intro hp
                obtain ⟨h1, h2, h3, h4, h5⟩ := hs.hello (hphase.symm.trans hp)
                exact ⟨by rw [hrec, hin, h1], hsub.trans h2, hout.trans h3, hpos.trans h4,
                  haw.trans h5⟩
              · intro hp
                obtain ⟨used, h1, h2⟩ := hs.frames (hphase.symm.trans hp)
                exact ⟨used, by rw [hrec, hin, h1, append_assoc], by rw [hsub]; exact h2⟩
              · intro hp
                exact haw.trans (hs.draining (hphase.symm.trans hp))
  | writable writes =>
      rw [← Option.some.inj h]
      exact hs
  | answered messages writes =>
      rw [Peer.arrive] at h
      split at h
      · rename_i hwait
        obtain ⟨hin, haw, hphase⟩ := resume_keeps p.conn messages
        rw [← Option.some.inj h]
        rcases hphase with hsame | hdrain
        · cases hp : p.conn.phase with
          | hello =>
              obtain ⟨-, -, -, -, hno⟩ := hs.hello hp
              nomatch hno.symm.trans hwait
          | frames =>
              obtain ⟨used, h1, h2⟩ := hs.frames hp
              exact sound_frames used (hsame.trans hp) (by dsimp only; rw [hin, h1]) h2
          | draining => exact sound_draining (hsame.trans hp) haw
        · exact sound_draining hdrain haw
      · nomatch h

theorem Reached.sound (h : Reached p) : p.Sound := by
  induction h with
  | fresh =>
      exact ⟨fun _ => ⟨rfl, rfl, rfl, rfl, rfl⟩, nofun, nofun⟩
  | drive _ _ harrive ih => exact (drive_sound (arrive_sound ih harrive) _).1

/-- **A DRIVE LEAVES NOTHING UNDONE, UP TO OUTPUT**: on every connection that
    can come about, whatever is read, written or answered, the drive that
    follows leaves no complete frame waiting and drops none of a peer that is
    done sending exactly when what was buffered behind output is clear. -/
theorem drive_settles_iff {p q : Peer} {e : Event} (hreach : Reached p)
    (harrive : p.arrive e = some q) : (q.driven e.writes).Settled ↔ q.Clear e.writes :=
  (drive_sound (arrive_sound hreach.sound harrive) e.writes).2

def helloBytes : Bytes := MAGIC ++ [1, 0, 0]

/-- The frame of an `Auth` with an empty token. -/
def authBytes : Bytes := [T_AUTH, 4, 0, 0, 0, 0, 0, 0, 0]

/-- A hello and a request in one read, and the end of the stream. -/
theorem drive_settles_iff_greeting :
    ∃ q, Reached .fresh ∧
      Peer.fresh.arrive (.readable [.data (helloBytes ++ authBytes), .data []] [.took 9]) = some q ∧
      ((q.driven [.took 9]).Settled ↔ q.Clear [.took 9]) :=
  ⟨_, .fresh, rfl, drive_settles_iff
    (e := .readable [.data (helloBytes ++ authBytes), .data []] [.took 9]) .fresh rfl⟩

/-- A peer sends a hello and a request and half-closes: the connection is
    closed behind its greeting, and the request is never submitted.  A peer
    sends a hello and two requests and stays: once the first is answered, the
    second waits in the buffer with nothing to wake it. -/
theorem requests_dropped_or_left_waiting :
    (∃ p, Reached p ∧ p.closed = true ∧ p.broken = false ∧ p.conn.inputClosed = true ∧
      p.submitted = [] ∧ requests p.received = [.auth []]) ∧
    (∃ p, Reached p ∧ p.closed = false ∧ p.conn.awaiting = false ∧ p.conn.wantsWrite = false ∧
      front p.conn.inbuf = .request (.auth []) []) := by
  constructor
  · exact ⟨_,
      .drive (e := .readable [.data (helloBytes ++ authBytes), .data []] [.took 9]) .fresh rfl rfl,
      by decide⟩
  · have hfirst := Reached.drive
      (e := .readable [.data (helloBytes ++ authBytes ++ authBytes)] [.took 9]) .fresh rfl rfl
    exact ⟨_, .drive (e := .answered [.ok] [.took 5]) hfirst (by decide) rfl, by decide⟩

end QuantyConn
