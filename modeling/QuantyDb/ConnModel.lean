import QuantyDb.ProtoModel

/-! # One connection

    A connection waits for a hello, then reads frames, and at the end drains
    what it still has to say.  It has at most one request in flight: while an
    answer is outstanding, or output is waiting for the socket, no further
    input is decoded.

    What a socket does is a list of outcomes, one for each call; a list that
    has run out stands for a socket that would block. -/

namespace QuantyConn

open QuantyKey QuantyPage QuantyProto LittleEndian

/-! ## The socket -/

/-- What one `read` returns: bytes (none at the end of the stream), or why it
    did not. -/
inductive Read
  | data (b : Bytes)
  | wouldBlock
  | interrupted
  | error
  deriving DecidableEq, Repr

/-- What one `write` returns: how many bytes it took, or why it did not. -/
inductive Write
  | took (n : Nat)
  | wouldBlock
  | interrupted
  | error
  deriving DecidableEq, Repr

/-! ## The connection -/

inductive Phase
  | hello
  | frames
  | draining
  deriving DecidableEq, Repr

structure Conn where
  phase : Phase
  inputClosed : Bool
  awaiting : Bool
  inbuf : Bytes
  outbuf : Bytes
  outpos : Nat
  deriving DecidableEq, Repr

/-- What the caller should do next. -/
inductive Step
  | stayOpen
  | closed
  | submit (request : ClientMessage)
  deriving DecidableEq, Repr

/-- What one pass over the input buffer produced. -/
inductive Decoded
  | stalled
  | request (m : ClientMessage)
  deriving DecidableEq, Repr

namespace Conn

def new : Conn := ⟨.hello, false, false, [], [], 0⟩

/-- Whether output is waiting for the socket to take it. -/
def wantsWrite (c : Conn) : Bool := c.outpos < c.outbuf.length

/-- Whether the connection is finished and can be dropped. -/
def isFinished (c : Conn) : Bool :=
  (c.phase == .draining || c.inputClosed) && !c.wantsWrite && !c.awaiting

/-- A message that cannot be encoded is dropped, and the connection drains. -/
def push (c : Conn) (m : ServerMessage) : Conn :=
  match m.encode with
  | .ok bytes => { c with outbuf := c.outbuf ++ bytes }
  | .error _ => { c with phase := .draining }

/-- Deliver the answer to the request this connection submitted. -/
def resume (c : Conn) (messages : List ServerMessage) : Conn :=
  messages.foldl push { c with awaiting := false }

def buffered (c : Conn) : Nat := c.inbuf.length

/-- Note that the peer will send nothing further. -/
def peerDone (c : Conn) : Conn := { c with inputClosed := true }

/-- Read what the socket has; `some false` when the peer is done sending,
    `none` on an error. -/
def fill (c : Conn) : List Read → Option Bool × Conn
  | [] => (some true, c)
  | r :: rest =>
      if c.inbuf.length > HEADER_LEN + MAX_BODY then (some true, c)
      else match r with
        | .data b =>
            if b.isEmpty then (some false, c)
            else fill { c with inbuf := c.inbuf ++ b } rest
        | .wouldBlock => (some true, c)
        | .interrupted => fill c rest
        | .error => (none, c)

def state (c : Conn) : Step := if c.isFinished then .closed else .stayOpen

/-- The reply to the nine bytes of a hello. -/
def helloReply (bytes : Bytes) : ServerHello :=
  match ClientHello.decode bytes with
  | .ok version => negotiate version
  | .error _ => .refused .badMagic

/-- `step_hello`: whether the loop goes on. -/
def stepHello (c : Conn) : Bool × Conn :=
  if c.inbuf.length < CLIENT_HELLO_LEN then (false, c)
  else
    let reply := helloReply (c.inbuf.take CLIENT_HELLO_LEN)
    let c := { c with
      inbuf := c.inbuf.drop CLIENT_HELLO_LEN
      outbuf := c.outbuf ++ reply.encode }
    match reply with
    | .accepted _ => (true, { c with phase := .frames }.push .ready)
    | .refused _ => (false, { c with phase := .draining })

def fail (c : Conn) (code : ErrorCode) (detail : String) : Decoded × Conn :=
  (.stalled, { c.push (.failure code detail) with phase := .draining })

def stepFrame (c : Conn) : Decoded × Conn :=
  if c.inbuf.length < HEADER_LEN then (.stalled, c)
  else match FrameHeader.decode (c.inbuf.take HEADER_LEN) with
    | .error _ => c.fail .protocol "frame too large"
    | .ok header =>
        if c.inbuf.length < HEADER_LEN + header.bodyLen then (.stalled, c)
        else
          let body := slice HEADER_LEN header.bodyLen c.inbuf
          let c := { c with inbuf := c.inbuf.drop (HEADER_LEN + header.bodyLen) }
          match ClientMessage.decode header.msgType body with
          | .error _ => c.fail .protocol "malformed message"
          | .ok .close => (.stalled, { c with phase := .draining })
          | .ok request => (.request request, c)

/-- Whether `step` leaves the input alone. -/
def held (c : Conn) : Bool := c.phase == .draining || c.awaiting || c.wantsWrite

/-- A round of `step` on a connection past its hello. -/
def stepFrames (c : Conn) : Step × Conn :=
  if c.held then (c.state, c)
  else match c.stepFrame with
    | (.stalled, c) => (c.state, c)
    | (.request request, c) => (.submit request, { c with awaiting := true })

/-- `step`.  The loop goes round again only when a hello was accepted, and
    that round finds the connection in frames. -/
def step (c : Conn) : Step × Conn :=
  if c.held then (c.state, c)
  else match c.phase with
    | .hello =>
        match c.stepHello with
        | (true, c) => c.stepFrames
        | (false, c) => (c.state, c)
    | .frames => c.stepFrames
    | .draining => (c.state, c)

/-- Push pending output at the socket.  The Boolean says whether the socket
    reported no error; the outcomes not used yet are given back. -/
def flush (c : Conn) : List Write → Bool × Conn × List Write
  | [] => if c.wantsWrite then (true, c, []) else (true, { c with outbuf := [], outpos := 0 }, [])
  | w :: rest =>
      if c.wantsWrite then
        match w with
        | .took 0 => (false, c, rest)
        | .took n => flush { c with outpos := c.outpos + n } rest
        | .wouldBlock => (true, c, rest)
        | .interrupted => flush c rest
        | .error => (false, c, rest)
      else (true, { c with outbuf := [], outpos := 0 }, w :: rest)

/-! ## Driving it -/

/-- How the loop of `drive` left a connection: what it submitted, whether the
    connection is to be closed, and whether that is because the socket failed. -/
structure Driven where
  conn : Conn
  submitted : List ClientMessage
  finished : Bool
  broken : Bool
  deriving DecidableEq, Repr

/-- The loop of `drive`: step, flush, and go on while input was used up and
    nothing is outstanding.  Every round that goes on uses up input, so the
    buffered bytes are fuel enough. -/
def driveLoop : Nat → Conn → List Write → Driven
  | 0, c, _ => ⟨c, [], false, false⟩
  | fuel + 1, c, writes =>
      let before := c.buffered
      let (out, c) := c.step
      let submitted := match out with
        | .submit request => [request]
        | _ => []
      let (fine, c, writes) := c.flush writes
      let finished := out == .closed || !fine || c.isFinished
      if finished || c.awaiting || c.wantsWrite || c.buffered == before then
        ⟨c, submitted, finished, !fine⟩
      else
        let d := driveLoop fuel c writes
        { d with submitted := submitted ++ d.submitted }

/-- The part of `Worker::drive` that is about the connection alone. -/
def drive (c : Conn) (writes : List Write) : Driven := driveLoop (c.buffered + 1) c writes

end Conn

end QuantyConn
