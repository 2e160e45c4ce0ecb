import QuantyDb.ConnModel

/-! # Workers, and the connections they own

    A worker keeps its connections in slots.  A slot is handed out again once
    its connection is gone, so a token carries the generation of the slot, and
    an answer the name of the connection that asked.

    Workers are threads.  A registry is private to its worker, and what they
    share (the counter of names, the jobs that are out, the outboxes) is changed
    by single atomic operations, so an interleaving is a sequence of handler
    calls, answers and pick-ups. -/

namespace QuantyWorker

open QuantyProto QuantyConn

/-! ## Readiness -/

/-- What a registration is known by: a slot in the low half, its generation in
    the high half. -/
structure Token where
  bits : UInt64
  deriving DecidableEq, Repr

def Token.new (index generation : UInt32) : Token :=
  ⟨(generation.toUInt64 <<< 32) ||| index.toUInt64⟩

/-- The slot this refers to. -/
def Token.index (t : Token) : UInt32 := t.bits.toUInt32

def Token.generation (t : Token) : UInt32 := (t.bits >>> 32).toUInt32

def FLAG_READABLE : UInt32 := 1

def FLAG_WRITABLE : UInt32 := 2

def FLAG_READ_CLOSED : UInt32 := 4

def FLAG_ERROR : UInt32 := 8

/-- What a caller wants to hear about. -/
structure Interest where
  bits : UInt32
  deriving DecidableEq, Repr

def Interest.READABLE : Interest := ⟨FLAG_READABLE⟩

def Interest.both : Interest := ⟨FLAG_READABLE ||| FLAG_WRITABLE⟩

/-- A descriptor that is ready, and why. -/
structure Event where
  token : Token
  flags : UInt32
  deriving DecidableEq, Repr

def Event.isReadable (e : Event) : Bool := e.flags &&& (FLAG_READABLE ||| FLAG_READ_CLOSED) != 0

def Event.isError (e : Event) : Bool := e.flags &&& FLAG_ERROR != 0

/-! ## The registry -/

/-- A descriptor: a number that is not negative in 32 bits with a sign. -/
abbrev Fd := Fin (2 ^ 31)

structure Connection where
  socket : Fd
  token : Token
  id : UInt64
  state : Conn
  interest : Interest
  deriving DecidableEq, Repr

structure Slot where
  generation : UInt32
  conn : Option Connection
  deriving DecidableEq, Repr

/-- The connections one worker owns; `free` is a stack, its top first. -/
structure Registry where
  slots : List Slot
  free : List UInt32
  live : Nat
  deriving DecidableEq, Repr

namespace Registry

def empty : Registry := ⟨[], [], 0⟩

/-- The slot the next connection gets: a free one, or one more. -/
def claim (r : Registry) : UInt32 × Registry :=
  match r.free with
  | i :: rest => (i, { r with free := rest })
  | [] => (UInt32.ofNat r.slots.length, { r with slots := r.slots ++ [⟨0, none⟩] })

/-- `insert`, under the name the connection gets; `none` when the index is out
    of bounds. -/
def insert (r : Registry) (socket : Fd) (id : UInt64) : Option (Token × Registry) :=
  let (index, r) := r.claim
  match r.slots[index.toNat]? with
  | none => none
  | some slot =>
      let generation := slot.generation + 1
      let token := Token.new index generation
      let conn : Connection := ⟨socket, token, id, .new, .READABLE⟩
      some (token, { r with
        slots := r.slots.set index.toNat ⟨generation, some conn⟩
        live := r.live + 1 })

/-- Find a connection, or nothing if the token is stale. -/
def get (r : Registry) (token : Token) : Option Connection :=
  match r.slots[token.index.toNat]? with
  | none => none
  | some slot => if slot.generation ≠ token.generation then none else slot.conn

/-- What a change through `get_mut` leaves. -/
def put (r : Registry) (token : Token) (conn : Connection) : Registry :=
  match r.slots[token.index.toNat]? with
  | none => r
  | some slot => { r with slots := r.slots.set token.index.toNat { slot with conn := some conn } }

/-- Drop a connection and free its slot. -/
def remove (r : Registry) (token : Token) : Option (Connection × Registry) :=
  match r.slots[token.index.toNat]? with
  | none => none
  | some slot =>
      if slot.generation ≠ token.generation then none
      else match slot.conn with
        | none => none
        | some conn => some (conn, {
            slots := r.slots.set token.index.toNat ⟨slot.generation + 1, none⟩
            free := token.index :: r.free
            live := r.live - 1 })

/-- Every live connection. -/
def connections (r : Registry) : List Connection := r.slots.filterMap (·.conn)

end Registry

/-! ## Jobs and answers -/

/-- A request and the way back to the connection that asked it. -/
structure Job where
  id : UInt64
  request : ClientMessage
  back : Nat
  token : Token
  deriving DecidableEq, Repr

/-- One answer on its way back to a worker. -/
structure Reply where
  token : Token
  id : UInt64
  messages : List ServerMessage
  deriving Repr

def Job.answer (j : Job) (messages : List ServerMessage) : Reply := ⟨j.token, j.id, messages⟩

/-! ## A worker -/

/-- A worker: `taken` is what the loop of `deliver` still has to hand on. -/
structure Worker where
  conns : Registry
  outbox : List Reply
  taken : List Reply
  deriving Repr

/-- What the socket and the poller do while a connection is driven. -/
structure Calls where
  writes : List Write
  reregisters : Bool
  deriving DecidableEq, Repr

/-- What a handler did: the worker it left, and what it told the dispatcher. -/
structure Handled where
  worker : Worker
  jobs : List Job
  closed : List UInt64
  deriving Repr

namespace Worker

def new : Worker := ⟨.empty, [], []⟩

/-- `close`: what is left, and whose end the dispatcher hears of. -/
def close (w : Worker) (token : Token) : Handled :=
  match w.conns.remove token with
  | none => ⟨w, [], []⟩
  | some (conn, conns) => ⟨{ w with conns := conns }, [], [conn.id]⟩

/-- `drive`, by the worker of the given number. -/
def drive (w : Worker) (me : Nat) (token : Token) (calls : Calls) : Handled :=
  match w.conns.get token with
  | none => ⟨w, [], []⟩
  | some conn =>
      let d := conn.state.drive calls.writes
      let jobs := d.submitted.map (fun request => (⟨conn.id, request, me, token⟩ : Job))
      let wanted := if d.conn.wantsWrite then Interest.both else Interest.READABLE
      let asks := !d.finished && wanted != conn.interest
      let conn := { conn with
        state := d.conn
        interest := if asks && calls.reregisters then wanted else conn.interest }
      let w := { w with conns := w.conns.put token conn }
      if d.finished || (asks && !calls.reregisters) then { w.close token with jobs := jobs }
      else ⟨w, jobs, []⟩

/-- `on_ready`. -/
def onReady (w : Worker) (me : Nat) (event : Event) (reads : List Read) (calls : Calls) : Handled :=
  match w.conns.get event.token with
  | none => ⟨w, [], []⟩
  | some conn =>
      if event.isError then w.close event.token
      else if event.isReadable then
        match conn.state.fill reads with
        | (none, state) =>
            let conn := { conn with state := state }
            { w with conns := w.conns.put event.token conn }.close event.token
        | (some more, state) =>
            let conn := { conn with state := if more then state else state.peerDone }
            { w with conns := w.conns.put event.token conn }.drive me event.token calls
      else w.drive me event.token calls

/-- A round of the loop of `deliver`. -/
def deliver (w : Worker) (me : Nat) (reply : Reply) (calls : Calls) : Handled :=
  match w.conns.get reply.token with
  | none => ⟨w, [], []⟩
  | some conn =>
      if conn.id = reply.id then
        let conn := { conn with state := conn.state.resume reply.messages }
        { w with conns := w.conns.put reply.token conn }.drive me reply.token calls
      else ⟨w, [], []⟩

end Worker

/-! ## The system -/

/-- The workers, the counter of `ConnId::next`, and the jobs that are out. -/
structure System where
  next : UInt64
  workers : List Worker
  jobs : List Job
  deriving Repr

/-- What can happen next.  The kernel accepts under a descriptor that nobody
    holds; whoever holds a job answers it or drops it. -/
inductive Action
  | accept (n : Nat) (socket : Fd)
  | ready (n : Nat) (event : Event) (reads : List Read) (calls : Calls)
  | take (n : Nat)
  | deliver (n : Nat) (calls : Calls)
  | close (n : Nat) (token : Token)
  | answer (k : Nat) (messages : List ServerMessage)
  | discard (k : Nat)
  deriving Repr

namespace System

/-- Before the first connection. -/
def start (workers : Nat) : System := ⟨1, List.replicate workers .new, []⟩

/-- The descriptors that are in use. -/
def sockets (s : System) : List Fd :=
  s.workers.flatMap (fun w => w.conns.connections.map (·.socket))

/-- The system after a handler of worker `n` ran. -/
def after (s : System) (n : Nat) (h : Handled) : System :=
  { s with workers := s.workers.set n h.worker, jobs := s.jobs ++ h.jobs }

def step (s : System) : Action → Option System
  | .accept n socket =>
      if socket ∈ s.sockets then none
      else match s.workers[n]? with
        | none => none
        | some w => (w.conns.insert socket s.next).map (fun (_, conns) =>
            { s with next := s.next + 1, workers := s.workers.set n { w with conns := conns } })
  | .ready n event reads calls =>
      s.workers[n]?.map (fun w => s.after n (w.onReady n event reads calls))
  | .take n =>
      s.workers[n]?.map (fun w => { s with
        workers := s.workers.set n { w with outbox := [], taken := w.taken ++ w.outbox } })
  | .deliver n calls =>
      match s.workers[n]? with
      | none => none
      | some w => match w.taken with
        | [] => none
        | reply :: rest => some (s.after n ({ w with taken := rest }.deliver n reply calls))
  | .close n token => s.workers[n]?.map (fun w => s.after n (w.close token))
  | .answer k messages =>
      match s.jobs[k]? with
      | none => none
      | some job => match s.workers[job.back]? with
        | none => none
        | some w => some { s with
            jobs := s.jobs.eraseIdx k
            workers := s.workers.set job.back
              { w with outbox := w.outbox ++ [job.answer messages] } }
  | .discard k => if k < s.jobs.length then some { s with jobs := s.jobs.eraseIdx k } else none

end System

end QuantyWorker
