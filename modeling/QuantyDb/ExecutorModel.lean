import QuantyDb.SessionModel
import QuantyDb.TokensModel
import QuantyDb.WorkerModel

/-! # The executor

    One thread owns the session and runs the statements of every connection.
    A connection that holds an open transaction blocks the writers behind it
    but not the readers; statements at the front of the queue that may share a
    commit do.

    The two parsers, the digest and the text of operating system errors are
    parameters.  The clock is a tape: each call of `Instant::now` takes the next
    reading.  `log` is what happened so far, in order; nothing reads it.

    A statement that panics takes the thread along, with every request in its
    queues: what is proved here is about statements that return. -/

namespace QuantyExecutor

open QuantyPage QuantyAst QuantyProto QuantyAnswer QuantySession QuantyTokens QuantyWorker List

/-! ## What the executor is given -/

structure Service where
  engine : Engine
  parse : String → Except ParseError Statement
  parseSql : String → Except ParseError Statement
  sha256 : Bytes → Bytes
  ioText : String

/-- A parsed request, ready to run. -/
structure Parsed where
  statement : Statement
  kind : Kind

/-- Parse a request, or the messages that say why it could not be. -/
def Service.parseRequest (sv : Service) (request : ClientMessage) :
    Except (List ServerMessage) (Option Parsed) :=
  let finish : Except ParseError Statement → Except (List ServerMessage) (Option Parsed)
    | .ok statement => .ok (some ⟨statement, classify statement⟩)
    | .error e => .error (failed .parse ((ExecError.parse e).show sv.ioText))
  match request with
  | .auth _ => .ok none
  | .query source => finish (sv.parse source)
  | .querySql source => finish (sv.parseSql source)
  | .close => .ok none

/-! ## State -/

def TOKEN_RELOAD : Nat := 1000000000

def MAX_BATCH : Nat := 256

def ROLLED_BACK : String :=
  "the open transaction was rolled back after the idle-in-transaction deadline expired"

structure Deadlines where
  busy : Nat
  idleInTxn : Nat
  deriving DecidableEq, Repr

/-- A statement, or the answer for a request that never reaches the engine. -/
inductive Either
  | run (parsed : Parsed)
  | say (messages : List ServerMessage)

/-- A request that has been parsed and is waiting to run. -/
structure Pending where
  since : Nat
  job : Job
  work : Either

/-- What the executor keeps for one connection. -/
structure ConnState (E : Engine) where
  authenticated : Bool := false
  parked : Option (Open E) := none
  aborted : Option String := none

structure Stats where
  sharedCommits : UInt64
  batched : UInt64
  largestBatch : Nat
  deriving DecidableEq, Repr

/-- What happened. -/
inductive Entry
  | taken (job : Job)
  | answered (job : Job) (messages : List ServerMessage)
  | closed (id : UInt64)
  | loaded (accepted : List Bytes)
  | shown (id : UInt64) (token : Bytes) (accepted : List Bytes)
  | parsed (id : UInt64)
  | ran (id : UInt64)

structure State (sv : Service) where
  session : Session sv.engine
  deadlines : Deadlines
  conns : UInt64 → Option (ConnState sv.engine)
  holder : Option (UInt64 × Nat)
  ready : List Pending
  blocked : List Pending
  tokens : Option Tokens
  checked : Nat
  stats : Stats
  clock : Nat → Nat
  log : List Entry

namespace State

variable {sv : Service}

def new (session : Session sv.engine) (deadlines : Deadlines) (tokens : Option Tokens)
    (checked : Nat)
    (clock : Nat → Nat) : State sv :=
  ⟨session, deadlines, fun _ => none, none, [], [], tokens, checked, ⟨0, 0, 0⟩, clock,
    (tokens.map (fun t => Entry.loaded t.accepted)).toList⟩

def note (st : State sv) (e : Entry) : State sv := { st with log := st.log ++ [e] }

/-- `job.answer(messages)`. -/
def answer (st : State sv) (job : Job) (messages : List ServerMessage) : State sv :=
  st.note (.answered job messages)

/-- `Instant::now()`. -/
def now (st : State sv) : Nat × State sv :=
  (st.clock 0, { st with clock := fun n => st.clock (n + 1) })

/-- `conns.entry(id).or_default()`. -/
def conn (st : State sv) (id : UInt64) : ConnState sv.engine := (st.conns id).getD {}

def setConn (st : State sv) (id : UInt64) (c : ConnState sv.engine) : State sv :=
  { st with conns := fun i => if i = id then some c else st.conns i }

/-! ## Requests -/

/-- Look at the token file again, if it is time to. -/
def reload (st : State sv) (look : Look) : State sv :=
  let (seen, st) := st.now
  if seen - st.checked ≥ TOKEN_RELOAD then
    let (checked, st) := st.now
    let st := { st with checked := checked }
    match st.tokens with
    | none => st
    | some tokens => match tokens.reloadIfChanged look with
        | (.ok true, tokens) => { st with tokens := some tokens }.note (.loaded tokens.accepted)
        | (_, tokens) => { st with tokens := some tokens }
  else st

/-- Check a token and remember the answer for this connection. -/
def authenticate (st : State sv) (id : UInt64) (token : Bytes) (look : Look) :
    List ServerMessage × State sv :=
  match st.tokens with
  | none => (QuantyAnswer.ready, st.setConn id { st.conn id with authenticated := true })
  | some _ =>
      let st := st.reload look
      let st := st.note (.shown id token ((st.tokens.map (·.accepted)).getD []))
      if (st.tokens.map (fun t => t.accepts (sv.sha256 token))).getD false then
        (QuantyAnswer.ready, st.setConn id { st.conn id with authenticated := true })
      else (failed .authFailed "the token was not accepted", st)

def isAuthenticated (st : State sv) (id : UInt64) : Bool :=
  st.tokens.isNone || ((st.conns id).map (·.authenticated)).getD false

def touchesData (pending : Pending) : Bool :=
  match pending.work with
  | .run parsed => parsed.kind != .reads
  | .say _ => false

/-- Whether this can run while things are as they are. -/
def runnableNow (st : State sv) (pending : Pending) : Bool :=
  match st.holder with
  | none => true
  | some (holder, _) => holder == pending.job.id || !touchesData pending

/-- Put a parsed request in the queue it belongs to. -/
def enqueue (st : State sv) (pending : Pending) : State sv :=
  if st.runnableNow pending then { st with ready := st.ready ++ [pending] }
  else { st with blocked := st.blocked ++ [pending] }

def accept (st : State sv) (job : Job) (look : Look) : State sv :=
  let st := st.note (.taken job)
  match job.request with
  | .auth token =>
      let (verdict, st) := st.authenticate job.id token look
      st.answer job verdict
  | _ =>
      if !st.isAuthenticated job.id then
        st.answer job (failed .notAuthenticated "this server requires a token; send Auth first")
      else
        let st := st.note (.parsed job.id)
        let work := match sv.parseRequest job.request with
          | .ok (some parsed) => Either.run parsed
          | .ok none => Either.say QuantyAnswer.ready
          | .error messages => Either.say messages
        let (since, st) := st.now
        st.enqueue ⟨since, job, work⟩

/-! ## Running statements -/

/-- What a pending request answers, and the session after it. -/
def perform (st : State sv) (pending : Pending) : List ServerMessage × State sv :=
  match pending.work with
  | .run parsed =>
      let (result, session) := st.session.runParsed parsed.statement
      (render sv.ioText result, { st with session := session }.note (.ran pending.job.id))
  | .say messages => (messages, st)

/-- How many statements at the front of the queue may share a commit. -/
def nextBatch (st : State sv) : Nat :=
  if st.holder.isSome then 0
  else
    let fits (pending : Pending) : Bool :=
      let batchable := match pending.work with
        | .run parsed => parsed.kind == .batchable
        | .say _ => false
      let clean := match st.conns pending.job.id with
        | none => true
        | some c => !c.parked.isSome && c.aborted.isNone
      batchable && clean
    ((st.ready.takeWhile fits).take MAX_BATCH).length

/-- The answers of a group, one statement after the other. -/
def performAll (st : State sv) : List Pending → List (Job × List ServerMessage) × State sv
  | [] => ([], st)
  | pending :: rest =>
      let (messages, st) := st.perform pending
      let (answers, st) := st.performAll rest
      ((pending.job, messages) :: answers, st)

def answerAll (st : State sv) (answers : List (Job × List ServerMessage)) : State sv :=
  answers.foldl (fun st (job, messages) => st.answer job messages) st

/-- Count a group. -/
def counted (st : State sv) (n : Nat) : State sv :=
  { st with stats := ⟨st.stats.sharedCommits + 1, st.stats.batched + UInt64.ofNat n,
      max st.stats.largestBatch n⟩ }

/-- Several statements, one transaction, one commit. -/
def grouped (st : State sv) (group : List Pending) : State sv :=
  let st := st.counted group.length
  match st.session.runParsed .begin with
  | (.error e, session) =>
      { st with session := session }.answerAll
        (group.map (fun p : Pending => (p.job, failed .execution (e.show sv.ioText))))
  | (.ok _, session) =>
      let (answers, st) := { st with session := session }.performAll group
      match st.session.runParsed .commit with
      | (.ok _, session) => { st with session := session }.answerAll answers
      | (.error e, session) =>
          let detail := "the shared commit failed, no statement in it ran: " ++ e.show sv.ioText
          { st with session := session }.answerAll
            (answers.map (fun a : Job × List ServerMessage => (a.1, failed .execution detail)))

/-- Who holds the queue once `id` ran and its transaction is open, or not. -/
def settleHolder (st : State sv) (id : UInt64) (isOpen : Bool) : State sv :=
  if isOpen then
    let (now, st) := st.now
    { st with holder := some (id, now) }
  else match st.holder with
    | some (holder, _) => if holder == id then { st with holder := none } else st
    | none => st

/-- Give the session the transaction of a connection. -/
def attach (st : State sv) (id : UInt64) : State sv :=
  let c := st.conn id
  { st.setConn id { c with parked := none } with session := st.session.unpark c.parked }

/-- Take it back, and note who holds the queue now. -/
def detach (st : State sv) (id : UInt64) : State sv :=
  let (parked, session) := st.session.park
  let st := { st with session := session }
  (st.setConn id { st.conn id with parked := parked }).settleHolder id parked.isSome

/-- One statement, with the connection's own transaction attached. -/
def alone (st : State sv) (pending : Pending) : State sv :=
  let id := pending.job.id
  let c := st.conn id
  match c.aborted with
  | some reason =>
      (st.setConn id { c with aborted := none }).answer pending.job (failed .execution reason)
  | none =>
      let (messages, st) := (st.attach id).perform pending
      (st.detach id).answer pending.job messages

/-- Move what was blocked into the ready queue once nothing holds it. -/
def refill (st : State sv) : State sv :=
  if st.holder.isNone && !st.blocked.isEmpty then
    { st with ready := st.blocked.take MAX_BATCH, blocked := st.blocked.drop MAX_BATCH }
  else st

/-- What a round looks at: an empty queue is refilled first. -/
def fed (st : State sv) : State sv := if st.ready.isEmpty then st.refill else st

/-- A round of the loop of `serve` on a queue that was refilled if need be;
    `none` when the loop returns. -/
def round (st : State sv) : Option (State sv) :=
  match st.ready with
  | [] => none
  | pending :: rest =>
      if !st.runnableNow pending then
        some { st with ready := rest, blocked := st.blocked ++ [pending] }
      else
        let batch := st.nextBatch
        if batch ≤ 1 then some ({ st with ready := rest }.alone pending)
        else some ({ st with ready := st.ready.drop batch }.grouped (st.ready.take batch))

/-! ## The loop comes to an end

    A round runs something, or moves the front of the ready queue to the blocked
    one.  The second happens only while somebody holds the queue, and then the
    ready queue is not filled again. -/

/-- The two queues of a state. -/
def queues (st : State sv) : List Pending × List Pending := (st.ready, st.blocked)

theorem queues_perform (st : State sv) (pending : Pending) :
    (st.perform pending).2.queues = st.queues := by
  rw [perform]
  cases pending.work <;> rfl

theorem queues_answerAll (st : State sv) (answers : List (Job × List ServerMessage)) :
    (st.answerAll answers).queues = st.queues := by
  induction answers generalizing st with
  | nil => rfl
  | cons a rest ih =>
      rw [answerAll, foldl_cons]
      exact ih _

theorem queues_performAll (st : State sv) (group : List Pending) :
    (st.performAll group).2.queues = st.queues := by
  induction group generalizing st with
  | nil => rfl
  | cons p rest ih =>
      rw [performAll]
      exact (ih _).trans (queues_perform st p)

theorem queues_grouped (st : State sv) (group : List Pending) :
    (st.grouped group).queues = st.queues := by
  rw [grouped]
  dsimp only
  split
  · exact queues_answerAll _ _
  · split
    · refine (queues_answerAll _ _).trans ?_
      exact queues_performAll _ _
    · refine (queues_answerAll _ _).trans ?_
      exact queues_performAll _ _

theorem queues_settleHolder (st : State sv) (id : UInt64) (isOpen : Bool) :
    (st.settleHolder id isOpen).queues = st.queues := by
  rw [settleHolder]
  split
  · rfl
  · split
    · split <;> rfl
    · rfl

theorem queues_detach (st : State sv) (id : UInt64) : (st.detach id).queues = st.queues :=
  queues_settleHolder _ _ _

theorem queues_alone (st : State sv) (pending : Pending) :
    (st.alone pending).queues = st.queues := by
  rw [alone]
  dsimp only
  split
  · rfl
  · refine (queues_detach _ _).trans ?_
    exact queues_perform (st.attach pending.job.id) pending

/-- What a round can do: put the front of the queue back to wait, run it, or
    run a batch. -/
theorem round_cases {st st' : State sv} (h : st.round = some st') :
    ∃ pending rest, st.ready = pending :: rest ∧
      ((st.runnableNow pending = false ∧
          st' = { st with ready := rest, blocked := st.blocked ++ [pending] }) ∨
        (st.runnableNow pending = true ∧ st.nextBatch ≤ 1 ∧
          st' = { st with ready := rest }.alone pending) ∨
        (st.runnableNow pending = true ∧ 1 < st.nextBatch ∧
          st' = { st with ready := st.ready.drop st.nextBatch }.grouped
            (st.ready.take st.nextBatch))) := by
  rw [round] at h
  split at h
  · nomatch h
  · rename_i pending rest hready
    refine ⟨pending, rest, hready, ?_⟩
    cases hrun : st.runnableNow pending with
    | false =>
        rw [hrun, Bool.not_false, if_pos rfl] at h
        exact .inl ⟨rfl, (Option.some.inj h).symm⟩
    | true =>
        rw [hrun, Bool.not_true, if_neg Bool.false_ne_true] at h
        dsimp only at h
        split at h
        · rename_i hbatch
          exact .inr (.inl ⟨rfl, hbatch, (Option.some.inj h).symm⟩)
        · rename_i hbatch
          exact .inr (.inr ⟨rfl, Nat.not_le.mp hbatch, (Option.some.inj h).symm⟩)

theorem fed_total (st : State sv) :
    st.fed.ready.length + st.fed.blocked.length = st.ready.length + st.blocked.length ∧
      (st.fed = st ∨ (st.ready = [] ∧ st.fed.holder = none)) := by
  rw [fed]
  cases hready : st.ready with
  | nil =>
      rw [isEmpty_nil, if_pos rfl, refill]
      split
      · rename_i h
        rw [Bool.and_eq_true, Option.isNone_iff_eq_none] at h
        refine ⟨?_, .inr ⟨rfl, h.1⟩⟩
        dsimp only
        rw [← length_append, take_append_drop, length_nil, Nat.zero_add]
      · exact ⟨by rw [hready], .inl rfl⟩
  | cons p rest =>
      rw [isEmpty_cons, if_neg Bool.false_ne_true]
      exact ⟨by rw [hready], .inl rfl⟩

theorem round_decreases {st st' : State sv} (h : st.fed.round = some st') :
    Prod.Lex (· < ·) (· < ·) (st'.ready.length + st'.blocked.length, st'.ready.length)
      (st.ready.length + st.blocked.length, st.ready.length) := by
  obtain ⟨htotal, hfed⟩ := fed_total st
  obtain ⟨pending, rest, hready, hcase⟩ := round_cases h
  have hlen : st.fed.ready.length = rest.length + 1 := by rw [hready, length_cons]
  rcases hcase with ⟨hheld, rfl⟩ | ⟨-, -, rfl⟩ | ⟨-, hbatch, rfl⟩
  · -- somebody holds the queue, so nothing was refilled
    rcases hfed with hsame | ⟨-, hnone⟩
    · rw [hsame] at hlen ⊢
      dsimp only
      rw [length_append, length_singleton, hlen,
        show rest.length + (st.blocked.length + 1) = rest.length + 1 + st.blocked.length by omega]
      exact Prod.Lex.right _ (Nat.lt_succ_self _)
    · rw [runnableNow, hnone] at hheld
      nomatch hheld
  · obtain ⟨hr, hb⟩ := Prod.mk.inj (queues_alone { st.fed with ready := rest } pending)
    apply Prod.Lex.left
    rw [hr, hb]
    dsimp only
    omega
  · obtain ⟨hr, hb⟩ := Prod.mk.inj (queues_grouped
      { st.fed with ready := st.fed.ready.drop st.fed.nextBatch }
        (st.fed.ready.take st.fed.nextBatch))
    apply Prod.Lex.left
    rw [hr, hb]
    dsimp only
    rw [length_drop]
    omega

/-- `serve`: run everything that can run. -/
def serve (st : State sv) : State sv :=
  match _h : st.fed.round with
  | none => st.fed
  | some st' => serve st'
termination_by (st.ready.length + st.blocked.length, st.ready.length)
decreasing_by exact round_decreases ‹_›

/-! ## Deadlines and closed connections -/

/-- Roll back a transaction that has been idle for too long. -/
def sweepIdle (st : State sv) (now : Nat) : State sv :=
  match st.holder with
  | none => st
  | some (id, since) =>
      if now - since > st.deadlines.idleInTxn then
        let st := st.setConn id { st.conn id with
          parked := none
          aborted := some ROLLED_BACK }
        { st with holder := none }
      else st

/-- Refuse what has waited for the writer for too long. -/
def expire (st : State sv) (waits : Pending → Bool) : State sv :=
  let expired := st.blocked.filter (fun p => !waits p)
  { st with blocked := st.blocked.filter waits }.answerAll (expired.map (fun p : Pending =>
    (p.job, failed .writeQueue "timed out waiting for the writer; the statement did not run")))

/-- `sweep`: enforce both deadlines. -/
def sweep (st : State sv) : State sv :=
  let (now, st) := st.now
  let st := st.sweepIdle now
  if st.holder.isNone then st else st.expire (fun p => now - p.since ≤ st.deadlines.busy)

/-- `forget`: drop everything held for a connection that is gone. -/
def forget (st : State sv) (id : UInt64) : State sv :=
  { st with
    conns := fun i => if i = id then none else st.conns i
    ready := st.ready.filter (fun p => p.job.id != id)
    blocked := st.blocked.filter (fun p => p.job.id != id)
    holder := match st.holder with
      | some (holder, since) => if holder == id then none else some (holder, since)
      | none => none }.note (.closed id)

/-- The end of `run`: what is still queued is told so. -/
def finish (st : State sv) : State sv :=
  { st with ready := [], blocked := [] }.answerAll ((st.ready ++ st.blocked).map (fun p : Pending =>
    (p.job, failed .shuttingDown "the server stopped before this statement ran")))

end State

/-! ## Runs -/

/-- The states of an executor that began as `first`: whatever arrives, is swept
    or is run next, one round of `serve` at a time. -/
inductive Reached {sv : Service} (first : State sv) : State sv → Prop
  | start : Reached first first
  | request {st : State sv} (h : Reached first st) (job : Job) (look : Look) :
      Reached first (st.accept job look)
  | closed {st : State sv} (h : Reached first st) (id : UInt64) : Reached first (st.forget id)
  | sweep {st : State sv} (h : Reached first st) : Reached first st.sweep
  | round {st st' : State sv} (h : Reached first st) (hround : st.fed.round = some st') :
      Reached first st'

end QuantyExecutor
