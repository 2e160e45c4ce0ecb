import QuantyDb.ExecutorModel
import QuantyDb.StoreEngine
import QuantyDb.RollbackProofs

/-! # One transaction at a time

    A connection whose transaction is open keeps it parked between its
    statements.  Nobody else commits meanwhile, so the transaction is still good
    when it is taken up again, and whoever reads meanwhile reads what was
    committed last. -/

namespace QuantyExecutor

open QuantyPage QuantyAst QuantyProto QuantyAnswer QuantySession QuantyTokens QuantyWorker List
open Session
open State
open Option
open QuantyRollback (TxOp)

variable {sv : Service}

/-! ## Statements and the transaction they run in -/

/-- A transaction that `Db::resume` will take. -/
def Fresh (E : Engine) (db : E.Db) (o : Open E) : Prop := E.base o.tx = E.txid db

variable {E : Engine} {st st' : State sv} {p : Pending} {parsed : Parsed} {o : Open E}
  {s : Session E}

theorem Fresh.resume {db : E.Db} (h : Fresh E db o) :
    E.resume db o.tx = .ok (E.attach db o.tx) := by
  rw [Engine.resume, if_neg (not_not_intro h.symm)]

theorem note_txn (s : Session E) (scan : Option E.Scan) :
    (s.note scan).txn = s.txn ∧ (s.note scan).db = s.db := by
  cases scan <;> exact ⟨rfl, rfl⟩

/-- A statement in an open transaction leaves the database alone and the
    transaction open. -/
theorem inOpenTxn_fresh (h : Fresh E s.db o) (stmt : Statement) : (s.inOpenTxn o stmt).2.db = s.db ∧
      ∃ o', (s.inOpenTxn o stmt).2.txn = some o' ∧ Fresh E s.db o' := by
  rw [inOpenTxn, h.resume]
  dsimp only
  obtain ⟨htxn, hdb⟩ := note_txn (E := E) _ _
  refine ⟨hdb, _, htxn, ?_⟩
  rw [Fresh]
  dsimp only
  split
  · rw [E.base_release, E.base_statement, E.base_savepoint, E.base_attach]
    exact h
  · rw [E.base_rollback, E.base_statement, E.base_savepoint, E.base_attach]
    exact h

/-- A statement is refused in a transaction, reads history, or runs in it. -/
theorem runInTxn_cases (s : Session E) (o : Open E) (stmt : Statement) :
    (∃ result, s.runInTxn o stmt = (result, s)) ∨ s.runInTxn o stmt = s.inOpenTxn o stmt := by
  cases stmt with
  | get g =>
      rw [runInTxn]
      cases g.asOf with
      | none => exact .inr rfl
      | some at_ => exact .inl ⟨_, rfl⟩
  | _ => first | exact .inl ⟨_, rfl⟩ | exact .inr rfl

/-- A statement outside a transaction manages its own commit, reads history, or
    is a transaction of its own. -/
theorem runAutocommit_cases (s : Session E) (stmt : Statement) :
    (isRead stmt = false ∧ ∃ result db, s.runAutocommit stmt = (result, { s with db := db })) ∨
      (∃ result, s.runAutocommit stmt = (result, s)) ∨ s.runAutocommit stmt = s.runOnce stmt := by
  cases stmt with
  | get g =>
      rw [runAutocommit]
      cases g.asOf with
      | none => exact .inr (.inr rfl)
      | some at_ => exact .inr (.inl ⟨_, rfl⟩)
  | _ => first | exact .inr (.inr rfl) | exact .inl ⟨rfl, _, _, rfl⟩

/-- Everything but transaction control. -/
theorem runParsed_other (s : Session E) {stmt : Statement} (hb : stmt ≠ .begin)
    (hc : stmt ≠ .commit) (hr : stmt ≠ .rollback) : s.runParsed stmt = match s.txn with
      | some o => s.runInTxn o stmt
      | none => s.runAutocommit stmt := by
  cases stmt with
  | begin => exact absurd rfl hb
  | commit => exact absurd rfl hc
  | rollback => exact absurd rfl hr
  | _ => rfl

theorem runInTxn_fresh (htxn : s.txn = some o) (h : Fresh E s.db o) (stmt : Statement) :
    (s.runInTxn o stmt).2.db = s.db ∧
      ∃ o', (s.runInTxn o stmt).2.txn = some o' ∧ Fresh E s.db o' := by
  rcases runInTxn_cases s o stmt with ⟨result, heq⟩ | heq
  · rw [heq]
    exact ⟨rfl, o, htxn, h⟩
  · rw [heq]
    exact inOpenTxn_fresh h stmt

theorem runOnce_txn (s : Session E) (stmt : Statement) :
    (s.runOnce stmt).2.txn = s.txn ∧ (isRead stmt = true → (s.runOnce stmt).2.db = s.db) := by
  rw [runOnce]
  split
  · exact ⟨rfl, fun _ => rfl⟩
  · split
    · rename_i hwrote
      have hno : isRead stmt ≠ true := fun hread => by
        rw [E.reads_pure _ _ hread] at hwrote
        nomatch hwrote
      split
      · exact ⟨rfl, fun h => absurd h hno⟩
      · exact ⟨(note_txn _ _).1, fun h => absurd h hno⟩
    · exact ⟨(note_txn _ _).1, fun _ => (note_txn _ _).2⟩

/-- Outside a transaction a statement opens none, and one that only reads leaves
    the database alone. -/
theorem runAutocommit_txn (s : Session E) (stmt : Statement) :
    (s.runAutocommit stmt).2.txn = s.txn
      ∧ (isRead stmt = true → (s.runAutocommit stmt).2.db = s.db) := by
  rcases runAutocommit_cases s stmt with ⟨hwrites, result, db, heq⟩ | ⟨result, heq⟩ | heq
  · rw [heq]
    exact ⟨rfl, fun hread => nomatch hwrites.symm.trans hread⟩
  · rw [heq]
    exact ⟨rfl, fun _ => rfl⟩
  · rw [heq]
    exact runOnce_txn s stmt

/-- A commit leaves no transaction. -/
theorem runParsed_commit (s : Session E) : (s.runParsed .commit).2.txn = none := by
  rw [runParsed]
  cases htxn : s.txn with
  | none => exact htxn
  | some o =>
      dsimp only
      split
      · split
        · rfl
        · split <;> rfl
      · rfl

/-- What a statement does to a transaction that is open and fresh: it stays
    open and fresh, on the same database, or it is gone. -/
theorem runParsed_open (htxn : s.txn = some o) (h : Fresh E s.db o) (stmt : Statement) :
    (s.runParsed stmt).2.txn = none ∨ ((s.runParsed stmt).2.db = s.db ∧
      ∃ o', (s.runParsed stmt).2.txn = some o' ∧ Fresh E s.db o') := by
  by_cases hb : stmt = .begin
  · rw [hb, runParsed, htxn]
    exact .inr ⟨rfl, o, htxn, h⟩
  · by_cases hc : stmt = .commit
    · rw [hc]
      exact .inl (runParsed_commit s)
    · by_cases hr : stmt = .rollback
      · rw [hr, runParsed, htxn]
        exact .inl rfl
      · rw [runParsed_other s hb hc hr, htxn]
        exact .inr (runInTxn_fresh htxn h stmt)

/-- What a statement does outside a transaction: `begin` opens one, and nothing
    else does. -/
theorem runParsed_closed (htxn : s.txn = none) (stmt : Statement) :
    ((s.runParsed stmt).2.txn = none ∧ (isRead stmt = true → (s.runParsed stmt).2.db = s.db ∧
        (s.runParsed stmt).1 = (s.runAutocommit stmt).1)) ∨
      (stmt = .begin ∧ (s.runParsed stmt).2.db = s.db ∧
        ∃ o, (s.runParsed stmt).2.txn = some o ∧ Fresh E s.db o) := by
  by_cases hb : stmt = .begin
  · rw [hb, runParsed, htxn]
    exact .inr ⟨rfl, rfl, _, rfl, E.base_begin _⟩
  · left
    by_cases hc : stmt = .commit
    · rw [hc]
      exact ⟨runParsed_commit s, nofun⟩
    · by_cases hr : stmt = .rollback
      · rw [hr, runParsed, htxn]
        exact ⟨htxn, nofun⟩
      · rw [runParsed_other s hb hc hr, htxn]
        obtain ⟨hsame, hdb⟩ := runAutocommit_txn s stmt
        exact ⟨hsame.trans htxn, fun h => ⟨hdb h, rfl⟩⟩

namespace State

/-- Nothing is left in the session between statements; who holds the queue is
    who has a transaction parked, and the database is as that transaction found
    it. -/
structure Held (st : State sv) : Prop where
  idle : st.session.txn = none
  holder_iff : ∀ id, st.holder.map Prod.fst = some id ↔ (st.conn id).parked.isSome = true
  fresh : ∀ id o, (st.conn id).parked = some o → Fresh sv.engine st.session.db o

theorem conn_setConn (st : State sv) (id : UInt64) (c : ConnState sv.engine) (i : UInt64) :
    (st.setConn id c).conn i = if i = id then c else st.conn i := by
  rw [conn, setConn]
  dsimp only
  split
  · rfl
  · rfl

/-- What changes neither the session, the holder nor what is parked. -/
theorem Held.congr (h : st.Held) (hsession : st'.session = st.session)
    (hholder : st'.holder = st.holder)
    (hparked : ∀ id, (st'.conn id).parked = (st.conn id).parked) :
    st'.Held where
  idle := by rw [hsession]; exact h.idle
  holder_iff id := by rw [hholder, hparked]; exact h.holder_iff id
  fresh id o ho := by
    rw [hparked] at ho
    rw [hsession]
    exact h.fresh id o ho

theorem Held.setConn (h : st.Held) {id : UInt64} {c : ConnState sv.engine}
    (hparked : c.parked = (st.conn id).parked) : (st.setConn id c).Held := by
  refine h.congr rfl rfl (fun i => ?_)
  rw [conn_setConn]
  split
  · rename_i hi
    rw [hi, hparked]
  · rfl

theorem Held.conn_closed (h : st.Held) {id : UInt64} (hne : st.holder.map Prod.fst ≠ some id) :
    (st.conn id).parked = none := by
  cases hp : (st.conn id).parked with
  | none => rfl
  | some o => exact absurd ((h.holder_iff id).mpr (by rw [hp]; rfl)) hne

/-- `settleHolder` only moves the holder. -/
theorem settleHolder_spec (st : State sv) (id : UInt64) (isOpen : Bool) :
    (st.settleHolder id isOpen).session = st.session ∧
      (st.settleHolder id isOpen).conns = st.conns ∧
      (st.settleHolder id isOpen).holder.map Prod.fst
        = if isOpen then some id
          else if st.holder.map Prod.fst = some id then none else st.holder.map Prod.fst := by
  rw [settleHolder]
  cases isOpen with
  | true => exact ⟨rfl, rfl, rfl⟩
  | false =>
      rw [if_neg Bool.false_ne_true, if_neg Bool.false_ne_true]
      cases hh : st.holder with
      | none => exact ⟨rfl, rfl, by rw [hh]; rfl⟩
      | some p =>
          obtain ⟨who, since⟩ := p
          dsimp only
          by_cases hw : who = id
          · rw [if_pos (beq_iff_eq.mpr hw), map_some, if_pos (congrArg some hw)]
            exact ⟨rfl, rfl, rfl⟩
          · rw [if_neg (fun hb => hw (beq_iff_eq.mp hb)), map_some,
              if_neg (fun hb => hw (Option.some.inj hb)), hh]
            exact ⟨rfl, rfl, rfl⟩

theorem detach_spec (st : State sv) (id : UInt64) :
    (st.detach id).session = { st.session with txn := none } ∧
      (∀ i, (st.detach id).conn i
        = if i = id then { st.conn id with parked := st.session.txn } else st.conn i) ∧
      (st.detach id).holder.map Prod.fst
        = if st.session.txn.isSome then some id
          else if st.holder.map Prod.fst = some id then none else st.holder.map Prod.fst := by
  obtain ⟨hsession, hconns, hholder⟩ := settleHolder_spec
    (({ st with session := { st.session with txn := none } } : State sv).setConn id
      { st.conn id with parked := st.session.txn }) id st.session.txn.isSome
  refine ⟨hsession, fun i => ?_, hholder⟩
  rw [← conn_setConn]
  exact congrArg (fun f => (f i).getD {}) hconns

/-- A connection parks what it has now, and nobody else's transaction was
    touched. -/
theorem Held.repark (h : st.Held) (id : UInt64) {t : Option (Open sv.engine)}
    (hidle : st'.session.txn = none)
    (hholder : st'.holder.map Prod.fst = if t.isSome then some id
      else if st.holder.map Prod.fst = some id then none else st.holder.map Prod.fst)
    (hself : (st'.conn id).parked = t)
    (helse : ∀ i, i ≠ id → (st'.conn i).parked = (st.conn i).parked)
    (hopen : ∀ o, t = some o → Fresh sv.engine st'.session.db o ∧
      (st.holder = none ∨ st.holder.map Prod.fst = some id))
    (hother : ∀ i, st.holder.map Prod.fst = some i → i ≠ id → st'.session.db = st.session.db) :
    st'.Held := by
  refine ⟨hidle, fun i => ?_, fun i o ho => ?_⟩
  · rw [hholder]
    by_cases hi : i = id
    · rw [hi, hself]
      cases t with
      | none =>
          rw [isSome_none, if_neg Bool.false_ne_true]
          refine iff_of_false (fun hmine => ?_) Bool.false_ne_true
          split at hmine
          · nomatch hmine
          · exact absurd hmine ‹_›
      | some o => exact iff_of_true (if_pos rfl) rfl
    · rw [helse i hi, ← h.holder_iff]
      cases hnow : t with
      | none =>
          rw [isSome_none, if_neg Bool.false_ne_true]
          split
          · rename_i hmine
            rw [hmine]
            exact iff_of_false nofun (fun heq => hi (Option.some.inj heq).symm)
          · rfl
      | some o =>
          rw [isSome_some, if_pos rfl]
          refine iff_of_false (fun heq => hi (Option.some.inj heq).symm) (fun heq => ?_)
          rcases (hopen o hnow).2 with hnone | hmine
          · rw [hnone] at heq
            nomatch heq
          · exact hi (Option.some.inj (heq.symm.trans hmine))
  · by_cases hi : i = id
    · rw [hi, hself] at ho
      exact (hopen o ho).1
    · rw [helse i hi] at ho
      rw [hother i ((h.holder_iff i).mpr (by rw [ho]; rfl)) hi]
      exact h.fresh i o ho

/-- Taking the transaction of `id` back after its statement: it is the only one
    that is open, or the one that is open was not touched. -/
theorem Held.detach {ran : State sv} (h : st.Held) (id : UInt64)
    (hconn : ∀ i, i ≠ id → ran.conn i = st.conn i) (hholder : ran.holder = st.holder)
    (hopen : ∀ o, ran.session.txn = some o → Fresh sv.engine ran.session.db o ∧
      (st.holder = none ∨ st.holder.map Prod.fst = some id))
    (hother : ∀ i, st.holder.map Prod.fst = some i → i ≠ id → ran.session.db = st.session.db) :
    (ran.detach id).Held := by
  obtain ⟨hdb, hparked, hnow⟩ := detach_spec ran id
  rw [hholder] at hnow
  refine h.repark id (by rw [hdb]) hnow (by rw [hparked, if_pos rfl]) (fun i hi => ?_)
    (by rw [hdb]; exact hopen) (by rw [hdb]; exact hother)
  rw [hparked, if_neg hi, hconn i hi]

/-- A pending statement goes by its own kind. -/
def Classified (p : Pending) : Prop :=
  ∀ parsed, p.work = .run parsed → parsed.kind = classify parsed.statement

theorem isRead_of_reads {stmt : Statement} (h : classify stmt = .reads) : isRead stmt = true := by
  cases stmt with
  | get g => rfl
  | showTables => rfl
  | explain inner => rfl
  | _ => nomatch h

/-- What running a request does to the session. -/
theorem perform_spec (st : State sv) (p : Pending) :
    (st.perform p).2.conns = st.conns ∧ (st.perform p).2.holder = st.holder ∧
      ((∃ messages, p.work = .say messages ∧ (st.perform p).2.session = st.session) ∨
        ∃ parsed, p.work = .run parsed ∧
          (st.perform p).1 = render sv.ioText (st.session.runParsed parsed.statement).1 ∧
          (st.perform p).2.session = (st.session.runParsed parsed.statement).2) := by
  rw [perform]
  cases p.work with
  | run parsed => exact ⟨rfl, rfl, .inr ⟨parsed, rfl, rfl, rfl⟩⟩
  | say messages => exact ⟨rfl, rfl, .inl ⟨messages, rfl, rfl⟩⟩

theorem attach_spec (st : State sv) (id : UInt64) :
    (st.attach id).session = { st.session with txn := (st.conn id).parked } ∧
      (∀ i, i ≠ id → (st.attach id).conn i = st.conn i) ∧ (st.attach id).holder = st.holder := by
  refine ⟨rfl, fun i hi => ?_, rfl⟩
  have := conn_setConn st id { st.conn id with parked := none } i
  rw [if_neg hi] at this
  exact this

/-- While somebody else holds the queue only reads run. -/
theorem reads_of_runnable {i : UInt64} (hclass : Classified p) (hwork : p.work = .run parsed)
    (hi : st.holder.map Prod.fst = some i) (hne : i ≠ p.job.id) (hrun : st.runnableNow p = true) :
    classify parsed.statement = .reads := by
  rw [runnableNow] at hrun
  cases hh : st.holder with
  | none =>
      rw [hh] at hi
      cases hi
  | some q =>
      rw [hh] at hi hrun
      obtain rfl : q.1 = i := Option.some.inj hi
      dsimp only at hrun
      rw [beq_eq_false_iff_ne.mpr hne, Bool.false_or, touchesData, hwork, Bool.not_eq_true',
        bne_eq_false_iff_eq, hclass parsed hwork] at hrun
      exact hrun

/-- What a statement that may run now does: it opens or changes the transaction
    of its own connection, and commits only while nobody else holds the queue. -/
theorem perform_attached (h : st.Held) (hclass : Classified p) (hrun : st.runnableNow p = true) :
    (∀ o, ((st.attach p.job.id).perform p).2.session.txn = some o →
        Fresh sv.engine ((st.attach p.job.id).perform p).2.session.db o ∧
        (st.holder = none ∨ st.holder.map Prod.fst = some p.job.id)) ∧
      (∀ i, st.holder.map Prod.fst = some i → i ≠ p.job.id →
        ((st.attach p.job.id).perform p).2.session.db = st.session.db) := by
  obtain ⟨hsession, -, -⟩ := attach_spec st p.job.id
  obtain ⟨-, -, ⟨messages, hwork, hsame⟩ | ⟨parsed, hwork, -, hran⟩⟩ :=
    perform_spec (st.attach p.job.id) p
  · -- nothing ran
    rw [hsame, hsession]
    refine ⟨fun o ho => ⟨h.fresh _ o ho, .inr ?_⟩, fun _ _ _ => rfl⟩
    rw [h.holder_iff, show (st.conn p.job.id).parked = some o from ho]
    rfl
  · rw [hran, hsession]
    generalize hs : ({ st.session with txn := (st.conn p.job.id).parked } : Session sv.engine) = s
    have hdb : s.db = st.session.db := by rw [← hs]
    cases hparked : (st.conn p.job.id).parked with
    | some o =>
        -- it runs in its own transaction, so nobody else has one
        have htxn : s.txn = some o := by rw [← hs]; exact hparked
        have hfresh : Fresh sv.engine s.db o := hdb ▸ h.fresh _ o hparked
        have hmine : st.holder.map Prod.fst = some p.job.id := by
          rw [h.holder_iff, hparked]
          rfl
        refine ⟨fun o' ho' => ⟨?_, .inr hmine⟩, fun i hi hne => ?_⟩
        · rcases runParsed_open htxn hfresh parsed.statement with
            hnone | ⟨hsame, o'', ho'', hfresh''⟩
          · rw [hnone] at ho'
            nomatch ho'
          · rw [ho''] at ho'
            obtain rfl := Option.some.inj ho'
            rw [hsame]
            exact hfresh''
        · exact absurd (Option.some.inj (hi.symm.trans hmine)) hne
    | none =>
        have htxn : s.txn = none := by rw [← hs]; exact hparked
        have hnotmine : st.holder.map Prod.fst ≠ some p.job.id := by
          rw [Ne, h.holder_iff, hparked]
          exact Bool.false_ne_true
        rcases runParsed_closed htxn parsed.statement with
          ⟨hnone, hread⟩ | ⟨hbegin, hsame, o, ho, hfresh⟩
        · refine ⟨fun o' ho' => ?_, fun i hi hne => ?_⟩
          · rw [hnone] at ho'
            nomatch ho'
          · have honly := reads_of_runnable hclass hwork hi hne hrun
            rw [(hread (isRead_of_reads honly)).1, hdb]
        · have hfree : st.holder = none := by
            cases hh : st.holder with
            | none => rfl
            | some q =>
                have hq : st.holder.map Prod.fst = some q.1 := by rw [hh]; rfl
                have honly := reads_of_runnable hclass hwork hq (fun heq => hnotmine (heq ▸ hq))
                  hrun
                rw [hbegin] at honly
                nomatch honly
          refine ⟨fun o' ho' => ⟨?_, .inl hfree⟩, fun i hi _ => ?_⟩
          · rw [ho] at ho'
            obtain rfl := Option.some.inj ho'
            rw [hsame]
            exact hfresh
          · rw [hfree] at hi
            nomatch hi

theorem Held.alone (h : st.Held) (hclass : Classified p) (hrun : st.runnableNow p = true) :
    (st.alone p).Held := by
  rw [State.alone]
  dsimp only
  split
  · exact (h.setConn (c := { st.conn p.job.id with aborted := none }) rfl).congr rfl rfl
      (fun _ => rfl)
  · obtain ⟨hopen, hother⟩ := perform_attached h hclass hrun
    obtain ⟨-, hconn, hholder⟩ := attach_spec st p.job.id
    obtain ⟨hconns, hholder', -⟩ := perform_spec (st.attach p.job.id) p
    refine (h.detach p.job.id (fun i hi => ?_) (hholder'.trans hholder) hopen hother).congr rfl rfl
      (fun _ => rfl)
    rw [← hconn i hi, conn, conn, hconns]

theorem answerAll_spec (st : State sv) (answers : List (Job × List ServerMessage)) :
    (st.answerAll answers).session = st.session ∧ (st.answerAll answers).conns = st.conns ∧
      (st.answerAll answers).holder = st.holder := by
  induction answers generalizing st with
  | nil => exact ⟨rfl, rfl, rfl⟩
  | cons a rest ih =>
      rw [answerAll, foldl_cons]
      exact ih _

theorem performAll_spec (st : State sv) (group : List Pending) :
    (st.performAll group).2.conns = st.conns ∧ (st.performAll group).2.holder = st.holder := by
  induction group generalizing st with
  | nil => exact ⟨rfl, rfl⟩
  | cons p rest ih =>
      rw [performAll]
      obtain ⟨hconns, hholder, -⟩ := perform_spec st p
      exact ⟨(ih _).1.trans hconns, (ih _).2.trans hholder⟩

theorem runParsed_begin (htxn : s.txn = none) :
    s.runParsed .begin = (.ok .ok, { s with txn := some ⟨E.suspend (E.begin_ s.db), false⟩ }) := by
  rw [runParsed, htxn]

/-- A group leaves no transaction behind, and touches no connection. -/
theorem grouped_spec (hidle : st.session.txn = none) (group : List Pending) :
    (st.grouped group).session.txn = none ∧ (st.grouped group).conns = st.conns ∧
      (st.grouped group).holder = st.holder := by
  rw [grouped]
  dsimp only
  rw [show (st.counted group.length).session = st.session from rfl, runParsed_begin hidle]
  dsimp only
  generalize hs : ({ st.counted group.length with
    session := { st.session with
      txn := some ⟨sv.engine.suspend (sv.engine.begin_ st.session.db), false⟩ } } : State sv)
    = begun
  have hconns : begun.conns = st.conns ∧ begun.holder = st.holder := by rw [← hs]; exact ⟨rfl, rfl⟩
  obtain ⟨hall, hholder⟩ := performAll_spec begun group
  have hclosed := runParsed_commit (begun.performAll group).2.session
  split
  · rename_i session hcommit
    rw [hcommit] at hclosed
    obtain ⟨ha, hb, hc⟩ := answerAll_spec { (begun.performAll group).2 with session := session }
      (begun.performAll group).1
    exact ⟨(congrArg txn ha).trans hclosed, hb.trans (hall.trans hconns.1),
      hc.trans (hholder.trans hconns.2)⟩
  · rename_i e session hcommit
    rw [hcommit] at hclosed
    obtain ⟨ha, hb, hc⟩ := answerAll_spec { (begun.performAll group).2 with session := session } _
    exact ⟨(congrArg txn ha).trans hclosed, hb.trans (hall.trans hconns.1),
      hc.trans (hholder.trans hconns.2)⟩

/-- With nobody holding the queue, what keeps it so and leaves the session
    without a transaction keeps everything. -/
theorem Held.of_free (h : st.Held) (hfree : st.holder = none) (hidle : st'.session.txn = none)
    (hconns : st'.conns = st.conns) (hholder : st'.holder = st.holder) : st'.Held := by
  have hnone : ∀ id, (st'.conn id).parked = none := fun id => by
    rw [conn, hconns]
    exact h.conn_closed (by rw [hfree]; nofun)
  refine ⟨hidle, fun id => ?_, fun id o ho => ?_⟩
  · rw [hholder, hfree, hnone id]
    exact iff_of_false nofun Bool.false_ne_true
  · rw [hnone id] at ho
    nomatch ho

theorem nextBatch_holder (h : 1 < st.nextBatch) : st.holder = none := by
  cases hh : st.holder with
  | none => rfl
  | some q =>
      rw [nextBatch, hh, isSome_some, if_pos rfl] at h
      exact absurd h (by decide)

theorem Held.fed (h : st.Held) : st.fed.Held := by
  rw [State.fed]
  split
  · rw [refill]
    split
    · exact h.congr rfl rfl (fun _ => rfl)
    · exact h
  · exact h

/-- Everything that waits goes by its own kind. -/
def AllClassified (st : State sv) : Prop := ∀ p ∈ st.ready ++ st.blocked, Classified p

theorem AllClassified.fed (h : st.AllClassified) : st.fed.AllClassified := by
  rw [State.fed]
  split
  · rw [refill]
    split
    · intro p hp
      rw [take_append_drop] at hp
      exact h p (mem_append_right _ hp)
    · exact h
  · exact h

theorem AllClassified.of_queues (h : st.AllClassified) (hq : st'.queues = st.queues) :
    st'.AllClassified := by
  obtain ⟨hr, hb⟩ := Prod.mk.inj hq
  intro p hp
  rw [hr, hb] at hp
  exact h p hp

theorem AllClassified.round (h : st.AllClassified) (hround : st.fed.round = some st') :
    st'.AllClassified := by
  have hfed := h.fed
  obtain ⟨p, rest, hready, ⟨-, rfl⟩ | ⟨-, -, rfl⟩ | ⟨-, -, rfl⟩⟩ := round_cases hround
  · intro q hq
    refine hfed q ?_
    rw [hready]
    rw [mem_append, mem_append, mem_singleton] at hq
    rw [cons_append, mem_cons, mem_append]
    exact hq.elim (fun h => .inr (.inl h)) (fun h => h.elim (fun h => .inr (.inr h)) .inl)
  · have hrest : ({ st.fed with ready := rest } : State sv).AllClassified := fun q hq =>
      hfed q (by rw [hready]; exact .tail _ hq)
    exact hrest.of_queues (queues_alone _ _)
  · have hrest :
        ({ st.fed with ready := st.fed.ready.drop st.fed.nextBatch } : State sv).AllClassified :=
      fun q hq => hfed q ((mem_append.mp hq).elim
        (fun h => mem_append_left _ (mem_of_mem_drop h)) (fun h => mem_append_right _ h))
    exact hrest.of_queues (queues_grouped _ _)

theorem Held.round (h : st.Held) (hclass : st.AllClassified) (hround : st.fed.round = some st') :
    st'.Held := by
  have hfed := h.fed
  obtain ⟨p, rest, hready, ⟨-, rfl⟩ | ⟨hrun, -, rfl⟩ | ⟨-, hbatch, rfl⟩⟩ := round_cases hround
  · exact hfed.congr rfl rfl (fun _ => rfl)
  · have hp : Classified p := hclass.fed p (by rw [hready]; exact .head _)
    have hrest : ({ st.fed with ready := rest } : State sv).Held :=
      hfed.congr rfl rfl (fun _ => rfl)
    exact hrest.alone hp hrun
  · have hrest : ({ st.fed with
        ready := st.fed.ready.drop st.fed.nextBatch } : State sv).session.txn = none :=
      hfed.idle
    obtain ⟨hidle, hconns, hholder⟩ := grouped_spec hrest (st.fed.ready.take st.fed.nextBatch)
    exact hfed.of_free (nextBatch_holder hbatch) hidle hconns hholder

theorem parseRequest_classified {request : ClientMessage}
    (h : sv.parseRequest request = .ok (some parsed)) :
    parsed.kind = classify parsed.statement := by
  rw [Service.parseRequest.eq_def] at h
  cases request with
  | auth token => nomatch h
  | close => nomatch h
  | query source =>
      dsimp only at h
      split at h
      · obtain rfl := Option.some.inj (Except.ok.inj h)
        rfl
      · nomatch h
  | querySql source =>
      dsimp only at h
      split at h
      · obtain rfl := Option.some.inj (Except.ok.inj h)
        rfl
      · nomatch h

/-- Looking at the token file and noting who is authenticated. -/
theorem reload_spec (st : State sv) (look : Look) :
    (st.reload look).session = st.session ∧ (st.reload look).conns = st.conns ∧
      (st.reload look).holder = st.holder ∧ (st.reload look).queues = st.queues := by
  rw [reload]
  dsimp only
  split
  · split
    · exact ⟨rfl, rfl, rfl, rfl⟩
    · split <;> exact ⟨rfl, rfl, rfl, rfl⟩
  · exact ⟨rfl, rfl, rfl, rfl⟩

theorem authenticate_spec (st : State sv) (id : UInt64) (token : Bytes) (look : Look) :
    (st.authenticate id token look).2.session = st.session ∧
      (st.authenticate id token look).2.holder = st.holder ∧
      (st.authenticate id token look).2.queues = st.queues ∧
      ∀ i, ((st.authenticate id token look).2.conn i).parked = (st.conn i).parked := by
  have hset : ∀ (st' : State sv) (i : UInt64),
      ((st'.setConn id { st'.conn id with authenticated := true }).conn i).parked
        = (st'.conn i).parked := by
    intro st' i
    rw [conn_setConn]
    split
    · rename_i hi
      rw [hi]
    · rfl
  rw [authenticate]
  split
  · exact ⟨rfl, rfl, rfl, hset st⟩
  · obtain ⟨hsession, hconns, hholder, hq⟩ := reload_spec st look
    have hconn : ∀ i, ((st.reload look).conn i).parked = (st.conn i).parked := fun i => by
      rw [conn, conn, hconns]
    dsimp only
    split
    · exact ⟨hsession, hholder, hq, fun i => (hset _ i).trans (hconn i)⟩
    · exact ⟨hsession, hholder, hq, hconn⟩

theorem enqueue_spec (st : State sv) (p : Pending) :
    (st.enqueue p).session = st.session ∧ (st.enqueue p).conns = st.conns ∧
      (st.enqueue p).holder = st.holder ∧
      ∀ q ∈ (st.enqueue p).ready ++ (st.enqueue p).blocked, q = p ∨ q ∈ st.ready ++ st.blocked := by
  rw [enqueue]
  split
  · refine ⟨rfl, rfl, rfl, fun q hq => ?_⟩
    rw [mem_append, mem_append, mem_singleton] at hq
    rw [mem_append]
    exact hq.elim (fun h => h.elim (fun h => .inr (.inl h)) .inl) (fun h => .inr (.inr h))
  · refine ⟨rfl, rfl, rfl, fun q hq => ?_⟩
    rw [mem_append, mem_append, mem_singleton] at hq
    rw [mem_append]
    exact hq.elim (fun h => .inr (.inl h)) (fun h => h.elim (fun h => .inr (.inr h)) .inl)

/-- What taking a request does: it queues at most one thing, and leaves the
    session, the holder and what is parked alone. -/
theorem accept_spec (st : State sv) (job : Job) (look : Look) :
    (st.accept job look).session = st.session ∧ (st.accept job look).holder = st.holder ∧
      (∀ i, ((st.accept job look).conn i).parked = (st.conn i).parked) ∧
      ∀ q ∈ (st.accept job look).ready ++ (st.accept job look).blocked,
        Classified q ∨ q ∈ st.ready ++ st.blocked := by
  rw [accept]
  dsimp only
  split
  · obtain ⟨hsession, hholder, hq, hparked⟩ :=
      authenticate_spec (st.note (.taken job)) job.id _ look
    obtain ⟨hr, hb⟩ := Prod.mk.inj hq
    refine ⟨hsession, hholder, hparked, fun q hmem => .inr ?_⟩
    change q ∈ (authenticate _ _ _ _).2.ready ++ (authenticate _ _ _ _).2.blocked at hmem
    rw [hr, hb] at hmem
    exact hmem
  · split
    · exact ⟨rfl, rfl, fun _ => rfl, fun q hq => .inr hq⟩
    · obtain ⟨hsession, hconns, hholder, hmem⟩ :=
        enqueue_spec ((st.note (.taken job)).note (.parsed job.id)).now.2 _
      refine ⟨hsession, hholder, fun i => ?_, fun q hq => ?_⟩
      · exact congrArg (fun f : UInt64 → Option (ConnState sv.engine) => ((f i).getD {}).parked)
          hconns
      · refine (hmem q hq).elim (fun heq => .inl ?_) .inr
        intro parsed hwork
        rw [heq] at hwork
        dsimp only at hwork
        split at hwork
        · rename_i hparse
          obtain rfl := Either.run.inj hwork
          exact parseRequest_classified hparse
        · nomatch hwork
        · nomatch hwork

theorem Held.accept (h : st.Held) (job : Job) (look : Look) : (st.accept job look).Held := by
  obtain ⟨hsession, hholder, hparked, -⟩ := accept_spec st job look
  exact h.congr hsession hholder hparked

theorem AllClassified.accept (h : st.AllClassified) (job : Job) (look : Look) :
    (st.accept job look).AllClassified := by
  obtain ⟨-, -, -, hmem⟩ := accept_spec st job look
  exact fun q hq => (hmem q hq).elim id (h q)

theorem Held.forget (h : st.Held) (id : UInt64) : (st.forget id).Held := by
  refine h.repark id h.idle ?_ (t := none) ?_ (fun i hi => ?_) (by rintro _ ⟨⟩) fun _ _ _ => rfl
  · simp only [State.forget, State.note]
    cases hh : st.holder with
    | none => rfl
    | some q =>
        dsimp only
        by_cases hq : q.1 = id
        · rw [if_pos (beq_iff_eq.mpr hq), map_some, if_pos (congrArg some hq)]
          rfl
        · rw [if_neg (fun hb => hq (beq_iff_eq.mp hb)), map_some,
            if_neg (fun hb => hq (Option.some.inj hb))]
          rfl
  · change ((if id = id then none else st.conns id).getD {}).parked = none
    rw [if_pos rfl]
    rfl
  · change ((if i = id then none else st.conns i).getD {}).parked = _
    rw [if_neg hi]
    rfl

theorem AllClassified.forget (h : st.AllClassified) (id : UInt64) :
    (st.forget id).AllClassified := by
  intro q hq
  rcases mem_append.mp hq with hq | hq
  · exact h q (mem_append_left _ (mem_of_mem_filter hq))
  · exact h q (mem_append_right _ (mem_of_mem_filter hq))

theorem Held.sweepIdle (h : st.Held) (now : Nat) : (st.sweepIdle now).Held := by
  rw [State.sweepIdle]
  split
  · exact h
  · rename_i id since hholder
    split
    · refine h.repark id h.idle (t := none) ?_ ?_ (fun i hi => ?_) nofun fun _ _ _ => rfl
      · rw [hholder, map_some, if_pos rfl]
        rfl
      · exact congrArg ConnState.parked ((conn_setConn st id _ id).trans (if_pos rfl))
      · exact congrArg ConnState.parked ((conn_setConn st id _ i).trans (if_neg hi))
    · exact h

theorem Held.sweep (h : st.Held) : st.sweep.Held := by
  have hnow : st.now.2.Held := h.congr rfl rfl (fun _ => rfl)
  have hidle := hnow.sweepIdle st.now.1
  rw [State.sweep]
  dsimp only
  split
  · exact hidle
  · rw [expire]
    obtain ⟨ha, hb, hc⟩ := answerAll_spec _ _
    exact hidle.congr ha hc (fun i => by rw [conn, hb]; rfl)

theorem sweep_session (st : State sv) : st.sweep.session = st.session := by
  have hidle : (st.now.2.sweepIdle st.now.1).session = st.session := by
    rw [sweepIdle]
    split
    · rfl
    · split <;> rfl
  rw [sweep]
  dsimp only
  split
  · exact hidle
  · rw [expire]
    exact (answerAll_spec _ _).1.trans hidle

theorem queues_sweepIdle (st : State sv) (now : Nat) : (st.sweepIdle now).queues = st.queues := by
  rw [sweepIdle]
  split
  · rfl
  · split <;> rfl

theorem AllClassified.sweep (h : st.AllClassified) : st.sweep.AllClassified := by
  have hidle : (st.now.2.sweepIdle st.now.1).AllClassified := h.of_queues (queues_sweepIdle _ _)
  rw [State.sweep]
  dsimp only
  split
  · exact hidle
  · rw [expire]
    refine AllClassified.of_queues (fun q hq => ?_) (queues_answerAll _ _)
    rcases mem_append.mp hq with hq | hq
    · exact hidle q (mem_append_left _ hq)
    · exact hidle q (mem_append_right _ (mem_of_mem_filter hq))

end State

/-- Over a whole run. -/
theorem Reached.held {first : State sv} (h : Reached first st) (hheld : first.Held)
    (hclass : first.AllClassified) : st.Held ∧ st.AllClassified := by
  induction h with
  | start => exact ⟨hheld, hclass⟩
  | request _ job look ih => exact ⟨ih.1.accept job look, ih.2.accept job look⟩
  | closed _ id ih => exact ⟨ih.1.forget id, ih.2.forget id⟩
  | sweep _ ih => exact ⟨ih.1.sweep, ih.2.sweep⟩
  | round _ hround ih => exact ⟨ih.1.round ih.2 hround, ih.2.round hround⟩

namespace State

/-- The session as somebody without a transaction has it: the database as it was
    committed last. -/
def committed (st : State sv) : Session sv.engine := ⟨st.session.db, st.session.workload, none⟩

/-- A connection has an open transaction parked. -/
def Parks (st : State sv) (id : UInt64) : Prop :=
  ∃ c, st.conns id = some c ∧ c.parked.isSome = true

theorem parks_iff (st : State sv) (id : UInt64) :
    st.Parks id ↔ (st.conn id).parked.isSome = true := by
  rw [Parks, conn]
  cases st.conns id with
  | none => exact iff_of_false (fun ⟨c, hc, _⟩ => nomatch hc) Bool.false_ne_true
  | some c => exact ⟨fun ⟨c', hc, hp⟩ => Option.some.inj hc ▸ hp, fun hp => ⟨c, rfl, hp⟩⟩

/-- What is promised of a transaction that is open: it is the only one, whoever
    holds the queue has it, it can be taken up again, and what comes in between
    commits nothing.  A statement of somebody else that runs meanwhile only
    reads, and is answered from what was committed. -/
structure Undisturbed (st : State sv) : Prop where
  one : ∀ id id', st.Parks id → st.Parks id' → id = id'
  holder_iff : ∀ id, (∃ since, st.holder = some (id, since)) ↔ st.Parks id
  resumes : ∀ id o, (st.conn id).parked = some o →
    sv.engine.resume st.session.db o.tx = .ok (sv.engine.attach st.session.db o.tx)
  arrivals : ∀ job look, (st.accept job look).session = st.session
  closes : ∀ id, (st.forget id).session = st.session
  deadlines : st.sweep.session = st.session
  others : ∀ id p rest st', st.Parks id → st.fed.ready = p :: rest → p.job.id ≠ id →
    st.fed.round = some st' → st'.session.db = st.session.db
  reads : ∀ id p rest st' parsed, st.Parks id → st.fed.ready = p :: rest → p.job.id ≠ id →
    st.fed.round = some st' → p.work = .run parsed → st.runnableNow p = true →
    (st.conn p.job.id).aborted = none →
    isRead parsed.statement = true ∧ st'.log = st.log ++ [.ran p.job.id,
      .answered p.job (render sv.ioText (st.committed.runAutocommit parsed.statement).1)]

/-- What the refill leaves alone. -/
theorem fed_spec (st : State sv) :
    st.fed.session = st.session ∧ st.fed.conns = st.conns ∧ st.fed.holder = st.holder
      ∧ st.fed.log = st.log := by
  rw [fed]
  split
  · rw [refill]
    split <;> exact ⟨rfl, rfl, rfl, rfl⟩
  · exact ⟨rfl, rfl, rfl, rfl⟩

/-- What a round does while somebody else holds the queue: the front waits, or
    runs alone. -/
theorem round_held {rest : List Pending} (hholder : st.holder.isSome = true)
    (hready : st.ready = p :: rest) (hround : st.round = some st') :
    (st.runnableNow p = false ∧ st' = { st with ready := rest, blocked := st.blocked ++ [p] }) ∨
      (st.runnableNow p = true ∧ st' = ({ st with ready := rest } : State sv).alone p) := by
  obtain ⟨p', rest', hready', hcase⟩ := round_cases hround
  obtain ⟨rfl, rfl⟩ := List.cons.inj (hready.symm.trans hready')
  rcases hcase with hwaits | ⟨hrun, -, rfl⟩ | ⟨-, hbatch, -⟩
  · exact .inl hwaits
  · exact .inr ⟨hrun, rfl⟩
  · rw [nextBatch_holder hbatch] at hholder
    nomatch hholder

theorem log_settleHolder (st : State sv) (id : UInt64) (isOpen : Bool) :
    (st.settleHolder id isOpen).log = st.log := by
  rw [settleHolder]
  split
  · rfl
  · split
    · split <;> rfl
    · rfl

theorem log_detach (st : State sv) (id : UInt64) : (st.detach id).log = st.log :=
  log_settleHolder _ _ _

/-- What running alone leaves of the session and of the log. -/
theorem alone_cases (st : State sv) (p : Pending) :
    (∃ reason, (st.conn p.job.id).aborted = some reason ∧ (st.alone p).session = st.session) ∨
      ((st.conn p.job.id).aborted = none ∧
        (st.alone p).session = { ((st.attach p.job.id).perform p).2.session with txn := none } ∧
        (st.alone p).log = ((st.attach p.job.id).perform p).2.log
          ++ [.answered p.job ((st.attach p.job.id).perform p).1]) := by
  rw [alone]
  dsimp only
  split
  · rename_i reason haborted
    exact .inl ⟨reason, haborted, rfl⟩
  · rename_i haborted
    refine .inr ⟨haborted, (detach_spec _ _).1, ?_⟩
    change (detach _ _).log ++ _ = _
    rw [log_detach]

/-- Nobody commits while somebody else holds the queue. -/
theorem Held.alone_db (h : st.Held) (hclass : Classified p) {id : UInt64}
    (hid : st.holder.map Prod.fst = some id) (hne : id ≠ p.job.id)
    (hrun : st.runnableNow p = true) :
    (st.alone p).session.db = st.session.db := by
  rcases alone_cases st p with ⟨reason, -, hsame⟩ | ⟨-, hsession, -⟩
  · rw [hsame]
  · rw [hsession]
    exact (perform_attached h hclass hrun).2 id hid hne

/-- What runs meanwhile reads, and reads what was committed. -/
theorem Held.alone_reads (h : st.Held) (hclass : Classified p) {id : UInt64}
    (hid : st.holder.map Prod.fst = some id) (hne : id ≠ p.job.id) (hrun : st.runnableNow p = true)
    (hwork : p.work = .run parsed) (haborted : (st.conn p.job.id).aborted = none) :
    isRead parsed.statement = true ∧ (st.alone p).log = st.log ++ [.ran p.job.id,
      .answered p.job (render sv.ioText (st.committed.runAutocommit parsed.statement).1)] := by
  have hread := isRead_of_reads (reads_of_runnable hclass hwork hid hne hrun)
  refine ⟨hread, ?_⟩
  rcases alone_cases st p with ⟨reason, hsome, -⟩ | ⟨-, -, hlog⟩
  · nomatch haborted.symm.trans hsome
  · -- the reader has no transaction of its own
    have hparked : (st.conn p.job.id).parked = none :=
      h.conn_closed (fun hmine => hne (Option.some.inj (hid.symm.trans hmine)))
    have hsession : (st.attach p.job.id).session = st.committed := by
      rw [(attach_spec st p.job.id).1, hparked]
      rfl
    have hanswer : (st.committed.runParsed parsed.statement).1
        = (st.committed.runAutocommit parsed.statement).1 := by
      rcases runParsed_closed (s := st.committed) rfl parsed.statement with ⟨-, hsame⟩ | ⟨hbegin, -⟩
      · exact (hsame hread).2
      · rw [hbegin] at hread
        nomatch hread
    rw [hlog, perform, hwork]
    dsimp only
    rw [hsession, hanswer]
    exact append_assoc _ _ _

theorem Held.undisturbed (h : st.Held) (hclass : st.AllClassified) : st.Undisturbed := by
  obtain ⟨hsession, hconns, hholder, hlog⟩ := fed_spec st
  have hfst : ∀ id, (∃ since, st.holder = some (id, since)) ↔ st.holder.map Prod.fst = some id := by
    intro id
    rw [map_eq_some_iff]
    constructor
    · rintro ⟨since, hs⟩
      exact ⟨_, hs, rfl⟩
    · rintro ⟨q, hq, hid⟩
      exact ⟨q.2, by rw [hq, ← hid]⟩
  have hholds : ∀ id, st.Parks id → st.holder.map Prod.fst = some id := fun id hid =>
    (h.holder_iff id).mpr ((st.parks_iff id).mp hid)
  have hsome : ∀ id, st.Parks id → st.fed.holder.isSome = true := fun id hid => by
    obtain ⟨since, hs⟩ := (hfst id).mpr (hholds id hid)
    rw [hholder, hs]
    rfl
  have hfront : ∀ {p rest}, st.fed.ready = p :: rest → Classified p := fun hready =>
    hclass.fed _ (by rw [hready]; exact .head _)
  have hheld : ∀ rest, ({ st.fed with ready := rest } : State sv).Held := fun rest =>
    h.fed.congr rfl rfl (fun _ => rfl)
  refine ⟨fun id id' hid hid' => ?_, fun id => ?_, fun id o ho => ?_, fun job look => ?_,
    fun id => rfl, ?_,
    fun id p rest st' hid hready hne hround => ?_,
      fun id p rest st' parsed hid hready hne hround hwork hrun hab => ?_⟩
  · exact Option.some.inj ((hholds id hid).symm.trans (hholds id' hid'))
  · rw [hfst, h.holder_iff, parks_iff]
  · exact (h.fresh id o ho).resume
  · exact (accept_spec st job look).1
  · exact sweep_session st
  · have hid' : st.fed.holder.map Prod.fst = some id := by rw [hholder]; exact hholds id hid
    rw [← hsession]
    rcases round_held (hsome id hid) hready hround with ⟨-, rfl⟩ | ⟨hrun, rfl⟩
    · rfl
    · exact (hheld rest).alone_db (hfront hready) hid' hne.symm hrun
  · have hid' : st.fed.holder.map Prod.fst = some id := by rw [hholder]; exact hholds id hid
    have hcommitted : ({ st.fed with ready := rest } : State sv).committed = st.committed := by
      rw [committed, committed, ← hsession]
    have hrun' : st.fed.runnableNow p = true := by
      rw [runnableNow, hholder]
      exact hrun
    rcases round_held (hsome id hid) hready hround with ⟨hwaits, -⟩ | ⟨-, rfl⟩
    · cases hwaits.symm.trans hrun'
    · have := (hheld rest).alone_reads (hfront hready) hid' hne.symm hrun' hwork (by
        rw [conn]; dsimp only; rw [hconns]; exact hab)
      rw [hcommitted] at this
      rw [← hlog]
      exact this

end State

theorem Reached.held_of_new {session : Session sv.engine} (hidle : session.txn = none)
    {deadlines : Deadlines} {tokens : Option Tokens} {checked : Nat} {clock : Nat → Nat}
    (h : Reached (new session deadlines tokens checked clock) st) :
    st.Held ∧ st.AllClassified :=
  h.held ⟨hidle, fun _ => iff_of_false nofun Bool.false_ne_true, nofun⟩
    (fun _ hp => absurd hp not_mem_nil)

/-- **ONE TRANSACTION AT A TIME.** In every state that an executor can come to,
    whatever requests arrive, connections close and deadlines fire, and between
    any two statements it runs. -/
theorem one_transaction_at_a_time (session : Session sv.engine) (hidle : session.txn = none)
    (deadlines : Deadlines) (tokens : Option Tokens) (checked : Nat) (clock : Nat → Nat)
    {st : State sv}
    (h : Reached (new session deadlines tokens checked clock) st) : st.Undisturbed := by
  obtain ⟨hheld, hclass⟩ := h.held_of_new hidle
  exact hheld.undisturbed hclass

/-- Whether a row is for the table `u`. -/
def intoU : Statement → Bool
  | .put table _ => table == "u"
  | _ => false

/-- The language in which every statement that is not a read puts one key, and
    a row for `u` is refused behind its first put. -/
def putting : Language where
  Scan := Empty
  Workload := Unit
  statement tx stmt := if isRead stmt then ⟨.ok .ok, tx, false, none⟩
    else if intoU stmt then ⟨.error (.exec "refused"), (TxOp.put [2] [7]).run tx, false, none⟩
    else ⟨.ok .ok, (TxOp.put [1] [7]).run tx, true, none⟩
  runGet _ _ := .ok .ok
  report _ _ _ := .ok .ok
  noteScan _ _ := ()
  base_statement tx stmt := by
    split
    · rfl
    · split <;> exact (TxOp.undoable _ tx).base
  reads_pure tx stmt hread := by rw [if_pos hread]

/-- A session on a new database. -/
def newSession : Session putting.engine :=
  ⟨⟨⟨QuantyPager.Pager.initial 512 0, "main"⟩, fun _ => 0⟩, (), none⟩

/-- Of the requests, three are statements by name and every other is a row for
    the table that it names. -/
def parseWord (source : String) : Except ParseError Statement :=
  if source = "begin" then .ok .begin
  else if source = "commit" then .ok .commit
  else if source = "show tables" then .ok .showTables
  else .ok (.put source "")

def puttingService : Service where
  engine := putting.engine
  parse := parseWord
  parseSql := parseWord
  sha256 token := token.map (· + 1)
  ioText := ""

/-- A request of a connection. -/
def query (id : UInt64) (source : String) : Job := ⟨id, .query source, 0, ⟨0⟩⟩

/-- A look at a token file that is not there. -/
def noFile : Look := ⟨none, none, none, none, none⟩

/-- Take a request. -/
def State.ask (st : State sv) (id : UInt64) (source : String) : State sv :=
  st.accept (query id source) noFile

/-- A round, if there is one. -/
def State.step (st : State sv) : State sv := st.fed.round.getD st

theorem Reached.ask {first : State sv} (h : Reached first st) (id : UInt64) (source : String) :
    Reached first (st.ask id source) := h.request _ _

theorem Reached.step {first : State sv} (h : Reached first st) : Reached first st.step := by
  rw [State.step]
  cases hround : st.fed.round with
  | none => exact h
  | some st' => exact h.round hround

/-- An executor of the service with nothing to do. -/
def idle : State puttingService := new newSession ⟨5, 5⟩ none 0 (fun _ => 0)

/-- Connection 7 has begun a transaction and put a row; 8 wants to put one and 9
    to read. -/
def holding : State puttingService :=
  (((idle.ask 7 "begin").step.ask 7 "t").step.ask 8 "t").ask 9 "show tables"

theorem reached_holding : Reached idle holding :=
  (((Reached.start.ask 7 "begin").step.ask 7 "t").step.ask 8 "t").ask 9 "show tables"

/-- The writer waits for 7, and the reader does not. -/
theorem one_transaction_at_a_time_three : holding.Parks 7 ∧ ¬ holding.Parks 8
    ∧ holding.blocked.map (·.job) = [query 8 "t"]
    ∧ holding.ready.map (·.job) = [query 9 "show tables"] ∧ holding.Undisturbed := by
  have hundisturbed :=
    @one_transaction_at_a_time puttingService newSession rfl _ _ _ _ _ reached_holding
  have hparks : holding.Parks 7 := (parks_iff _ _).mpr (by decide +kernel)
  refine ⟨hparks, fun hother => ?_, by decide +kernel, by decide +kernel, hundisturbed⟩
  exact absurd (hundisturbed.one 7 8 hparks hother) (by decide)

end QuantyExecutor
