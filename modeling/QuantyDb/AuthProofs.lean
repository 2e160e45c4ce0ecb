import QuantyDb.ExecutorProofs
import QuantyDb.WorkerProofs

/-! # Nothing before a token

    With a token file, nothing of a connection is parsed, queued or run before
    an `Auth` on that connection carried a token of the set in force, and nothing
    after the connection was closed.  The set in force is that of the last file
    that could be read.

    All of it is read off the log: what vouches for a connection is an entry
    further up. -/

namespace QuantyExecutor

open QuantyPage QuantyAst QuantyProto QuantyAnswer QuantySession QuantyTokens QuantyWorker List
open State
open Option

variable {sv : Service}

/-! ## What vouches for a connection -/

/-- The last token file that could be read says `accepted`. -/
def LastLoaded (log : List Entry) (accepted : List Bytes) : Prop :=
  ∃ before after, log = before ++ .loaded accepted :: after ∧ ∀ other, .loaded other ∉ after

/-- A token of the set in force was shown on this connection, which has not
    been closed since. -/
def Vouched (sv : Service) (log : List Entry) (id : UInt64) : Prop :=
  ∃ before token accepted after, log = before ++ .shown id token accepted :: after ∧
    sv.sha256 token ∈ accepted ∧ LastLoaded before accepted ∧ .closed id ∉ after

/-- The connection whose statement an entry parses or runs. -/
def Entry.serves : Entry → Option UInt64
  | .parsed id => some id
  | .ran id => some id
  | _ => none

/-- Everything that was parsed or run was vouched for by then. -/
def Watched (sv : Service) (log : List Entry) : Prop :=
  ∀ before e after id, log = before ++ e :: after → e.serves = some id → Vouched sv before id

variable {log : List Entry} {e : Entry} {st : State sv} {p : Pending}

/-- An element of a list with one more at the end is that one, or was there. -/
theorem split_snoc {before after : List Entry} {last : Entry}
    (h : log ++ [last] = before ++ e :: after) :
    (before = log ∧ e = last)
      ∨ ∃ after', after = after' ++ [last] ∧ log = before ++ e :: after' := by
  rcases eq_nil_or_concat after with rfl | ⟨after', x, rfl⟩
  · obtain ⟨hlog, hlast⟩ := append_inj' h rfl
    exact .inl ⟨hlog.symm, (List.cons.inj hlast).1.symm⟩
  · rw [concat_eq_append, ← cons_append, ← append_assoc] at h
    obtain ⟨hlog, hlast⟩ := append_inj' h rfl
    rw [← (List.cons.inj hlast).1, concat_eq_append]
    exact .inr ⟨after', rfl, hlog⟩

variable {accepted : List Bytes} {st' : State sv} {group : List Pending} {t : Tokens}

/-- The set in force stays until another file is loaded. -/
theorem LastLoaded.snoc (h : LastLoaded log accepted) (he : ∀ other, e ≠ .loaded other) :
    LastLoaded (log ++ [e]) accepted := by
  obtain ⟨before, after, rfl, hlast⟩ := h
  refine ⟨before, after ++ [e], by rw [append_assoc, cons_append], ?_⟩
  intro other hmem
  rcases mem_append.mp hmem with hmem | hmem
  · exact hlast other hmem
  · exact he other (mem_singleton.mp hmem).symm

theorem LastLoaded.loaded (log : List Entry) (accepted : List Bytes) :
    LastLoaded (log ++ [.loaded accepted]) accepted :=
  ⟨log, [], rfl, fun _ => not_mem_nil⟩

/-- Whoever is vouched for stays so until the connection closes. -/
theorem Vouched.snoc {id : UInt64} (h : Vouched sv log id) (he : e ≠ .closed id) :
    Vouched sv (log ++ [e]) id := by
  obtain ⟨before, token, accepted, after, rfl, htoken, hlast, hopen⟩ := h
  refine ⟨before, token, accepted, after ++ [e], by rw [append_assoc, cons_append], htoken, hlast,
    ?_⟩
  intro hmem
  rcases mem_append.mp hmem with hmem | hmem
  · exact hopen hmem
  · exact he (mem_singleton.mp hmem).symm

/-- A token of the set in force vouches for its connection. -/
theorem Vouched.shown (h : LastLoaded log accepted) (id : UInt64) {token : Bytes}
    (htoken : sv.sha256 token ∈ accepted) : Vouched sv (log ++ [.shown id token accepted]) id :=
  ⟨log, token, accepted, [], rfl, htoken, h, not_mem_nil⟩

/-- An entry may be added if it serves nobody but the vouched for. -/
theorem Watched.snoc (h : Watched sv log) (he : ∀ id, e.serves = some id → Vouched sv log id) :
    Watched sv (log ++ [e]) := by
  intro before e' after id hsplit hserves
  rcases split_snoc hsplit with ⟨rfl, rfl⟩ | ⟨after', -, hlog⟩
  · exact he id hserves
  · exact h before e' after' id hlog hserves

/-! ## Steps -/

namespace State

/-- What holds of a server with a token file: the set in force is the last one
    read, and whoever is let in, waits or ran was vouched for. -/
structure Gated (st : State sv) : Prop where
  tokens : ∃ t, st.tokens = some t ∧ LastLoaded st.log t.accepted
  conns : ∀ id, (st.conn id).authenticated = true → Vouched sv st.log id
  queued : ∀ p ∈ st.ready ++ st.blocked, Vouched sv st.log p.job.id
  watched : Watched sv st.log

/-- What changes neither the tokens nor the log, lets nobody in and queues
    nothing. -/
theorem Gated.congr (h : st.Gated) (htokens : st'.tokens = st.tokens) (hlog : st'.log = st.log)
    (hconns : ∀ id, (st'.conn id).authenticated = true → (st.conn id).authenticated = true)
    (hqueued : ∀ p ∈ st'.ready ++ st'.blocked, p ∈ st.ready ++ st.blocked) : st'.Gated where
  tokens := by rw [htokens, hlog]; exact h.tokens
  conns id hid := by rw [hlog]; exact h.conns id (hconns id hid)
  queued p hp := by rw [hlog]; exact h.queued p (hqueued p hp)
  watched := by rw [hlog]; exact h.watched

/-- What touches neither the tokens, the log, the connections nor the queues. -/
theorem Gated.same (h : st.Gated) (htokens : st'.tokens = st.tokens) (hlog : st'.log = st.log)
    (hconns : st'.conns = st.conns) (hqueues : st'.queues = st.queues) : st'.Gated := by
  obtain ⟨hready, hblocked⟩ := Prod.mk.inj hqueues
  refine h.congr htokens hlog ?_ ?_
  · intro id hid
    rw [conn, hconns] at hid
    exact hid
  · intro p hp
    rw [hready, hblocked] at hp
    exact hp

/-- An entry that neither closes a connection nor loads a file. -/
theorem Gated.note (h : st.Gated) (hclosed : ∀ id, e ≠ .closed id)
    (hloaded : ∀ other, e ≠ .loaded other)
    (hserves : ∀ id, e.serves = some id → Vouched sv st.log id) : (st.note e).Gated where
  tokens := by
    obtain ⟨t, ht, hlast⟩ := h.tokens
    exact ⟨t, ht, hlast.snoc hloaded⟩
  conns id hid := (h.conns id hid).snoc (hclosed id)
  queued p hp := (h.queued p hp).snoc (hclosed _)
  watched := h.watched.snoc hserves

theorem Gated.answer (h : st.Gated) (job : Job) (messages : List ServerMessage) :
    (st.answer job messages).Gated := by
  refine h.note ?_ ?_ ?_
  · intro id he; nomatch he
  · intro other he; nomatch he
  · intro id he; nomatch he

/-- Answers serve nobody, so they need no token. -/
theorem Gated.answerAll (h : st.Gated) (answers : List (Job × List ServerMessage)) :
    (st.answerAll answers).Gated := by
  induction answers generalizing st with
  | nil => exact h
  | cons a rest ih =>
      rw [answerAll, foldl_cons]
      exact ih (h.answer a.1 a.2)

/-- A statement runs for a connection that is vouched for, and takes that from none. -/
theorem Gated.perform (h : st.Gated) (hp : Vouched sv st.log p.job.id) :
    (st.perform p).2.Gated ∧ ∀ id, Vouched sv st.log id → Vouched sv (st.perform p).2.log id := by
  rw [State.perform]
  cases p.work with
  | say messages => exact ⟨h, fun _ hid => hid⟩
  | run parsed =>
      dsimp only
      have hsession :
          ({ st with session := (st.session.runParsed parsed.statement).2 } : State sv).Gated :=
        h.same rfl rfl rfl rfl
      refine ⟨hsession.note ?_ ?_ ?_, ?_⟩
      · intro id he; cases he
      · intro other he; cases he
      · intro id he
        rw [← Option.some.inj he]
        exact hp
      · intro id hid
        exact hid.snoc (by rintro ⟨⟩)

/-- The statements of a group, one after another. -/
theorem Gated.performAll (h : st.Gated) (hgroup : ∀ p ∈ group, Vouched sv st.log p.job.id) :
    (st.performAll group).2.Gated := by
  induction group generalizing st with
  | nil => exact h
  | cons p rest ih =>
      obtain ⟨hran, hkept⟩ := h.perform (hgroup p (.head _))
      rw [performAll]
      exact ih hran (fun q hq => hkept _ (hgroup q (.tail _ hq)))

/-- A group is run between a begin and a commit, and answered. -/
theorem Gated.grouped (h : st.Gated) (hgroup : ∀ p ∈ group, Vouched sv st.log p.job.id) :
    (st.grouped group).Gated := by
  have hset : ∀ {s : State sv} (session : Session sv.engine), s.Gated →
      ({ s with session := session } : State sv).Gated := by
    intro s session hs
    exact hs.same rfl rfl rfl rfl
  have hcounted : (st.counted group.length).Gated :=
    h.same rfl rfl rfl rfl
  rw [State.grouped]
  dsimp only
  split
  · exact (hset _ hcounted).answerAll _
  · rename_i session _
    have hran := (hset session hcounted).performAll hgroup
    split
    · exact (hset _ hran).answerAll _
    · exact (hset _ hran).answerAll _

/-- A connection may be let in if it is vouched for. -/
theorem Gated.setConn (h : st.Gated) {id : UInt64} {c : ConnState sv.engine}
    (hc : c.authenticated = true → Vouched sv st.log id) : (st.setConn id c).Gated where
  tokens := h.tokens
  conns i hi := by
    rw [conn_setConn] at hi
    split at hi
    · rename_i heq
      rw [heq]
      exact hc hi
    · exact h.conns i hi
  queued := h.queued
  watched := h.watched

/-- Who holds the transaction lets nobody in. -/
theorem Gated.settleHolder (h : st.Gated) (id : UInt64) (isOpen : Bool) :
    (st.settleHolder id isOpen).Gated := by
  rw [State.settleHolder]
  split
  · exact h.same rfl rfl rfl rfl
  · split
    · split <;> exact h.same rfl rfl rfl rfl
    · exact h

theorem Gated.detach (h : st.Gated) (id : UInt64) : (st.detach id).Gated := by
  have hidle : ({ st with session := { st.session with txn := none } } : State sv).Gated :=
    h.same rfl rfl rfl rfl
  have hset : (({ st with session := { st.session with txn := none } } : State sv).setConn id
      { st.conn id with parked := st.session.txn }).Gated := hidle.setConn (h.conns id)
  exact hset.settleHolder id st.session.txn.isSome

/-- A statement on its own, in the transaction of its connection or outside. -/
theorem Gated.alone (h : st.Gated) (hp : Vouched sv st.log p.job.id) : (st.alone p).Gated := by
  have hconn : ∀ c : ConnState sv.engine, c.authenticated = (st.conn p.job.id).authenticated →
      (st.setConn p.job.id c).Gated := by
    intro c hc
    exact h.setConn (fun hauth => h.conns _ (hc ▸ hauth))
  rw [State.alone]
  dsimp only
  split
  · exact (hconn { st.conn p.job.id with aborted := none } rfl).answer _ _
  · have hattached : (st.attach p.job.id).Gated :=
      (hconn { st.conn p.job.id with parked := none } rfl).same rfl rfl rfl rfl
    exact ((hattached.perform hp).1.detach p.job.id).answer _ _

/-- What waited behind the holder was vouched for when it was queued. -/
theorem Gated.fed (h : st.Gated) : st.fed.Gated := by
  rw [State.fed]
  split
  · rw [refill]
    split
    · refine h.congr rfl rfl (fun _ hid => hid) ?_
      intro p hp
      rw [take_append_drop] at hp
      exact mem_append_right _ hp
    · exact h
  · exact h

/-- **A ROUND**: whatever it picks was in the queues. -/
theorem Gated.round (h : st.Gated) (hround : st.fed.round = some st') : st'.Gated := by
  have hfed := h.fed
  obtain ⟨p, rest, hready, ⟨-, rfl⟩ | ⟨-, -, rfl⟩ | ⟨-, -, rfl⟩⟩ := round_cases hround
  -- it cannot run now, and joins those that are blocked
  · refine hfed.congr rfl rfl (fun _ hid => hid) ?_
    intro q hq
    rw [hready]
    rw [← append_assoc, mem_append, mem_singleton] at hq
    rcases hq with hq | rfl
    · exact .tail _ hq
    · exact .head _
  -- it runs alone
  · have hrest : ({ st.fed with ready := rest } : State sv).Gated := by
      refine hfed.congr rfl rfl (fun _ hid => hid) ?_
      intro q hq
      rw [hready]
      exact .tail _ hq
    exact hrest.alone (hfed.queued p (by rw [hready]; exact .head _))
  -- it leads a group
  · have hrest :
        ({ st.fed with ready := st.fed.ready.drop st.fed.nextBatch } : State sv).Gated := by
      refine hfed.congr rfl rfl (fun _ hid => hid) ?_
      intro q hq
      rcases mem_append.mp hq with hq | hq
      · exact mem_append_left _ (mem_of_mem_drop hq)
      · exact mem_append_right _ hq
    refine hrest.grouped ?_
    intro q hq
    exact hfed.queued q (mem_append_left _ (mem_of_mem_take hq))

/-- A reload puts the set of a file in force that could be read, or none. -/
theorem Gated.reload (h : st.Gated) (look : Look) : (st.reload look).Gated := by
  obtain ⟨t, ht, hlast⟩ := h.tokens
  have hchecked : ∀ (checked : Nat) (clock : Nat → Nat),
      ({ st with checked := checked, clock := clock } : State sv).Gated := by
    intro checked clock
    exact h.same rfl rfl rfl rfl
  rw [State.reload]
  dsimp only [now]
  split
  · rw [ht]
    dsimp only
    split
    · refine ⟨⟨_, rfl, LastLoaded.loaded _ _⟩, ?_, ?_, ?_⟩
      · intro id hid
        exact (h.conns id hid).snoc (by rintro ⟨⟩)
      · intro p hp
        exact (h.queued p hp).snoc (by rintro ⟨⟩)
      · exact h.watched.snoc (fun id he => by cases he)
    · rename_i t' hnot hreload
      refine ⟨⟨t', rfl, ?_⟩, h.conns, h.queued, h.watched⟩
      rcases reload_cases t look with ⟨text, -, -, hok⟩ | ⟨hsame, -⟩
      · rw [hreload] at hok
        exact absurd hok hnot
      · rw [hreload] at hsame
        dsimp only at hsame
        rw [hsame]
        exact hlast
  · exact hchecked _ _

/-- What is accepted is of the set. -/
theorem mem_of_accepts {tokens : Option Tokens} {digest : Bytes} (ht : tokens = some t)
    (h : (tokens.map (fun t => t.accepts digest)).getD false = true) : digest ∈ t.accepted := by
  rw [ht, map_some, getD_some, Tokens.accepts, contains_iff_mem] at h
  exact h

/-- `Auth`: the reload comes first, so the token is held to the set in force. -/
theorem Gated.authenticate (h : st.Gated) (id : UInt64) (token : Bytes) (look : Look) :
    (st.authenticate id token look).2.Gated := by
  obtain ⟨t, ht, -⟩ := h.tokens
  rw [State.authenticate, ht]
  dsimp only
  have hreload := h.reload look
  obtain ⟨t', ht', hlast⟩ := hreload.tokens
  have hnoted : ((st.reload look).note (.shown id token t'.accepted)).Gated := by
    refine hreload.note ?_ ?_ ?_
    · intro i he; cases he
    · intro other he; cases he
    · intro i he; cases he
  rw [ht', map_some, getD_some]
  split
  · rename_i haccepts
    exact hnoted.setConn (fun _ => Vouched.shown hlast id (mem_of_accepts ht' haccepts))
  · exact hnoted

/-- A request joins the queues behind a token. -/
theorem Gated.enqueue (h : st.Gated) (hp : Vouched sv st.log p.job.id) : (st.enqueue p).Gated := by
  obtain ⟨-, hconns, -, hmem⟩ := enqueue_spec st p
  have hrest : (st.enqueue p).tokens = st.tokens ∧ (st.enqueue p).log = st.log := by
    rw [State.enqueue]
    split <;> exact ⟨rfl, rfl⟩
  refine ⟨?_, ?_, ?_, ?_⟩
  · rw [hrest.1, hrest.2]
    exact h.tokens
  · intro id hid
    rw [conn, hconns] at hid
    rw [hrest.2]
    exact h.conns id hid
  · intro q hq
    rw [hrest.2]
    rcases hmem q hq with rfl | hq
    · exact hp
    · exact h.queued q hq
  · rw [hrest.2]
    exact h.watched

/-- With a token file, to pass the check is to be vouched for. -/
theorem Gated.isAuthenticated (h : st.Gated) {id : UInt64} (hauth : st.isAuthenticated id = true) :
    Vouched sv st.log id := by
  obtain ⟨t, ht, -⟩ := h.tokens
  rw [State.isAuthenticated, ht, isNone_some, Bool.false_or] at hauth
  refine h.conns id ?_
  rw [conn]
  cases hc : st.conns id with
  | none =>
      rw [hc] at hauth
      cases hauth
  | some c =>
      rw [hc] at hauth
      exact hauth

/-- A message is served only past the check, except `Auth` itself. -/
theorem Gated.accept (h : st.Gated) (job : Job) (look : Look) : (st.accept job look).Gated := by
  have htaken : (st.note (.taken job)).Gated := by
    refine h.note ?_ ?_ ?_
    · intro i he; cases he
    · intro other he; cases he
    · intro i he; cases he
  rw [State.accept]
  dsimp only
  split
  · exact (htaken.authenticate _ _ look).answer _ _
  · split
    · exact htaken.answer _ _
    · rename_i hauth
      rw [Bool.not_eq_true', Bool.not_eq_false] at hauth
      have hvouched := htaken.isAuthenticated hauth
      have hparsed : ((st.note (.taken job)).note (.parsed job.id)).Gated := by
        refine htaken.note ?_ ?_ ?_
        · intro i he; cases he
        · intro other he; cases he
        · intro i he
          rw [← Option.some.inj he]
          exact hvouched
      have hnow : ((st.note (.taken job)).note (.parsed job.id)).now.2.Gated :=
        hparsed.same rfl rfl rfl rfl
      exact hnow.enqueue (hvouched.snoc (by rintro ⟨⟩))

/-- A connection that closes takes its requests and its standing along. -/
theorem Gated.forget (h : st.Gated) (id : UInt64) : (st.forget id).Gated := by
  obtain ⟨t, ht, hlast⟩ := h.tokens
  refine ⟨⟨t, ht, hlast.snoc (fun other he => nomatch he)⟩, ?_, ?_,
    h.watched.snoc (fun i he => nomatch he)⟩
  · intro i hi
    change ((if i = id then none else st.conns i).getD {}).authenticated = true at hi
    split at hi
    · nomatch hi
    · rename_i hne
      exact (h.conns i hi).snoc (fun he => hne (Entry.closed.inj he).symm)
  · intro p hp
    change p ∈ st.ready.filter (fun p => p.job.id != id)
      ++ st.blocked.filter (fun p => p.job.id != id) at hp
    rw [← filter_append, mem_filter, bne_iff_ne] at hp
    exact (h.queued p hp.1).snoc (fun he => hp.2 (Entry.closed.inj he).symm)

/-- Rolling an idle transaction back lets nobody in. -/
theorem Gated.sweepIdle (h : st.Gated) (now : Nat) : (st.sweepIdle now).Gated := by
  rw [State.sweepIdle]
  split
  · exact h
  · split
    · rename_i id since _ _
      have hset : (st.setConn id { st.conn id with
          parked := none
          aborted := some ROLLED_BACK }).Gated :=
        h.setConn (h.conns id)
      exact hset.same rfl rfl rfl rfl
    · exact h

theorem Gated.sweep (h : st.Gated) : st.sweep.Gated := by
  have hnow : st.now.2.Gated := h.same rfl rfl rfl rfl
  have hidle := hnow.sweepIdle st.now.1
  rw [State.sweep]
  dsimp only
  split
  · exact hidle
  · rw [expire]
    refine Gated.answerAll ?_ _
    refine hidle.congr rfl rfl (fun _ hid => hid) ?_
    intro q hq
    rcases mem_append.mp hq with hq | hq
    · exact mem_append_left _ hq
    · exact mem_append_right _ (mem_of_mem_filter hq)

end State

/-- **EVERY RUN**, by induction on how the state was reached. -/
theorem Reached.gated {first : State sv} (h : Reached first st) (hfirst : first.Gated) :
    st.Gated := by
  induction h with
  | start => exact hfirst
  | request _ job look ih => exact ih.accept job look
  | closed _ id ih => exact ih.forget id
  | sweep _ ih => exact ih.sweep
  | round _ hround ih => exact ih.round hround

/-! ## The gate -/

/-- What a token file guards: nothing is parsed or run, waits or is let in
    without a token; a token lets in the connection that showed it and nobody
    else; and only a file that could be read and parsed says what a token is. -/
structure TokenGate (st : State sv) : Prop where
  served : Watched sv st.log
  queued : ∀ p ∈ st.ready ++ st.blocked, Vouched sv st.log p.job.id
  admitted : ∀ id, st.isAuthenticated id = true → Vouched sv st.log id
  byToken : ∀ id token look i, ((st.authenticate id token look).2.conn i).authenticated = true →
    (st.conn i).authenticated = true ∨
      (i = id ∧ ∃ t, (st.reload look).tokens = some t ∧ sv.sha256 token ∈ t.accepted)
  byFile : ∀ look, ∃ t t', st.tokens = some t ∧ (st.reload look).tokens = some t' ∧
    (t'.accepted = t.accepted ∨
      ∃ text, look.text = some text ∧ parseLines 0 (lines text) = .ok t'.accepted)

/-- The set in force after a reload is the old one or what the file says now. -/
theorem State.reload_tokens (ht : st.tokens = some t) (look : Look) :
    ∃ t', (st.reload look).tokens = some t' ∧ (t'.accepted = t.accepted ∨
      ∃ text, look.text = some text ∧ parseLines 0 (lines text) = .ok t'.accepted) := by
  rw [reload]
  dsimp only [now]
  split
  · rw [ht]
    dsimp only
    have hfile : (t.reloadIfChanged look).2.accepted = t.accepted ∨ ∃ text, look.text = some text ∧
        parseLines 0 (lines text) = .ok (t.reloadIfChanged look).2.accepted := by
      rcases reload_cases t look with ⟨text, htext, hparse, -⟩ | ⟨hsame, -⟩
      · exact .inr ⟨text, htext, hparse⟩
      · exact .inl hsame
    split
    · rename_i t' hreload
      rw [hreload] at hfile
      exact ⟨t', rfl, hfile⟩
    · rename_i t' _ hreload
      rw [hreload] at hfile
      exact ⟨t', rfl, hfile⟩
  · exact ⟨t, ht, .inl rfl⟩

/-- A token lets in the connection that showed it, if it is one of the set. -/
theorem State.authenticate_admits (ht : st.tokens = some t) (id : UInt64) (token : Bytes)
    (look : Look) (i : UInt64)
    (h : ((st.authenticate id token look).2.conn i).authenticated = true) :
    (st.conn i).authenticated = true ∨
      (i = id ∧ ∃ t, (st.reload look).tokens = some t ∧ sv.sha256 token ∈ t.accepted) := by
  obtain ⟨t', ht', -⟩ := reload_tokens ht look
  have hconn : ∀ i, (st.reload look).conn i = st.conn i := by
    intro i
    rw [conn, conn, (reload_spec st look).2.1]
  rw [authenticate, ht] at h
  dsimp only at h
  split at h
  · rename_i haccepts
    rw [conn_setConn] at h
    split at h
    · rename_i hi
      exact .inr ⟨hi, t', ht', mem_of_accepts ht' haccepts⟩
    · exact .inl (hconn i ▸ h)
  · exact .inl (hconn i ▸ h)

/-- **AUTHENTICATION GATES EVERYTHING**, in every interleaving of requests,
    closes and changes of the token file.  What a connection is known by is its
    own: of fewer than 2^64 connections no two share a name, whatever slots they
    were given. -/
theorem authentication_gates_everything (session : Session sv.engine) (deadlines : Deadlines)
    (t : Tokens)
    (checked : Nat) (clock : Nat → Nat) {st : State sv}
    (h : Reached (new session deadlines (some t) checked clock) st) :
    TokenGate st ∧ ∀ workers names system, QuantyWorker.Reached workers names system →
      names.length < 2 ^ 64 → names.Nodup := by
  have hfirst : (new session deadlines (some t) checked clock).Gated := by
    refine ⟨⟨t, rfl, LastLoaded.loaded [] t.accepted⟩, ?_, ?_, ?_⟩
    · intro id hid; nomatch hid
    · intro p hp; exact absurd hp not_mem_nil
    · have hnil : Watched sv [] := by
        intro before e after id hsplit
        exact absurd hsplit.symm (append_ne_nil_of_right_ne_nil _ (cons_ne_nil _ _))
      exact hnil.snoc (fun id he => nomatch he)
  have hgated := h.gated hfirst
  obtain ⟨t', ht', -⟩ := hgated.tokens
  refine ⟨⟨hgated.watched, hgated.queued, fun id => hgated.isAuthenticated,
    authenticate_admits ht', ?_⟩, ?_⟩
  · intro look
    obtain ⟨t'', ht'', hfile⟩ := reload_tokens ht' look
    exact ⟨t', t'', ht', ht'', hfile⟩
  · intro workers names system hworkers hfew
    exact hworkers.names_nodup hfew

/-- An executor with the digest of one token on file. -/
def locked : State puttingService :=
  new newSession ⟨5, 5⟩ (some ⟨[[2, 3, 4]], none, false⟩) 0 (fun _ => 0)

/-- Connection 7 shows the token and 8 its digest, and both ask for a row. -/
def guarded : State puttingService :=
  (((locked.accept ⟨7, .auth [1, 2, 3], 0, ⟨0⟩⟩ noFile).accept
    ⟨8, .auth [2, 3, 4], 0, ⟨0⟩⟩ noFile).ask 7 "t").ask 8 "t"

theorem reached_guarded : Reached locked guarded :=
  (((Reached.start.request ⟨7, .auth [1, 2, 3], 0, ⟨0⟩⟩ noFile).request
    ⟨8, .auth [2, 3, 4], 0, ⟨0⟩⟩ noFile).ask 7 "t").ask 8 "t"

/-- The statement of 7 waits to run and that of 8 was refused. -/
theorem authentication_gates_everything_two :
    guarded.ready.map (·.job) = [query 7 "t"] ∧ guarded.blocked.map (·.job) = []
      ∧ guarded.isAuthenticated 7 = true ∧ guarded.isAuthenticated 8 = false
      ∧ TokenGate guarded := by
  refine ⟨by decide +kernel, by decide +kernel, by decide +kernel, by decide +kernel, ?_⟩
  exact (@authentication_gates_everything puttingService _ _ _ _ _ _ reached_guarded).1

end QuantyExecutor
