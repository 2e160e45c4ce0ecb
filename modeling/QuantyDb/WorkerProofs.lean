import QuantyDb.RegistryProofs
import QuantyDb.Mailroom
import QuantyDb.ConnProofs

/-! # An answer only reaches the connection that asked

    The workers and whoever answers them are a room of guests and letters: a
    slot in its generation is a seat, the name of a connection is the name of
    the guest in it, and the jobs that are out and the replies on their way back
    are the letters.  A guest waits exactly while its connection awaits an
    answer.  Every step of the system is a few steps of the room, so the order
    of the room holds in every state the system can reach. -/

namespace QuantyWorker

open QuantyProto QuantyConn Mailroom List Registry Worker Function Job

/-! ## What a drive submits -/

theorem stepFrame_awaits (c : Conn) : c.stepFrame.2.awaiting = c.awaiting := by
  rw [stepFrame_eq]
  cases front c.inbuf with
  | tooLarge => exact (fail_phase c _ _).2.2
  | malformed rest => exact (fail_phase { c with inbuf := rest } _ _).2.2
  | _ => rfl

theorem stepFrames_awaits (c : Conn) (h : c.awaiting = false) :
    c.stepFrames.1.submitted.length + c.awaiting.toNat = c.stepFrames.2.awaiting.toNat := by
  rw [Conn.stepFrames]
  split
  · rw [submitted_state]
    exact Nat.zero_add _
  · have hkeep := stepFrame_awaits c
    split
    · rename_i d hd
      rw [hd] at hkeep
      rw [submitted_state, ← hkeep]
      exact Nat.zero_add _
    · rw [h]
      rfl

theorem stepHello_awaits (c : Conn) : c.stepHello.2.awaiting = c.awaiting := by
  rw [Conn.stepHello]
  split
  · rfl
  · dsimp only
    cases Conn.helloReply (c.inbuf.take CLIENT_HELLO_LEN) with
    | accepted v => exact (push_keeps _ _).2.1
    | refused r => rfl

/-- A step submits a request exactly when it starts to wait. -/
theorem step_awaits (c : Conn) :
    c.step.1.submitted.length + c.awaiting.toNat = c.step.2.awaiting.toNat := by
  have hstate : ∀ d : Conn, d.awaiting = c.awaiting →
      d.state.submitted.length + c.awaiting.toNat = d.awaiting.toNat := by
    intro d hd
    rw [submitted_state, hd]
    exact Nat.zero_add _
  rw [Conn.step]
  split
  · exact hstate c rfl
  · rename_i hheld
    have haw : c.awaiting = false := (held_eq_false (Bool.not_eq_true _ ▸ hheld)).2.1
    split
    · have hkeep := stepHello_awaits c
      split
      · rename_i d hd
        rw [hd] at hkeep
        have := stepFrames_awaits d (hkeep.trans haw)
        rwa [show d.awaiting = c.awaiting from hkeep] at this
      · rename_i d hd
        rw [hd] at hkeep
        exact hstate d hkeep
    · exact stepFrames_awaits c haw
    · exact hstate c rfl

theorem flush_awaits (c : Conn) (w : List Write) : (c.flush w).2.1.awaiting = c.awaiting := by
  rcases flush_cases c w with ⟨-, rest, h⟩ | ⟨-, fine, pos, rest, -, h⟩
  · rw [h]
    rfl
  · rw [h]

/-- The loop of `drive` submits one request and waits, or none. -/
theorem driveLoop_awaits (fuel : Nat) (c : Conn) (w : List Write) :
    (Conn.driveLoop fuel c w).submitted.length + c.awaiting.toNat
      = (Conn.driveLoop fuel c w).conn.awaiting.toNat := by
  induction fuel generalizing c w with
  | zero => exact Nat.zero_add _
  | succ fuel ih =>
      have hstep := step_awaits c
      have hflush := flush_awaits c.step.2 w
      have hround : ∃ (stop finished broken : Bool) (rest : List Write),
        Conn.driveLoop (fuel + 1) c w
          = if stop then ⟨(c.step.2.flush w).2.1, c.step.1.submitted, finished, broken⟩
            else
              let d := Conn.driveLoop fuel (c.step.2.flush w).2.1 rest
              { d with submitted := c.step.1.submitted ++ d.submitted } := by
        rw [Conn.driveLoop]
        cases c.step with
        | mk out c' => cases out <;> exact ⟨_, _, _, _, rfl⟩
      obtain ⟨stop, finished, broken, rest, hround⟩ := hround
      rw [hround]
      rw [← hflush] at hstep
      cases stop with
      | true => exact hstep
      | false =>
          have hrest := ih (c.step.2.flush w).2.1 rest
          rw [if_neg Bool.false_ne_true]
          dsimp only
          rw [length_append]
          omega

theorem drive_awaits (c : Conn) (w : List Write) :
    (c.drive w).submitted.length + c.awaiting.toNat = (c.drive w).conn.awaiting.toNat :=
  driveLoop_awaits _ c w

/-! ## Handlers -/

/-- What a handler of worker `me` does to the connection `c` of token `t`: it
    keeps who the connection is, submits a request for each answer it starts to
    wait for, and at the end the connection is changed or removed. -/
structure Turned (w : Worker) (me : Nat) (t : Token) (c : Connection) (waits : Bool) (h : Handled) :
    Prop where
  outbox : h.worker.outbox = w.outbox
  taken : h.worker.taken = w.taken
  conn : ∃ c' : Connection, c'.socket = c.socket ∧ c'.id = c.id ∧
    (∃ requests : List ClientMessage, h.jobs = requests.map (fun m => ⟨c.id, m, me, t⟩) ∧
      requests.length + waits.toNat = c'.state.awaiting.toNat) ∧
    (h.worker.conns = w.conns.put t c' ∨ w.conns.remove t = some (c, h.worker.conns))

variable {w : Worker} {t : Token} {c : Connection} {waits : Bool} {h : Handled} {reply : Reply}
  {k m n workers : Nat} {s s' : System} {socket : Fd} {rest : List Reply} {a : Action}
  {ids : List UInt64}

theorem close_turned (h : w.conns.get t = some c) (me : Nat) :
    Turned w me t c c.state.awaiting (w.close t) := by
  obtain ⟨r', hremove, -⟩ := remove_put h c
  have hclose : w.close t = ⟨{ w with conns := r' }, [], [c.id]⟩ := by rw [close, hremove]
  rw [hclose]
  exact ⟨rfl, rfl, c, rfl, rfl, ⟨[], rfl, Nat.zero_add _⟩, .inr hremove⟩

variable {me : Nat} {calls : Calls} {job : Job} {s₀ : System} {w₀ : Worker}

/-- What is done after the connection was changed in place. -/
theorem Turned.of_put {d : Connection} (hget : w.conns.get t = some c)
    (hsocket : d.socket = c.socket) (hid : d.id = c.id)
    (hturned : Turned { w with conns := w.conns.put t d } me t d waits h) :
    Turned w me t c waits h := by
  obtain ⟨c', hs, hi, hjobs, hconns⟩ := hturned.conn
  refine ⟨hturned.outbox, hturned.taken, c', hs.trans hsocket, hi.trans hid, hid ▸ hjobs, ?_⟩
  rcases hconns with hput | hremove
  · left
    rw [hput]
    exact put_put hget d c'
  · right
    obtain ⟨r', hr, hr'⟩ := remove_put hget d
    have heq := (Prod.mk.inj (Option.some.inj (hr'.symm.trans hremove))).2
    rw [hr, heq]

theorem drive_turned (h : w.conns.get t = some c) (me : Nat) (calls : Calls) :
    Turned w me t c c.state.awaiting (w.drive me t calls) := by
  have hcount := drive_awaits c.state calls.writes
  -- only what the connection is registered for depends on the poller
  have hdrive : ∃ (stop : Bool) (interest : Interest),
      w.drive me t calls =
        let d := c.state.drive calls.writes
        let jobs := d.submitted.map (fun m => (⟨c.id, m, me, t⟩ : Job))
        let w' := { w with conns := w.conns.put t { c with state := d.conn, interest := interest } }
        if stop then { w'.close t with jobs := jobs } else ⟨w', jobs, []⟩ := by
    rw [drive, h]
    exact ⟨_, _, rfl⟩
  obtain ⟨stop, interest, hdrive⟩ := hdrive
  rw [hdrive]
  dsimp only
  cases stop with
  | true =>
      obtain ⟨r', hremove, hremove'⟩ := remove_put h
        { c with state := (c.state.drive calls.writes).conn, interest := interest }
      rw [if_pos rfl, close, hremove']
      exact ⟨rfl, rfl, { c with state := (c.state.drive calls.writes).conn, interest := interest },
        rfl, rfl, ⟨_, rfl, hcount⟩, .inr hremove⟩
  | false =>
      rw [if_neg Bool.false_ne_true]
      exact ⟨rfl, rfl, { c with state := (c.state.drive calls.writes).conn, interest := interest },
        rfl, rfl, ⟨_, rfl, hcount⟩, .inl rfl⟩

theorem get_put_self (h : w.conns.get t = some c) (d : Connection) :
    ({ w with conns := w.conns.put t d } : Worker).conns.get t = some d := by
  show (w.conns.put t d).get t = some d
  rw [get_put h, if_pos rfl]

theorem fill_awaits (c : Conn) (reads : List Read) : (c.fill reads).2.awaiting = c.awaiting := by
  obtain ⟨b, hb⟩ := fill_appends c reads
  rw [hb]

theorem onReady_turned {event : Event} (h : w.conns.get event.token = some c) (me : Nat)
    (reads : List Read) (calls : Calls) :
    Turned w me event.token c c.state.awaiting (w.onReady me event reads calls) := by
  rw [onReady, h]
  dsimp only
  split
  · exact close_turned h me
  · split
    · have hkeep := fill_awaits c.state reads
      cases hfill : c.state.fill reads with
      | mk more state =>
          rw [hfill] at hkeep
          cases more with
          | none =>
              have hturned := close_turned (get_put_self h { c with state := state }) me
              rw [show ({ c with state := state } : Connection).state.awaiting = c.state.awaiting
                from hkeep] at hturned
              refine hturned.of_put h ?_ ?_ <;> rfl
          | some more =>
              have hstate : (if more then state else state.peerDone).awaiting
                  = c.state.awaiting := by
                cases more <;> exact hkeep
              have hturned := drive_turned (get_put_self h
                { c with state := if more then state else state.peerDone }) me calls
              rw [show ({ c with state := if more then state else state.peerDone } :
                Connection).state.awaiting = c.state.awaiting from hstate] at hturned
              refine hturned.of_put h ?_ ?_ <;> rfl
    · exact drive_turned h me calls

/-- An answer ends the wait for it. -/
theorem deliver_turned (h : w.conns.get reply.token = some c) (hid : c.id = reply.id) (me : Nat)
    (calls : Calls) : Turned w me reply.token c false (w.deliver me reply calls) := by
  rw [deliver, h]
  dsimp only
  rw [if_pos hid]
  have hturned := drive_turned (get_put_self h
    { c with state := c.state.resume reply.messages }) me calls
  rw [show ({ c with state := c.state.resume reply.messages } : Connection).state.awaiting = false
    from (resume_keeps _ _).2.1] at hturned
  refine hturned.of_put h ?_ ?_ <;> rfl

/-! ## The room -/

/-- Find a connection by its worker and its token. -/
def System.find (s : System) (n : Nat) (t : Token) : Option Connection :=
  s.workers[n]?.bind (fun w => w.conns.get t)

def Job.letter (j : Job) : (Nat × Token) × UInt64 := ((j.back, j.token), j.id)

/-- The replies of a worker that have not been handed on. -/
def Worker.mail (w : Worker) (n : Nat) : Multiset ((Nat × Token) × UInt64) :=
  ((w.taken ++ w.outbox).map (fun r => ((n, r.token), r.id)) : List _)

def mailFrom : Nat → List Worker → Multiset ((Nat × Token) × UInt64)
  | _, [] => 0
  | n, w :: rest => w.mail n + mailFrom (n + 1) rest

/-- The system as a room of guests and letters. -/
def System.room (s : System) : Room (Nat × Token) UInt64 where
  guest p := (s.find p.1 p.2).map (fun c => (c.id, c.state.awaiting))
  letters := (s.jobs.map letter : List _) + mailFrom 0 s.workers

theorem mailFrom_set {workers : List Worker} (h : workers[k]? = some w) (w' : Worker) (n : Nat) :
    mailFrom n (workers.set k w') + w.mail (n + k) = mailFrom n workers + w'.mail (n + k) := by
  induction workers generalizing k n with
  | nil => nomatch h
  | cons v rest ih =>
      cases k with
      | zero =>
          cases h
          rw [set_cons_zero, mailFrom, mailFrom, add_right_comm, add_comm (w'.mail n),
            add_right_comm]
          rfl
      | succ k =>
          have := ih h (n + 1)
          rw [set_cons_succ, mailFrom, mailFrom, add_assoc, add_assoc,
            show n + (k + 1) = n + 1 + k by omega, this]

/-- A change of a worker that leaves its mail alone. -/
theorem mailFrom_set_eq {workers : List Worker} {w' : Worker} (h : workers[k]? = some w)
    (hmail : w'.mail k = w.mail k) : mailFrom 0 (workers.set k w') = mailFrom 0 workers := by
  have := mailFrom_set h w' 0
  rw [Nat.zero_add, hmail] at this
  exact add_right_cancel this

/-- Who is where after one token of one worker was changed. -/
theorem guest_set (hn : s.workers[n]? = some w) (w' : Worker) {x : Option Connection}
    (hget : ∀ u, w'.conns.get u = if u = t then x else w.conns.get u) (next : UInt64)
    (jobs : List Job) : (⟨next, s.workers.set n w', jobs⟩ : System).room.guest
      = update s.room.guest (n, t) (x.map (fun c => (c.id, c.state.awaiting))) := by
  have hlt := (List.getElem?_eq_some_iff.mp hn).1
  funext ⟨m, u⟩
  by_cases hm : m = n
  · subst hm
    have hfind : (⟨next, s.workers.set m w', jobs⟩ : System).find m u
        = if u = t then x else s.find m u := by
      rw [System.find, System.find, hn, List.getElem?_set_self hlt]
      exact hget u
    by_cases hu : u = t
    · subst hu
      rw [update_self, System.room]
      dsimp only
      rw [hfind, if_pos rfl]
    · rw [update_of_ne (fun heq => hu (Prod.mk.inj heq).2), System.room]
      dsimp only
      rw [hfind, if_neg hu]
      rfl
  · rw [update_of_ne (fun heq => hm (Prod.mk.inj heq).1), System.room, System.room]
    dsimp only
    rw [System.find, System.find, List.getElem?_set_ne (Ne.symm hm)]

theorem room_guest (hn : s.workers[n]? = some w) (t : Token) :
    s.room.guest (n, t) = (w.conns.get t).map (fun c => (c.id, c.state.awaiting)) := by
  rw [System.room]
  dsimp only
  rw [System.find, hn]
  rfl

/-- Mail does not move anybody. -/
theorem guest_mail (hn : s.workers[n]? = some w) (w' : Worker) (hconns : w'.conns = w.conns)
    (jobs : List Job) :
    (⟨s.next, s.workers.set n w', jobs⟩ : System).room.guest = s.room.guest := by
  have hset := guest_set hn w' (t := ⟨0⟩) (x := w.conns.get ⟨0⟩)
    (fun u => by rw [hconns]; split <;> simp_all) s.next jobs
  rw [hset, ← room_guest hn]
  exact update_eq_self _ _

/-- Every registry is consistent. -/
def System.Consistent (s : System) : Prop :=
  ∀ (n : Nat) (w : Worker), s.workers[n]? = some w → w.conns.Consistent

theorem consistent_set (h : s.Consistent) (n : Nat) (w' : Worker) (hw' : w'.conns.Consistent)
    (next : UInt64) (jobs : List Job) : (⟨next, s.workers.set n w', jobs⟩ : System).Consistent := by
  intro m v hv
  by_cases hm : n = m
  · subst hm
    have hlt : n < s.workers.length := by
      have := (List.getElem?_eq_some_iff.mp hv).1
      rwa [length_set] at this
    rw [getElem?_set_self hlt] at hv
    rw [← Option.some.inj hv]
    exact hw'
  · rw [getElem?_set_ne hm] at hv
    exact h m v hv

/-- A change of the mail that moves letters but loses none. -/
theorem room_mail (hs : s.Consistent) (hn : s.workers[n]? = some w) (w' : Worker)
    (hconns : w'.conns = w.conns) (jobs : List Job)
    (hletters : (jobs.map letter : Multiset _) + mailFrom 0 (s.workers.set n w') = s.room.letters) :
    Steps s.room [] (⟨s.next, s.workers.set n w', jobs⟩ : System).room ∧
      (⟨s.next, s.workers.set n w', jobs⟩ : System).Consistent := by
  have hroom : (⟨s.next, s.workers.set n w', jobs⟩ : System).room = s.room := by
    have hguest := guest_mail hn w' hconns jobs
    rw [System.room] at hguest ⊢
    dsimp only at hguest
    rw [hguest, hletters]
  rw [hroom]
  exact ⟨.refl _, consistent_set hs n w' (hconns ▸ hs n w hn) _ _⟩

/-! ## Every step of the system is steps of the room -/

/-- A room after a handler ran: the guest asked or did not, and stayed or left. -/
theorem Turned.steps (hn : s.workers[n]? = some w) (hget : w.conns.get t = some c)
    (hturned : Turned w n t c waits h) :
    Steps ⟨update s.room.guest (n, t) (some (c.id, waits)), s.room.letters⟩ []
      (s.after n h).room := by
  obtain ⟨c', -, hid, ⟨requests, hjobs, hcount⟩, hconns⟩ := hturned.conn
  have hmail : mailFrom 0 (s.workers.set n h.worker) = mailFrom 0 s.workers :=
    mailFrom_set_eq hn (by rw [mail, mail, hturned.outbox, hturned.taken])
  -- the letters: one more if it asked
  have hletters : (s.after n h).room.letters
      = Multiset.replicate requests.length ((n, t), c.id) + s.room.letters := by
    have hnew : (requests.map (fun m => (⟨c.id, m, n, t⟩ : Job))).map letter
        = List.replicate requests.length ((n, t), c.id) := by
      rw [map_map]
      show requests.map (fun _ => ((n, t), c.id)) = _
      exact map_const'
    show ((s.jobs ++ h.jobs).map letter : Multiset _) + mailFrom 0 (s.workers.set n h.worker) = _
    rw [hmail, hjobs, map_append, hnew, ← Multiset.coe_add, Multiset.coe_replicate, System.room,
      add_left_comm, add_assoc]
  have hasked : Steps ⟨update s.room.guest (n, t) (some (c.id, waits)), s.room.letters⟩ []
      ⟨update s.room.guest (n, t) (some (c.id, c'.state.awaiting)),
        (s.after n h).room.letters⟩ := by
    rw [hletters]
    cases hwaits : c'.state.awaiting with
    | false =>
        rw [hwaits] at hcount
        have hnone : requests.length = 0 ∧ waits = false := by
          cases waits with
          | false => exact ⟨hcount, rfl⟩
          | true => nomatch hcount
        rw [hnone.1, hnone.2, Multiset.replicate_zero, zero_add]
        exact .refl _
    | true =>
        rw [hwaits] at hcount
        cases waits with
        | true =>
            have hnone : requests.length = 0 := by simpa using hcount
            rw [hnone, Multiset.replicate_zero, zero_add]
            exact .refl _
        | false =>
            have hone : requests.length = 1 := hcount
            rw [hone, Multiset.replicate_one, Multiset.singleton_add]
            have hstep := Step.ask (r := ⟨update s.room.guest (n, t) (some (c.id, false)),
              s.room.letters⟩) (p := (n, t)) (x := c.id) (update_self _ _ _)
            dsimp only at hstep
            rw [update_idem] at hstep
            exact .single hstep
  rcases hconns with hput | hremove
  · have hguest := guest_set hn h.worker (t := t) (x := some c')
      (fun u => by rw [hput]; exact get_put hget c' u) s.next (s.jobs ++ h.jobs)
    have hroom : (s.after n h).room = ⟨update s.room.guest (n, t)
        (some (c.id, c'.state.awaiting)), (s.after n h).room.letters⟩ := by
      rw [← hid]
      exact congrArg (Room.mk · _) hguest
    rw [hroom]
    exact hasked
  · have hguest := guest_set hn h.worker (t := t) (x := none)
      (fun u => get_remove hget hremove u) s.next (s.jobs ++ h.jobs)
    have hroom : (s.after n h).room = ⟨update s.room.guest (n, t) none,
        (s.after n h).room.letters⟩ := congrArg (Room.mk · _) hguest
    have hleave := Step.leave (r := ⟨update s.room.guest (n, t)
      (some (c.id, c'.state.awaiting)), (s.after n h).room.letters⟩) (n, t)
    dsimp only at hleave
    rw [update_idem, ← hroom] at hleave
    exact hasked.tail hleave

/-- The names that a step gives. -/
def System.names (s : System) : Action → List UInt64
  | .accept _ _ => [s.next]
  | _ => []

theorem Turned.consistent (hs : s.Consistent) (hn : s.workers[n]? = some w)
    (hget : w.conns.get t = some c) (hturned : Turned w me t c waits h) :
    (s.after n h).Consistent := by
  obtain ⟨c', hsocket, -, -, hconns⟩ := hturned.conn
  refine consistent_set hs n _ ?_ _ _
  rcases hconns with hput | hremove
  · rw [hput]
    exact (hs n w hn).put hget hsocket
  · exact (hs n w hn).remove hget hremove

/-- A handler that found nobody changed nothing. -/
theorem after_same (hn : s.workers[n]? = some w) : s.after n ⟨w, [], []⟩ = s := by
  obtain ⟨hlt, hw⟩ := List.getElem?_eq_some_iff.mp hn
  have hset : s.workers.set n w = s.workers := by
    rw [← hw]
    exact set_getElem_self hlt
  rw [System.after, hset, append_nil]

/-- What accepting does: a vacant slot of one registry is filled. -/
theorem step_accept (hs : s.Consistent) (h : s.step (.accept n socket) = some s') :
    ∃ w g r', s.workers[n]? = some w ∧
      s' = ⟨s.next + 1, s.workers.set n { w with conns := r' }, s.jobs⟩ ∧
      (w.conns.slots[w.conns.claim.1.toNat]? = some ⟨g, none⟩ ∨
        (w.conns.slots[w.conns.claim.1.toNat]? = none ∧ g = 0)) ∧
      (∀ j, r'.slots[j]? = if j = w.conns.claim.1.toNat
        then some ⟨g + 1, some (fresh socket s.next w.conns.claim.1 (g + 1))⟩
        else w.conns.slots[j]?) ∧ r'.Consistent := by
  rw [System.step] at h
  split at h
  · nomatch h
  · rename_i hsocket
    split at h
    · nomatch h
    · rename_i w hn
      have hfresh : socket ∉ w.conns.connections.map (·.socket) := by
        intro hmem
        exact hsocket (mem_flatMap.mpr ⟨w, mem_of_getElem? hn, hmem⟩)
      obtain ⟨g, r', hinsert, hrest⟩ := (hs n w hn).insert s.next hfresh
      rw [hinsert] at h
      exact ⟨w, g, r', hn, (Option.some.inj h).symm, hrest⟩

/-- In the room a guest takes a free seat. -/
theorem accept_steps (hs : s.Consistent) (h : s.step (.accept n socket) = some s') :
    Steps s.room [s.next] s'.room ∧ s'.Consistent := by
  obtain ⟨w, g, r', hn, rfl, hbefore, hslots, hr'⟩ := step_accept hs h
  refine ⟨?_, consistent_set hs n { w with conns := r' } hr' _ _⟩
  have hget := get_insert hbefore hslots
  have hguest := guest_set hn { w with conns := r' } hget (s.next + 1) s.jobs
  have hfree : s.room.guest (n, Token.new w.conns.claim.1 (g + 1)) = none := by
    have hnone : w.conns.get (Token.new w.conns.claim.1 (g + 1)) = none := by
      rw [Registry.get, Token.index_new]
      rcases hbefore with hb | ⟨hb, -⟩
      · rw [hb]
        exact ite_self _
      · rw [hb]
    rw [room_guest hn, hnone]
    rfl
  have hroom : (⟨s.next + 1, s.workers.set n { w with conns := r' }, s.jobs⟩ : System).room
      = ⟨update s.room.guest (n, Token.new w.conns.claim.1 (g + 1))
        (some (s.next, false)), s.room.letters⟩ := by
    refine (congrArg (Room.mk · _) hguest).trans (congrArg (Room.mk _) ?_)
    exact congrArg (_ + ·) (mailFrom_set_eq hn rfl)
  rw [hroom]
  exact .single (Step.enter s.next hfree)

/-- What a handler does to the room, if it finds the guest waiting as it was. -/
theorem Turned.simulates (hs : s.Consistent) (hn : s.workers[n]? = some w)
    (hget : w.conns.get t = some c) (hturned : Turned w n t c c.state.awaiting h) :
    Steps s.room [] (s.after n h).room ∧ (s.after n h).Consistent := by
  have hsame : update s.room.guest (n, t) (some (c.id, c.state.awaiting)) = s.room.guest := by
    have hguest : s.room.guest (n, t) = some (c.id, c.state.awaiting) := by
      rw [room_guest hn, hget]
      rfl
    rw [← hguest]
    exact update_eq_self _ _
  have hsteps := hturned.steps hn hget
  rw [hsame] at hsteps
  exact ⟨hsteps, hturned.consistent hs hn hget⟩

/-- The system once worker `n` has taken a reply off its list. -/
def System.untaken (s : System) (n : Nat) (w : Worker) (rest : List Reply) : System :=
  { s with workers := s.workers.set n { w with taken := rest } }

theorem untaken_room (hn : s.workers[n]? = some w) (htaken : w.taken = reply :: rest) :
    (s.untaken n w rest).room.guest = s.room.guest ∧
      s.room.letters = ((n, reply.token), reply.id) ::ₘ (s.untaken n w rest).room.letters := by
  refine ⟨guest_mail hn { w with taken := rest } rfl s.jobs, ?_⟩
  have hmail : w.mail n
      = ((n, reply.token), reply.id) ::ₘ ({ w with taken := rest } : Worker).mail n := by
    rw [mail, mail, htaken]
    rfl
  have hset := mailFrom_set hn { w with taken := rest } 0
  rw [Nat.zero_add, hmail, Multiset.add_cons, ← Multiset.cons_add] at hset
  show _ + mailFrom 0 s.workers = _
  rw [← add_right_cancel hset, Multiset.add_cons]
  rfl

theorem after_untaken (s : System) (n : Nat) (w : Worker) (rest : List Reply) (h : Handled) :
    s.after n h = (s.untaken n w rest).after n h := by
  show (⟨s.next, s.workers.set n h.worker, s.jobs ++ h.jobs⟩ : System)
    = ⟨s.next, (s.workers.set n _).set n h.worker, s.jobs ++ h.jobs⟩
  rw [set_set]

/-- A reply that names nobody in its slot changes nothing. -/
theorem deliver_dropped (h : ∀ c, w.conns.get reply.token = some c → c.id ≠ reply.id) (me : Nat)
    (calls : Calls) : w.deliver me reply calls = ⟨w, [], []⟩ := by
  rw [deliver]
  split
  · rfl
  · rename_i c hget
    exact if_neg (h c hget)

theorem step_deliver :
    s.step (.deliver n calls) = some s' ↔ ∃ w reply rest, s.workers[n]? = some w ∧
      w.taken = reply :: rest ∧
      s' = (s.untaken n w rest).after n ({ w with taken := rest }.deliver n reply calls) := by
  constructor
  · intro h
    rw [System.step] at h
    split at h
    · nomatch h
    · rename_i w hn
      split at h
      · nomatch h
      · rename_i reply rest htaken
        refine ⟨w, reply, rest, hn, htaken, ?_⟩
        rw [← Option.some.inj h, after_untaken]
  · rintro ⟨w, reply, rest, hn, htaken, rfl⟩
    rw [System.step, hn]
    dsimp only
    rw [htaken, ← after_untaken]

/-- The letters without one job. -/
theorem letters_eraseIdx {jobs : List Job} (h : jobs[k]? = some job) :
    ((jobs.map letter : List _) : Multiset _)
      = job.letter ::ₘ ((jobs.eraseIdx k).map letter : List _) := by
  obtain ⟨hlt, hget⟩ := List.getElem?_eq_some_iff.mp h
  rw [Multiset.cons_coe, Multiset.coe_eq_coe, ← map_cons, ← hget]
  exact ((getElem_cons_eraseIdx_perm hlt).map _).symm

/-- What a step does that accepts nobody: nothing, or a handler ran, or a reply
    was handed on or dropped, or mail moved, or jobs were lost. -/
inductive Effect (s : System) : System → Prop
  | none : Effect s s
  | turned {n : Nat} {w : Worker} {t : Token} {c : Connection} {h : Handled}
      (hn : s.workers[n]? = some w) (hget : w.conns.get t = some c)
      (hturned : Turned w n t c c.state.awaiting h) : Effect s (s.after n h)
  | received {n : Nat} {w : Worker} {reply : Reply} {rest : List Reply} {c : Connection}
      {h : Handled}
      (hn : s.workers[n]? = some w) (htaken : w.taken = reply :: rest)
      (hget : w.conns.get reply.token = some c) (hid : c.id = reply.id)
      (hturned : Turned { w with taken := rest } n reply.token c false h) :
      Effect s ((s.untaken n w rest).after n h)
  | dropped {n : Nat} {w : Worker} {reply : Reply} {rest : List Reply}
      (hn : s.workers[n]? = some w) (htaken : w.taken = reply :: rest) :
      Effect s (s.untaken n w rest)
  | mailed {n : Nat} {w w' : Worker} {jobs : List Job} (hn : s.workers[n]? = some w)
      (hconns : w'.conns = w.conns) (hletters :
        (jobs.map letter : Multiset _) + mailFrom 0 (s.workers.set n w') = s.room.letters) :
      Effect s ⟨s.next, s.workers.set n w', jobs⟩
  | lost {jobs : List Job}
      (hle : Multiset.ofList (jobs.map letter) ≤ Multiset.ofList (s.jobs.map letter)) :
      Effect s { s with jobs := jobs }

theorem untaken_worker (hn : s.workers[n]? = some w) (rest : List Reply) :
    (s.untaken n w rest).workers[n]? = some { w with taken := rest } :=
  List.getElem?_set_self (List.getElem?_eq_some_iff.mp hn).1

theorem deliver_effect (hn : s.workers[n]? = some w) (htaken : w.taken = reply :: rest)
    (calls : Calls) :
    Effect s ((s.untaken n w rest).after n ({ w with taken := rest }.deliver n reply calls)) := by
  by_cases hmatch : ∃ c, w.conns.get reply.token = some c ∧ c.id = reply.id
  · obtain ⟨c, hget, hid⟩ := hmatch
    exact .received hn htaken hget hid
      (deliver_turned (w := { w with taken := rest }) hget hid n calls)
  · have hdrop := deliver_dropped (w := { w with taken := rest })
      (fun c hget hid => hmatch ⟨c, hget, hid⟩) n calls
    rw [hdrop, after_same (untaken_worker hn rest)]
    exact .dropped hn htaken

/-- An answer is put in the outbox of the worker that asked: its letter is
    still on its way. -/
theorem answer_effect (hjob : s.jobs[k]? = some job) (hn : s.workers[job.back]? = some w)
    (messages : List ServerMessage) : Effect s { s with
      jobs := s.jobs.eraseIdx k
      workers := s.workers.set job.back
        { w with outbox := w.outbox ++ [job.answer messages] } } := by
  have hmail : ({ w with outbox := w.outbox ++ [job.answer messages] } : Worker).mail job.back
      = job.letter ::ₘ w.mail job.back := by
    rw [mail, mail, ← append_assoc, map_append, ← Multiset.coe_add,
      map_singleton, Multiset.coe_singleton, add_comm, Multiset.singleton_add]
    rfl
  have hset := mailFrom_set hn { w with outbox := w.outbox ++ [job.answer messages] } 0
  rw [Nat.zero_add, hmail, Multiset.add_cons, ← Multiset.cons_add] at hset
  refine .mailed hn rfl ?_
  rw [add_right_cancel hset, Multiset.add_cons, ← Multiset.cons_add, ← letters_eraseIdx hjob]
  rfl

/-- **WHAT A STEP DOES**, said once. -/
theorem step_effect (h : s.step a = some s') (ha : ∀ n socket, a ≠ .accept n socket) :
    Effect s s' := by
  cases a with
  | accept n socket => exact absurd rfl (ha n socket)
  | ready n event reads calls =>
      obtain ⟨w, hn, rfl⟩ := Option.map_eq_some_iff.mp h
      cases hget : w.conns.get event.token with
      | none =>
          rw [onReady, hget]
          dsimp only
          rw [after_same hn]
          exact .none
      | some c => exact .turned hn hget (onReady_turned hget n reads calls)
  | take n =>
      obtain ⟨w, hn, rfl⟩ := Option.map_eq_some_iff.mp h
      have hmail : ({ w with outbox := [], taken := w.taken ++ w.outbox } : Worker).mail n
          = w.mail n := by
        rw [mail, mail, append_nil]
      refine .mailed hn rfl ?_
      rw [mailFrom_set_eq hn hmail]
      rfl
  | deliver n calls =>
      obtain ⟨w, reply, rest, hn, htaken, rfl⟩ := step_deliver.mp h
      exact deliver_effect hn htaken calls
  | close n token =>
      obtain ⟨w, hn, rfl⟩ := Option.map_eq_some_iff.mp h
      cases hget : w.conns.get token with
      | none =>
          rw [close, remove_none hget]
          dsimp only
          rw [after_same hn]
          exact .none
      | some c => exact .turned hn hget (close_turned hget n)
  | answer k messages =>
      rw [System.step] at h
      split at h
      · nomatch h
      · rename_i job hjob
        split at h
        · nomatch h
        · rename_i w hn
          rw [← Option.some.inj h]
          exact answer_effect hjob hn messages
  | discard k =>
      rw [System.step] at h
      split at h
      · rename_i hlt
        rw [← Option.some.inj h]
        refine .lost ?_
        rw [letters_eraseIdx (getElem?_eq_getElem hlt)]
        exact Multiset.le_cons_self _ _
      · nomatch h

theorem Effect.next (h : Effect s s') : s'.next = s.next := by cases h <;> rfl

theorem Effect.steps (hs : s.Consistent) (h : Effect s s') :
    Steps s.room [] s'.room ∧ s'.Consistent := by
  cases h with
  | none => exact ⟨.refl _, hs⟩
  | turned hn hget hturned => exact hturned.simulates hs hn hget
  | @received n w reply rest c h hn htaken hget hid hturned =>
      obtain ⟨hguest, hletters⟩ := untaken_room hn htaken
      have hn₁ := untaken_worker hn rest
      have hs₁ : (s.untaken n w rest).Consistent :=
        consistent_set hs n { w with taken := rest } (hs n w hn) _ _
      have hseat : s.room.guest (n, reply.token) = some (c.id, c.state.awaiting) := by
        rw [room_guest hn, hget]
        rfl
      have hreceive := Step.receive (hid ▸ hletters) hseat
      rw [← hguest] at hreceive
      exact ⟨(Steps.single hreceive).trans (hturned.steps hn₁ hget),
        hturned.consistent hs₁ hn₁ hget⟩
  | @dropped n w reply rest hn htaken =>
      obtain ⟨hguest, hletters⟩ := untaken_room hn htaken
      have hlose := Step.lose (r := s.room) (s.untaken n w rest).room.letters
        (hletters ▸ Multiset.le_cons_self _ _)
      rw [← hguest] at hlose
      exact ⟨.single hlose, consistent_set hs n { w with taken := rest } (hs n w hn) _ _⟩
  | mailed hn hconns hletters => exact room_mail hs hn _ hconns _ hletters
  | lost hle => exact ⟨.single (Step.lose _ (add_le_add_left hle _)), hs⟩

/-- **THE SYSTEM IS A ROOM**: every step is steps of the room, and keeps the
    registries consistent. -/
theorem step_simulates (hs : s.Consistent) (h : s.step a = some s') :
    Steps s.room (s.names a) s'.room ∧ s'.Consistent := by
  cases a with
  | accept n socket => exact accept_steps hs h
  | _ => exact (step_effect h nofun).steps hs

/-! ## Every run -/

/-- Every state that any number of workers can come to, with the names given on
    the way, the last one first. -/
inductive Reached (workers : Nat) : List UInt64 → System → Prop
  | start : Reached workers [] (.start workers)
  | step {ids : List UInt64} {s s' : System} {a : Action} (h : Reached workers ids s)
      (hstep : s.step a = some s') : Reached workers (s.names a ++ ids) s'

/-- The name that the connection after so many gets. -/
def nameOf (k : Nat) : UInt64 := UInt64.ofNat (k + 1)

theorem step_next (hs : s.Consistent) (h : s.step a = some s') :
    (s.names a = [s.next] ∧ s'.next = s.next + 1) ∨ (s.names a = [] ∧ s'.next = s.next) := by
  cases a with
  | accept n socket =>
      obtain ⟨w, g, r', -, rfl, -⟩ := step_accept hs h
      exact .inl ⟨rfl, rfl⟩
  | _ => exact .inr ⟨rfl, (step_effect h nofun).next⟩

theorem Reached.consistent (h : Reached workers ids s) : s.Consistent := by
  induction h with
  | start =>
      intro n w hw
      rw [eq_of_mem_replicate (mem_of_getElem? hw)]
      exact .empty
  | step _ hstep ih => exact (step_simulates ih hstep).2

/-- The counter counts. -/
theorem Reached.names_eq (h : Reached workers ids s) :
    s.next = nameOf ids.length ∧ ids = ((List.range ids.length).map nameOf).reverse := by
  induction h with
  | start => exact ⟨rfl, rfl⟩
  | @step ids s s' a h hstep ih =>
      rcases step_next h.consistent hstep with ⟨hnames, hnext⟩ | ⟨hnames, hnext⟩
      · rw [hnames, hnext, ih.1]
        refine ⟨?_, ?_⟩
        · rw [nameOf, nameOf, length_append, length_singleton, Nat.add_comm 1,
            UInt64.ofNat_add (ids.length + 1)]
          rfl
        · rw [length_append, length_singleton, Nat.add_comm 1, range_succ, map_append,
            reverse_append]
          exact congrArg _ ih.2
      · rw [hnames, hnext]
        exact ih

theorem Reached.names_nodup (h : Reached workers ids s) (hfew : ids.length < 2 ^ 64) :
    ids.Nodup := by
  rw [h.names_eq.2, nodup_reverse]
  refine List.Nodup.map_on (fun i hi j hj heq => ?_) nodup_range
  have hi := mem_range.mp hi
  have hj := mem_range.mp hj
  have hnat := congrArg UInt64.toNat heq
  rw [nameOf, nameOf, UInt64.toNat_ofNat', UInt64.toNat_ofNat', Nat.mod_eq_of_lt (by omega),
    Nat.mod_eq_of_lt (by omega)] at hnat
  omega

theorem start_room (workers : Nat) : (System.start workers).room = ⟨fun _ => none, 0⟩ := by
  have hnew : ∀ (n : Nat) (w : Worker), (List.replicate workers new)[n]? = some w → w = .new := by
    intro n w hw
    exact eq_of_mem_replicate (mem_of_getElem? hw)
  have hguest : (System.start workers).room.guest = fun _ => none := by
    funext ⟨n, t⟩
    cases hn : (System.start workers).workers[n]? with
    | none =>
        rw [System.room]
        dsimp only
        rw [System.find, hn]
        rfl
    | some w =>
        rw [room_guest hn, hnew n w hn]
        rfl
  have hmail : ∀ (k n : Nat), mailFrom n (List.replicate k new) = 0 := by
    intro k
    induction k with
    | zero => exact fun _ => rfl
    | succ k ih =>
        intro n
        rw [replicate_succ, mailFrom, ih]
        rfl
  refine (congrArg (Room.mk · _) hguest).trans (congrArg (Room.mk _) ?_)
  show 0 + mailFrom 0 (List.replicate workers new) = 0
  rw [hmail, zero_add]

/-- The room of every state that can be reached is in order. -/
theorem Reached.orderly (h : Reached workers ids s) (hfew : ids.length < 2 ^ 64) :
    s.room.Orderly ids := by
  have hsteps : Steps (System.start workers).room ids s.room := by
    induction h with
    | start => exact .refl _
    | step h hstep ih =>
        have hfew' := hfew
        rw [length_append] at hfew'
        exact (ih (by omega)).trans (step_simulates h.consistent hstep).1
  have horder := hsteps.orderly (start_room workers ▸ Room.Orderly.empty)
    (by rw [append_nil]; exact h.names_nodup hfew)
  rwa [append_nil] at horder

/-! ## Slots that are reused -/

/-- How often a step hands out slot `i` of worker `n`. -/
def System.handsOut (s : System) (a : Action) (n : Nat) (i : UInt32) : Nat :=
  match a with
  | .accept m _ => if m = n ∧ s.workers[m]?.map (fun w => w.conns.claim.1) = some i then 1 else 0
  | _ => 0

/-- A run in which slot `i` of worker `n` is handed out `k` times. -/
inductive Reuses (n : Nat) (i : UInt32) : System → Nat → System → Prop
  | refl (s : System) : Reuses n i s 0 s
  | step {s₀ s s' : System} {k : Nat} {a : Action} (h : Reuses n i s₀ k s)
      (hstep : s.step a = some s') :
      Reuses n i s₀ (k + s.handsOut a n i) s'

/-- What a step can do to a slot: hand it out, leave it as it is, or free it. -/
inductive Moved : Nat → Slot → Slot → Prop
  | given {s s' : Slot} (hfree : s.conn = none) (htaken : s'.conn.isSome)
      (hgen : s'.generation = s.generation + 1) : Moved 1 s s'
  | kept {s s' : Slot} (hconn : s'.conn.isSome = s.conn.isSome)
      (hgen : s'.generation = s.generation) :
      Moved 0 s s'
  | freed {s s' : Slot} (htaken : s.conn.isSome) (hfree : s'.conn = none)
      (hgen : s'.generation = s.generation + 1) : Moved 0 s s'

/-- What a step does to slot `i` of worker `n`. -/
def SlotMoves (s s' : System) (k n : Nat) (i : UInt32) : Prop :=
  ∀ w slot, s.workers[n]? = some w → w.conns.slots[i.toNat]? = some slot →
    ∃ w' slot', s'.workers[n]? = some w' ∧ w'.conns.slots[i.toNat]? = some slot'
      ∧ Moved k slot slot'

theorem SlotMoves.same
    (h : ∀ w, s.workers[n]? = some w → ∃ w', s'.workers[n]? = some w' ∧ w'.conns = w.conns)
    (i : UInt32) : SlotMoves s s' 0 n i := by
  intro w slot hn hslot
  obtain ⟨w', hn', hconns⟩ := h w hn
  exact ⟨w', slot, hn', hconns ▸ hslot, .kept rfl rfl⟩

/-- A change of another worker. -/
theorem set_other (hne : m ≠ n) (w' : Worker) (next : UInt64) (jobs : List Job) :
    ∀ w, s.workers[n]? = some w → ∃ w₁,
      (⟨next, s.workers.set m w', jobs⟩ : System).workers[n]? = some w₁ ∧ w₁.conns = w.conns := by
  intro w hn
  exact ⟨w, (getElem?_set_ne hne).trans hn, rfl⟩

theorem set_mail (hm : s.workers[m]? = some w) (w' : Worker) (hconns : w'.conns = w.conns)
    (next : UInt64) (jobs : List Job) (n : Nat) : ∀ v, s.workers[n]? = some v → ∃ w₁,
      (⟨next, s.workers.set m w', jobs⟩ : System).workers[n]? = some w₁ ∧ w₁.conns = v.conns := by
  intro v hn
  by_cases hne : m = n
  · subst hne
    rw [hm] at hn
    obtain rfl := Option.some.inj hn
    exact ⟨w', List.getElem?_set_self (List.getElem?_eq_some_iff.mp hm).1, hconns⟩
  · exact set_other hne w' next jobs v hn

theorem Turned.slotMoves (hm : s.workers[m]? = some w) (hget : w.conns.get t = some c)
    (hturned : Turned w m t c waits h) (n : Nat) (i : UInt32) :
    SlotMoves s (s.after m h) 0 n i := by
  by_cases hne : m = n
  · subst hne
    intro v slot hv hslot
    rw [hm] at hv
    obtain rfl := Option.some.inj hv
    have hself : (s.after m h).workers[m]? = some h.worker :=
      List.getElem?_set_self (List.getElem?_eq_some_iff.mp hm).1
    have hat := get_eq_some.mp hget
    have hlt := (List.getElem?_eq_some_iff.mp hat).1
    obtain ⟨c', -, -, -, hconns⟩ := hturned.conn
    -- the slot of the token is changed or freed, any other is left alone
    by_cases hi : i = t.index
    · subst hi
      rw [hat] at hslot
      obtain rfl := Option.some.inj hslot
      rcases hconns with hput | hremove
      · refine ⟨h.worker, ⟨t.generation, some c'⟩, hself, ?_, .kept rfl rfl⟩
        rw [hput, put_slots hget]
        exact getElem?_set_self hlt
      · refine ⟨h.worker, ⟨t.generation + 1, none⟩, hself, ?_, .freed rfl rfl rfl⟩
        rw [remove_slots hget] at hremove
        rw [← (Prod.mk.inj (Option.some.inj hremove)).2]
        exact getElem?_set_self hlt
    · have hij : t.index.toNat ≠ i.toNat := fun heq => hi (UInt32.toNat_inj.mp heq.symm)
      refine ⟨h.worker, slot, hself, ?_, .kept rfl rfl⟩
      rcases hconns with hput | hremove
      · rw [hput, put_slots hget]
        exact (getElem?_set_ne hij).trans hslot
      · rw [remove_slots hget] at hremove
        rw [← (Prod.mk.inj (Option.some.inj hremove)).2]
        exact (getElem?_set_ne hij).trans hslot
  · exact SlotMoves.same (set_other hne h.worker s.next (s.jobs ++ h.jobs)) i

theorem accept_slotMoves (hs : s.Consistent) (h : s.step (.accept m socket) = some s') (n : Nat)
    (i : UInt32) : SlotMoves s s' (s.handsOut (.accept m socket) n i) n i := by
  obtain ⟨w, g, r', hm, rfl, hbefore, hslots, -⟩ := step_accept hs h
  have hhands : s.handsOut (.accept m socket) n i
      = if m = n ∧ w.conns.claim.1 = i then 1 else 0 := by
    rw [System.handsOut, hm]
    simp only [Option.map_some, Option.some_inj]
  rw [hhands]
  by_cases hne : m = n
  · subst hne
    intro v slot hv hslot
    rw [hm] at hv
    obtain rfl := Option.some.inj hv
    refine ⟨{ w with conns := r' }, ?_⟩
    have hself : (s.workers.set m { w with conns := r' })[m]? = some { w with conns := r' } :=
      List.getElem?_set_self (List.getElem?_eq_some_iff.mp hm).1
    by_cases hi : w.conns.claim.1 = i
    · rw [if_pos ⟨rfl, hi⟩]
      have hnew := hslots i.toNat
      rw [if_pos (congrArg UInt32.toNat hi.symm)] at hnew
      refine ⟨_, hself, hnew, ?_⟩
      rw [hi, hslot] at hbefore
      rcases hbefore with hb | ⟨hb, -⟩
      · rw [Option.some.inj hb]
        exact .given rfl rfl rfl
      · nomatch hb
    · rw [if_neg (fun hand => hi hand.2)]
      have hold := hslots i.toNat
      rw [if_neg (fun heq => hi (UInt32.toNat_inj.mp heq.symm))] at hold
      exact ⟨slot, hself, hold.trans hslot, .kept rfl rfl⟩
  · rw [if_neg (fun hand => hne hand.1)]
    exact SlotMoves.same (set_other hne { w with conns := r' } (s.next + 1) s.jobs) i

theorem Effect.slotMoves (h : Effect s s') (n : Nat) (i : UInt32) : SlotMoves s s' 0 n i := by
  cases h with
  | none => exact .same (fun w hn => ⟨w, hn, rfl⟩) i
  | turned hm hget hturned => exact hturned.slotMoves hm hget n i
  | @received m w reply rest c h hm htaken hget hid hturned =>
      intro v slot hv hslot
      obtain ⟨v', hv', hconns⟩ := set_mail hm { w with taken := rest } rfl s.next s.jobs n v hv
      exact hturned.slotMoves (untaken_worker hm rest) hget n i v' slot hv' (hconns ▸ hslot)
  | @dropped m w reply rest hm htaken =>
      exact .same (set_mail hm { w with taken := rest } rfl s.next s.jobs n) i
  | mailed hm hconns hletters => exact .same (set_mail hm _ hconns _ _ n) i
  | lost hle => exact .same (fun w hn => ⟨w, hn, rfl⟩) i

/-- A step hands a slot out, leaves it as it is, or frees it. -/
theorem step_slotMoves (hs : s.Consistent) (h : s.step a = some s') (n : Nat) (i : UInt32) :
    SlotMoves s s' (s.handsOut a n i) n i := by
  cases a with
  | accept m socket => exact accept_slotMoves hs h n i
  | _ => exact (step_effect h nofun).slotMoves n i

/-- Where the generation of a slot stands after it was handed out `k` times
    since it was free in generation `g`. -/
theorem Reuses.generation (hs : s₀.Consistent) {i g : UInt32} (hn : s₀.workers[n]? = some w₀)
    (hslot : w₀.conns.slots[i.toNat]? = some ⟨g, none⟩) (h : Reuses n i s₀ k s) :
    s.Consistent ∧ ∃ w slot, s.workers[n]? = some w ∧ w.conns.slots[i.toNat]? = some slot ∧
      ((slot.conn = none ∧ slot.generation = g + UInt32.ofNat (2 * k)) ∨
        (slot.conn.isSome ∧ 0 < k ∧ slot.generation + 1 = g + UInt32.ofNat (2 * k))) := by
  induction h with
  | refl =>
      refine ⟨hs, w₀, _, hn, hslot, .inl ⟨rfl, ?_⟩⟩
      exact (UInt32.add_zero g).symm
  | @step s s' k a _ hstep ih =>
      obtain ⟨hcons, w, slot, hw, hslot, hat⟩ := ih
      obtain ⟨w', slot', hw', hslot', hmoved⟩ := step_slotMoves hcons hstep n i w slot hw hslot
      refine ⟨(step_simulates hcons hstep).2, w', slot', hw', hslot', ?_⟩
      generalize s.handsOut a n i = j at hmoved
      cases hmoved with
      | given hfree htaken hgen =>
          rcases hat with ⟨-, hg⟩ | ⟨hsome, -⟩
          · refine .inr ⟨htaken, Nat.succ_pos k, ?_⟩
            rw [hgen, hg, Nat.mul_add, UInt32.ofNat_add, ← UInt32.add_assoc, UInt32.add_assoc _ 1 1]
            rfl
          · rw [hfree] at hsome
            nomatch hsome
      | kept hconn hgen =>
          rw [hgen, hconn, Nat.add_zero]
          refine hat.imp_left (fun ⟨hnone, hg⟩ => ⟨?_, hg⟩)
          rw [hnone] at hconn
          exact Option.not_isSome_iff_eq_none.mp (by rw [hconn]; exact Bool.false_ne_true)
      | freed htaken hfree hgen =>
          rcases hat with ⟨hnone, -⟩ | ⟨-, -, hg⟩
          · rw [hnone] at htaken
            nomatch htaken
          · exact .inl ⟨hfree, hgen.trans hg⟩

/-- A token stays stale until its slot was handed out 2^31 times. -/
theorem Reuses.stale (hs : s₀.Consistent) (hn : s₀.workers[n]? = some w₀)
    (hslot : w₀.conns.slots[t.index.toNat]? = some ⟨t.generation + 1, none⟩)
    (h : Reuses n t.index s₀ k s) (hk : k < 2 ^ 31) : s.find n t = none := by
  obtain ⟨-, w, slot, hw, hslot', hat⟩ := h.generation hs hn hslot
  rw [System.find, hw]
  show w.conns.get t = none
  cases hget : w.conns.get t with
  | none => rfl
  | some c =>
      rw [get_eq_some.mp hget] at hslot'
      obtain rfl := Option.some.inj hslot'
      rcases hat with ⟨hnone, -⟩ | ⟨-, hpos, hg⟩
      · nomatch hnone
      · -- the generation has gone round once
        have hzero : UInt32.ofNat (2 * k) = 0 := by
          have := hg.symm.trans (UInt32.add_zero _).symm
          exact (UInt32.add_right_inj _).mp this
        have hnat := congrArg UInt32.toNat hzero
        rw [UInt32.toNat_ofNat', UInt32.toNat_zero] at hnat
        omega

/-- A connection that a step removes leaves its slot free in the next
    generation. -/
theorem step_freed (hs : s.Consistent) (hstep : s.step a = some s') (hfind : s.find n t = some c)
    (hgone : s'.find n t = none) : ∃ w', s'.workers[n]? = some w' ∧
      w'.conns.slots[t.index.toNat]? = some ⟨t.generation + 1, none⟩ := by
  obtain ⟨w, hn, hget⟩ := Option.bind_eq_some_iff.mp hfind
  have hslot := get_eq_some.mp hget
  obtain ⟨w', slot', hn', hslot', hmoved⟩ := step_slotMoves hs hstep n t.index w _ hn hslot
  refine ⟨w', hn', ?_⟩
  rw [System.find, hn'] at hgone
  have hstale : w'.conns.get t = none := hgone
  generalize s.handsOut a n t.index = j at hmoved
  cases hmoved with
  | given hfree => nomatch hfree
  | kept hconn hgen =>
      obtain ⟨d, hd⟩ := Option.isSome_iff_exists.mp hconn
      have : w'.conns.get t = some d := by
        rw [get_eq_some, hslot']
        obtain ⟨g, k⟩ := slot'
        cases hd
        cases hgen
        rfl
      rw [hstale] at this
      nomatch this
  | freed _ hfree hgen =>
      obtain ⟨g, k⟩ := slot'
      cases hfree
      cases hgen
      exact hslot'

/-! ## The guarantee -/

/-- A handler leaves everybody alone but the connection it is for. -/
theorem Turned.find_other (hn : s.workers[n]? = some w) (hget : w.conns.get t = some c)
    (hturned : Turned w n t c waits h) {u : Token} (hne : (m, u) ≠ (n, t)) :
    (s.after n h).find m u = s.find m u := by
  by_cases hm : n = m
  · subst hm
    have hu : u ≠ t := fun heq => hne (by rw [heq])
    have hself : (s.after n h).workers[n]? = some h.worker :=
      List.getElem?_set_self (List.getElem?_eq_some_iff.mp hn).1
    rw [System.find, System.find, hself, hn]
    show h.worker.conns.get u = w.conns.get u
    obtain ⟨c', -, -, -, hput | hremove⟩ := hturned.conn
    · rw [hput, get_put hget, if_neg hu]
    · rw [get_remove hget hremove, if_neg hu]
  · rw [System.find, System.find]
    show (s.workers.set n h.worker)[m]?.bind _ = _
    rw [getElem?_set_ne hm]

theorem find_untaken (hn : s.workers[n]? = some w) (rest : List Reply) (m : Nat) (t : Token) :
    (s.untaken n w rest).find m t = s.find m t := by
  by_cases hm : n = m
  · subst hm
    rw [System.find, System.find, untaken_worker hn rest, hn]
    rfl
  · rw [System.find, System.find]
    show (s.workers.set n _)[m]?.bind _ = _
    rw [getElem?_set_ne hm]

/-- What holds of a state of the workers, with the names given so far. -/
structure Guarded (ids : List UInt64) (s : System) : Prop where
  /-- No two connections that were ever accepted share a name. -/
  names : ids.Nodup
  /-- The free list holds each vacant slot once and no live one, and `live`
      counts the occupied slots. -/
  slots : ∀ (n : Nat) (w : Worker), s.workers[n]? = some w → w.conns.free.Nodup ∧
    (∀ i : UInt32, i ∈ w.conns.free ↔
      ∃ slot : Slot, w.conns.slots[i.toNat]? = some slot ∧ slot.conn = none) ∧
    w.conns.live = w.conns.slots.countP (·.conn.isSome)
  /-- An answer carries the name of a connection that was accepted.  While that
      connection is open, the answer comes to the worker and the slot it asked
      from, and it waits. -/
  awaited : ∀ (n : Nat) (w : Worker) (reply : Reply) (rest : List Reply),
    s.workers[n]? = some w → w.taken = reply :: rest → reply.id ∈ ids ∧
    ∀ (m : Nat) (t : Token) (c : Connection), s.find m t = some c → c.id = reply.id →
      m = n ∧ t = reply.token ∧ c.state.awaiting = true
  /-- The answer goes to nobody else. -/
  others : ∀ (n : Nat) (w : Worker) (reply : Reply) (rest : List Reply) (calls : Calls)
    (s' : System),
    s.workers[n]? = some w → w.taken = reply :: rest → s.step (.deliver n calls) = some s' →
    ∀ (m : Nat) (t : Token), (∀ c, s.find m t = some c → c.id ≠ reply.id) → s'.find m t = s.find m t
  /-- Once the connection is gone its answer is dropped. -/
  dropped : ∀ (n : Nat) (w : Worker) (reply : Reply) (rest : List Reply) (calls : Calls),
    s.workers[n]? = some w → w.taken = reply :: rest →
    (∀ (m : Nat) (t : Token) (c : Connection), s.find m t = some c → c.id ≠ reply.id) →
    s.step (.deliver n calls) = some (s.untaken n w rest)
  /-- The token of a connection that is removed resolves to nothing until its
      slot was handed out 2^31 times. -/
  retired : ∀ (n : Nat) (t : Token) (c : Connection) (a : Action) (s' : System) (k : Nat)
    (s'' : System),
    s.find n t = some c → s.step a = some s' → s'.find n t = none →
    Reuses n t.index s' k s'' → k < 2 ^ 31 → s''.find n t = none

theorem deliver_others (hn : s.workers[n]? = some w) (htaken : w.taken = reply :: rest)
    (hstep : s.step (.deliver n calls) = some s')
    (hother : ∀ c, s.find m t = some c → c.id ≠ reply.id) : s'.find m t = s.find m t := by
  obtain ⟨w', reply', rest', hn', htaken', rfl⟩ := step_deliver.mp hstep
  rw [hn] at hn'
  obtain rfl := Option.some.inj hn'
  rw [htaken] at htaken'
  obtain ⟨rfl, rfl⟩ := List.cons.inj htaken'
  have hn₁ := untaken_worker hn rest
  rw [← find_untaken hn rest m t]
  by_cases hmatch : ∃ c, w.conns.get reply.token = some c ∧ c.id = reply.id
  · obtain ⟨c, hget, hid⟩ := hmatch
    refine (deliver_turned (w := { w with taken := rest }) hget hid n calls).find_other hn₁ hget ?_
    intro heq
    obtain ⟨rfl, rfl⟩ := Prod.mk.inj heq
    have hfind : s.find m reply.token = some c := by
      rw [System.find, hn]
      exact hget
    exact hother c hfind hid
  · have hdrop := deliver_dropped (w := { w with taken := rest })
      (fun c hget hid => hmatch ⟨c, hget, hid⟩) n calls
    rw [hdrop, after_same hn₁]

/-- **AN ANSWER ONLY REACHES THE CONNECTION THAT ASKED**: in every interleaving
    of accepts, closes, submissions and late answers over any number of workers,
    as long as fewer than 2^64 connections were accepted. -/
theorem answers_reach_askers {workers : Nat} {ids : List UInt64} {s : System}
    (h : Reached workers ids s) (hfew : ids.length < 2 ^ 64) : Guarded ids s where
  names := h.names_nodup hfew
  slots n w hn := by
    have hc := h.consistent n w hn
    refine ⟨hc.free_nodup, hc.free_iff, ?_⟩
    rw [hc.live_eq, connections, length_filterMap_eq_countP]
  awaited n w reply rest hn htaken := by
    have horder := h.orderly hfew
    have hletter : ((n, reply.token), reply.id) ∈ s.room.letters := by
      rw [(untaken_room hn htaken).2]
      exact Multiset.mem_cons_self _ _
    refine ⟨horder.letter_known hletter, fun m t c hfind hid => ?_⟩
    have hguest : s.room.guest (m, t) = some (reply.id, c.state.awaiting) := by
      rw [← hid]
      exact congrArg (Option.map _) hfind
    obtain ⟨hseat, hwaits⟩ := horder.awaited hletter hguest
    obtain ⟨rfl, rfl⟩ := Prod.mk.inj hseat
    exact ⟨rfl, rfl, hwaits⟩
  others n w reply rest calls s' hn htaken hstep m t hother := deliver_others hn htaken hstep hother
  dropped n w reply rest calls hn htaken hgone := by
    refine step_deliver.mpr ⟨w, reply, rest, hn, htaken, ?_⟩
    have hn₁ := untaken_worker hn rest
    have hnobody : ∀ c, w.conns.get reply.token = some c → c.id ≠ reply.id := fun c hget =>
      hgone n reply.token c (by rw [System.find, hn]; exact hget)
    have hdrop := deliver_dropped (w := { w with taken := rest }) hnobody n calls
    rw [hdrop, after_same hn₁]
  retired n t c a s' k s'' hfind hstep hgone hreuse hk := by
    obtain ⟨w', hn', hslot⟩ := step_freed h.consistent hstep hfind hgone
    exact hreuse.stale (step_simulates h.consistent hstep).2 hn' hslot hk

/-- A run of the system, with the names it gives. -/
def System.play (s : System) : List Action → Option (List UInt64 × System)
  | [] => some ([], s)
  | a :: rest => do
      let s' ← s.step a
      let (ids, last) ← s'.play rest
      return (ids ++ s.names a, last)

theorem Reached.play {new : List UInt64} {actions : List Action} (h : Reached workers ids s)
    (hplay : s.play actions = some (new, s')) : Reached workers (new ++ ids) s' := by
  induction actions generalizing s ids new with
  | nil =>
      obtain ⟨rfl, rfl⟩ := Prod.mk.inj (Option.some.inj hplay)
      exact h
  | cons a rest ih =>
      obtain ⟨s₁, hstep, hplay⟩ := Option.bind_eq_some_iff.mp hplay
      obtain ⟨⟨given, last⟩, hrest, hplay⟩ := Option.bind_eq_some_iff.mp hplay
      obtain ⟨rfl, rfl⟩ := Prod.mk.inj (Option.some.inj hplay)
      rw [append_assoc]
      exact ih (.step h hstep) hrest

/-- Whoever is found is a connection of that worker. -/
theorem mem_of_find (h : s.find n t = some c) :
    ∃ w, s.workers[n]? = some w ∧ c ∈ w.conns.connections := by
  obtain ⟨w, hn, hget⟩ := Option.bind_eq_some_iff.mp h
  exact ⟨w, hn, mem_filterMap.mpr ⟨_, mem_of_getElem? (get_eq_some.mp hget), rfl⟩⟩

/-- A hello and a request arrive on a slot in its first generation. -/
def asks (slot : UInt32) : Action :=
  .ready 0 ⟨.new slot 1, FLAG_READABLE⟩ [.data (helloBytes ++ authBytes)] ⟨[.took 9], true⟩

/-- Two connections ask, the first is closed and a third gets its slot, and then
    both answers come in. -/
def lateAnswer : List Action :=
  [.accept 0 3, .accept 0 4, asks 0, asks 1, .close 0 (.new 0 1), .accept 0 3,
    .answer 0 [.ready], .answer 0 [.ready], .take 0]

/-- The connection that was accepted last, in the slot of the first. -/
def latecomer : Connection := ⟨3, .new 0 3, 3, .new, .READABLE⟩

/-- The second connection, which asked and waits. -/
def patient : Connection :=
  ⟨4, .new 1 1, 2, { Conn.new with phase := .frames, awaiting := true }, .READABLE⟩

/-- The worker at the end of that run, with these replies to hand on. -/
def handingOn (taken : List Reply) : Worker :=
  ⟨⟨[⟨3, some latecomer⟩, ⟨1, some patient⟩], [], 2⟩, [], taken⟩

/-- The answer to the connection that is gone is dropped, though its slot is
    taken again; the other answer finds its connection waiting and leaves the
    third one alone. -/
theorem answers_reach_askers_late :
    let late : Reply := ⟨.new 0 1, 1, [.ready]⟩
    let kept : Reply := ⟨.new 1 1, 2, [.ready]⟩
    let s : System := ⟨4, [handingOn [late, kept]], []⟩
    let s' : System := ⟨4, [handingOn [kept]], []⟩
    (System.start 1).play lateAnswer = some ([3, 2, 1], s)
      ∧ s.step (.deliver 0 ⟨[], true⟩) = some s'
      ∧ (∀ m t c, s'.find m t = some c → c.id = 2 → c.state.awaiting = true)
      ∧ ∃ s'', s'.step (.deliver 0 ⟨[.took 5], true⟩) = some s''
        ∧ s''.find 0 (.new 1 1)
            = some { patient with state := { patient.state with awaiting := false } }
        ∧ s''.find 0 (.new 0 3) = some latecomer := by
  intro late kept s s'
  have hplay : (System.start 1).play lateAnswer = some ([3, 2, 1], s) := rfl
  have hreached : Reached 1 [3, 2, 1] s := Reached.start.play hplay
  have hfirst : ∀ m t c, s.find m t = some c → c.id ≠ late.id := by
    intro m t c hfind
    obtain ⟨w, hw, hmem⟩ := mem_of_find hfind
    obtain rfl : m = 0 := Nat.lt_one_iff.mp (List.getElem?_eq_some_iff.mp hw).1
    obtain rfl := Option.some.inj hw
    obtain rfl | rfl := mem_pair.mp (show c ∈ [latecomer, patient] from hmem) <;> decide
  have hdrop : s.step (.deliver 0 ⟨[], true⟩) = some s' :=
    (answers_reach_askers hreached (by decide)).dropped 0 _ late [kept] ⟨[], true⟩ rfl rfl hfirst
  have hguarded' := answers_reach_askers (hreached.step hdrop) (by decide)
  obtain ⟨s'', hstep⟩ : ∃ s'', s'.step (.deliver 0 ⟨[.took 5], true⟩) = some s'' := ⟨_, rfl⟩
  refine ⟨hplay, hdrop, fun m t c hfind hid => ?_, s'', hstep, ?_, ?_⟩
  · exact ((hguarded'.awaited 0 _ kept [] rfl rfl).2 m t c hfind hid).2.2
  · obtain rfl := Option.some.inj hstep
    decide +kernel
  · refine hguarded'.others 0 _ kept [] ⟨[.took 5], true⟩ s'' rfl rfl hstep 0 (.new 0 3)
      fun c hfind => ?_
    obtain rfl : latecomer = c := Option.some.inj hfind
    decide

end QuantyWorker
