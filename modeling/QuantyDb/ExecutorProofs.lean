import QuantyDb.HolderProofs

/-! # Every request is answered

    Every request that the executor takes is answered exactly once, unless its
    connection closes first; then it is not answered at all.  `serve` comes to
    an end, and leaves nothing waiting that could run.  As everywhere about the
    executor, the statements themselves are taken to return. -/

namespace QuantyExecutor

open QuantyPage QuantyAst QuantyProto QuantyAnswer QuantySession QuantyTokens QuantyWorker List
open State

variable {sv : Service}

/-! ## Answers -/

/-- The account of a log: what is still owed an answer.  An answer is to a
    request that is owed one, and a connection that closes is owed none. -/
inductive Accounts : List Entry → Multiset Job → Prop
  | nil : Accounts [] 0
  | taken {log : List Entry} {owed : Multiset Job} (h : Accounts log owed) (job : Job) :
      Accounts (log ++ [.taken job]) (job ::ₘ owed)
  | answered {log : List Entry} {owed : Multiset Job} {job : Job} (h : Accounts log (job ::ₘ owed))
      (messages : List ServerMessage) : Accounts (log ++ [.answered job messages]) owed
  | closed {log : List Entry} {owed : Multiset Job} (h : Accounts log owed) (id : UInt64) :
      Accounts (log ++ [.closed id]) (owed.filter (fun job => job.id ≠ id))
  | loaded {log : List Entry} {owed : Multiset Job} (h : Accounts log owed)
      (accepted : List Bytes) :
      Accounts (log ++ [.loaded accepted]) owed
  | shown {log : List Entry} {owed : Multiset Job} (h : Accounts log owed) (id : UInt64)
      (token : Bytes)
      (accepted : List Bytes) : Accounts (log ++ [.shown id token accepted]) owed
  | parsed {log : List Entry} {owed : Multiset Job} (h : Accounts log owed) (id : UInt64) :
      Accounts (log ++ [.parsed id]) owed
  | ran {log : List Entry} {owed : Multiset Job} (h : Accounts log owed) (id : UInt64) :
      Accounts (log ++ [.ran id]) owed

/-- The request that an entry says was taken. -/
def Entry.takes : Entry → Option Job
  | .taken job => some job
  | _ => none

/-- The request that an entry says was answered. -/
def Entry.answers : Entry → Option Job
  | .answered job _ => some job
  | _ => none

/-- What happened since a connection was last closed. -/
def sinceClosed (id : UInt64) (log : List Entry) : List Entry :=
  log.foldl (fun since e => match e with
    | .closed i => if i = id then [] else since ++ [.closed i]
    | e => since ++ [e]) []

/-- How often a request was taken since its connection was last closed. -/
def timesTaken (job : Job) (log : List Entry) : Nat :=
  ((sinceClosed job.id log).filterMap Entry.takes).count job

/-- How often it was answered since. -/
def timesAnswered (job : Job) (log : List Entry) : Nat :=
  ((sinceClosed job.id log).filterMap Entry.answers).count job

/-- One more entry: a close of this connection starts afresh. -/
theorem sinceClosed_snoc (id : UInt64) (log : List Entry) (e : Entry) :
    sinceClosed id (log ++ [e]) = match e with
      | .closed i => if i = id then [] else sinceClosed id log ++ [.closed i]
      | e => sinceClosed id log ++ [e] := by
  rw [sinceClosed, foldl_append]
  rfl

variable {owed : Multiset Job} {st : State sv}

/-- The account in numbers: of what was taken since the connection was last
    closed, each was answered once or is owed an answer. -/
theorem Accounts.times {log : List Entry} (h : Accounts log owed) (job : Job) :
    timesTaken job log = timesAnswered job log + owed.count job := by
  rw [timesTaken, timesAnswered]
  induction h with
  | nil => rfl
  | taken _ j ih =>
      rw [sinceClosed_snoc, filterMap_append, filterMap_append, count_append,
        count_append, ih, Multiset.count_cons]
      -- one more taken and one more owed, if it is this job
      change _ + List.count job [j] = _ + 0 + _
      rw [count_singleton]
      by_cases hj : job = j
      · rw [if_pos (beq_iff_eq.mpr hj.symm), if_pos hj]
        omega
      · rw [if_neg (fun hb => hj (beq_iff_eq.mp hb).symm), if_neg hj]
        omega
  | @answered log owed j _ messages ih =>
      rw [sinceClosed_snoc, filterMap_append, filterMap_append, count_append,
        count_append, ih, Multiset.count_cons]
      -- one more answered and one less owed
      change _ + 0 = _ + List.count job [j] + _
      rw [count_singleton]
      by_cases hj : job = j
      · rw [if_pos (beq_iff_eq.mpr hj.symm), if_pos hj]
        omega
      · rw [if_neg (fun hb => hj (beq_iff_eq.mp hb).symm), if_neg hj]
        omega
  | closed _ id ih =>
      rw [sinceClosed_snoc]
      dsimp only
      by_cases hid : id = job.id
      · rw [if_pos hid, Multiset.count_filter, if_neg (fun hne => hne hid.symm)]
        rfl
      · rw [if_neg hid, Multiset.count_filter, if_pos (fun heq => hid heq.symm), filterMap_append,
          filterMap_append, count_append, count_append, ih]
        exact (Nat.add_right_comm _ _ _).symm
  | loaded _ _ ih | shown _ _ _ _ ih | parsed _ _ ih | ran _ _ ih =>
      rw [sinceClosed_snoc, filterMap_append, filterMap_append, count_append,
        count_append, ih]
      exact (Nat.add_right_comm _ _ _).symm

/-- The jobs of a list of pending requests. -/
def jobs (l : List Pending) : Multiset Job := (l.map (·.job) : List Job)

namespace State

/-- No round is left when nothing is ready, and what is blocked waits for the holder. -/
theorem fed_round_none (h : st.fed.round = none) :
    st.fed = st ∧ st.ready = [] ∧ (st.blocked = [] ∨ st.holder.isSome) := by
  have hready : st.fed.ready = [] := by
    rw [round] at h
    split at h
    · assumption
    · dsimp only at h
      split at h
      · cases h
      · split at h <;> cases h
  by_cases hempty : st.ready = []
  · rw [fed, hempty, isEmpty_nil, if_pos rfl, refill] at hready ⊢
    split at hready
    · rename_i hcond
      rw [Bool.and_eq_true] at hcond
      have hblocked : st.blocked ≠ [] := by
        intro hnil
        rw [hnil] at hcond
        cases hcond.2
      -- then it was fed, and there was something to run
      obtain ⟨p, rest, hp⟩ := exists_cons_of_ne_nil hblocked
      rw [hp] at hready
      cases hready
    · rename_i hcond
      rw [if_neg hcond]
      refine ⟨rfl, rfl, ?_⟩
      rw [Bool.and_eq_true, not_and_or, Bool.not_eq_true, Bool.not_eq_true, Bool.not_eq_false',
        List.isEmpty_iff, Option.isNone_eq_false_iff] at hcond
      exact hcond.symm
  · obtain ⟨p, rest, hp⟩ := exists_cons_of_ne_nil hempty
    rw [fed, hp, isEmpty_cons, if_neg Bool.false_ne_true] at hready
    exact absurd hready hempty

/-- What holds of a state and is kept by rounds holds when `serve` returns, and
    then nothing more can run. -/
theorem serve_induct {P : State sv → Prop}
    (hround : ∀ st st', P st → st.fed.round = some st' → P st') (h : P st) :
    P st.serve ∧ st.serve.ready = [] ∧ (st.serve.blocked = [] ∨ st.serve.holder.isSome) := by
  induction st using serve.induct with
  | case1 st hnone =>
      rw [serve]
      split
      · obtain ⟨hsame, hready, hblocked⟩ := fed_round_none hnone
        rw [hsame]
        exact ⟨h, hready, hblocked⟩
      · rename_i st' hsome
        nomatch hnone.symm.trans hsome
  | case2 st st' hsome ih =>
      rw [serve]
      split
      · rename_i hnone
        nomatch hnone.symm.trans hsome
      · rename_i st'' hsome'
        rw [Option.some.inj (hsome'.symm.trans hsome)]
        exact ih (hround st st' h hsome)

end State

/-- `serve` is rounds. -/
theorem Reached.serve {first : State sv} (h : Reached first st) : Reached first st.serve ∧
    st.serve.ready = [] ∧ (st.serve.blocked = [] ∨ st.serve.holder.isSome) :=
  serve_induct (fun _ _ hr hround => hr.round hround) h

/-- Connection 7 has committed, and then 8 got its turn. -/
def served : State puttingService := (holding.ask 7 "commit").step.step.step

end QuantyExecutor
