import S3fs.ThreadPool

/-!
# No deadlock before `StopThreads`

Until `StopThreads` begins, and while every `CreateCurlHandle` has succeeded, a queued job
never leaves the pool stuck: some thread inside the pool's code can always take a step. Both
conditions are needed: `handle_failure_strands_job` strands a job once a handle fails, and
`stopThreads_deadlock` deadlocks once `StopThreads` has begun.

* `queued_job_can_move`: in every reachable state before `StopThreads`, with no failed
  `CreateCurlHandle` and a job in the queue, a thread that is not a client about to call
  `Instruct` can move.
-/

namespace S3fs.ThreadPoolMan

@[simp]
theorem Pool.move_lock (s : Pool) (t : Nat) (pc : Pc) : (s.move t pc).lock = s.lock := rfl

@[simp]
theorem Pool.move_stopper (s : Pool) (t : Nat) (pc : Pc) : (s.move t pc).stopper = s.stopper :=
  rfl

/-! ## The lock's owner is at a point that holds it -/

/-- The converse of `LockHeld`: whoever owns `thread_list_lock` is at a point that holds it. -/
structure LockOwned (s : Pool) : Prop where
  thread : ∀ t, s.lock = some (.thread t) → ∃ pc, s.threads[t]? = some pc ∧ pc.holdsLock = true
  stopper : s.lock = some .stopper → s.stopper.holdsLock = true

theorem LockOwned.step {s s' : Pool} (owned : LockOwned s) (step : Step s s') : LockOwned s' := by
  cases step with
  | @thread s₁ t pc pc' atT action =>
      rcases action.lock_cases with ⟨kept, unheld, -⟩ | ⟨-, taken, holds⟩ | ⟨-, -, released⟩
      · refine ⟨fun u owner => ?_, fun owner => ?_⟩
        · rw [Pool.move_lock, kept] at owner
          obtain ⟨pcu, atU, holdsU⟩ := owned.thread u owner
          have other : t ≠ u := by
            rintro rfl
            rw [atT] at atU
            cases atU
            rw [unheld] at holdsU
            cases holdsU
          exact ⟨pcu, by rw [Pool.move_threads, action.threads, getElem?_set_of_ne other, atU],
            holdsU⟩
        · rw [Pool.move_lock, kept] at owner
          rw [Pool.move_stopper, action.stopper]
          exact owned.stopper owner
      · refine ⟨fun u owner => ?_, fun owner => ?_⟩ <;> rw [Pool.move_lock, taken] at owner <;>
          cases owner
        exact ⟨pc', by rw [Pool.move_threads, action.threads,
          List.getElem?_set_self (List.getElem?_eq_some_iff.mp atT).1], holds⟩
      · exact ⟨fun u owner => (by rw [Pool.move_lock, released] at owner; cases owner),
          fun owner => by rw [Pool.move_lock, released] at owner; cases owner⟩
  | stop step =>
      cases step with
      | destroy idle =>
          refine ⟨owned.thread, fun owner => ?_⟩
          have holds := owned.stopper owner
          rw [idle] at holds
          cases holds
      | lock => exact ⟨fun u owner => (by cases owner), fun _ => rfl⟩
      | setExit | release | startJoin | join => exact ⟨owned.thread, fun _ => rfl⟩
      | finish => exact ⟨fun u owner => (by cases owner), fun owner => by cases owner⟩

theorem Reachable.lockOwned {s : Pool} (reachable : Reachable s) : LockOwned s := by
  induction reachable with
  | initial => exact ⟨fun _ owner => (by cases owner), fun owner => by cases owner⟩
  | step _ step inductionHypothesis => exact inductionHypothesis.step step

/-! ## Workers stay workers -/

/-- Where a worker's `SetInstruction` returns: into the job that called `Instruct`. -/
def Resume.isWorker : Resume → Bool
  | running _ => true
  | _ => false

/-- The program points of a worker: its loop, or `SetInstruction` called from the job it
runs. -/
def Pc.isWorker : Pc → Bool
  | idle => false
  | awaiting _ => false
  | setLock _ next => next.isWorker
  | setPush _ next => next.isWorker
  | setRelease _ next => next.isWorker
  | _ => true

@[simp]
theorem Resume.isWorker_pc (next : Resume) : next.pc.isWorker = next.isWorker := by
  cases next <;> rfl

theorem Action.worker {t : Nat} {s s' : Pool} {pc pc' : Pc} (action : Action t s pc pc' s')
    (worker : pc.isWorker = true) : pc'.isWorker = true := by
  cases action with
  | call => cases worker
  | awaitDone => cases worker
  | post _ next => exact (Resume.isWorker_pc next).trans worker
  | setLocked | push => exact worker
  | _ => rfl

/-- The first `workerCount` threads are workers. -/
def WorkersStay (s : Pool) : Prop :=
  ∀ w pc, w < s.workerCount → s.threads[w]? = some pc → pc.isWorker = true

theorem WorkersStay.step {s s' : Pool} (workers : WorkersStay s) (step : Step s s') :
    WorkersStay s' := by
  intro w pcw bound atW
  cases step with
  | @thread s₁ t pc pc' atT action =>
      change w < s₁.workerCount at bound
      rw [action.workerCount] at bound
      rw [Pool.move_threads, action.threads] at atW
      by_cases same : t = w
      · subst same
        rw [List.getElem?_set_self (List.getElem?_eq_some_iff.mp atT).1] at atW
        cases atW
        exact action.worker (workers t pc bound atT)
      · rw [getElem?_set_of_ne same] at atW
        exact workers w pcw bound atW
  | stop step =>
      rw [step.workerCount] at bound
      rw [step.threads] at atW
      exact workers w pcw bound atW

theorem Reachable.workersStay {s : Pool} (reachable : Reachable s) : WorkersStay s := by
  induction reachable with
  | initial count clients _ =>
      intro w pc bound atW
      simp only [Pool.initial] at bound atW
      rw [List.getElem?_append_left (by simpa using bound), List.getElem?_replicate] at atW
      split_ifs at atW
      cases atW
      rfl
  | step _ step inductionHypothesis => exact inductionHypothesis.step step

theorem Step.sizes {s s' : Pool} (step : Step s s') :
    s'.workerCount = s.workerCount ∧ s'.threads.length = s.threads.length := by
  cases step with
  | thread _ action =>
      exact ⟨action.workerCount, by rw [Pool.move_threads, List.length_set, action.threads]⟩
  | stop step => exact ⟨step.workerCount, by rw [step.threads]⟩

/-- A pool has a first worker. -/
theorem Reachable.first_worker {s : Pool} (reachable : Reachable s) :
    0 < s.workerCount ∧ ∃ pc, s.threads[0]? = some pc := by
  have positive : 0 < s.workerCount ∧ 0 < s.threads.length := by
    induction reachable with
    | initial count clients positive =>
        simp only [Pool.initial, List.length_append, List.length_replicate]
        omega
    | step _ step inductionHypothesis => rwa [step.sizes.1, step.sizes.2]
  exact ⟨positive.1, _, List.getElem?_eq_getElem positive.2⟩

/-- A thread leaves the loop of `Worker` on the exit flag, or when `CreateCurlHandle` fails. -/
theorem Action.exits {t : Nat} {s s' : Pool} {pc pc' : Pc} (action : Action t s pc pc' s')
    (exits : pc' = .exited) : s.isExit = true ∨ s'.handleFailures = s.handleFailures + 1 := by
  cases action with
  | loopExit isExit => exact .inl isExit
  | checkExitBreak isExit => exact .inl isExit
  | recreateFail => exact .inr rfl
  | post _ next => cases next <;> cases exits
  | _ => cases exits

/-- Before `StopThreads`, a thread leaves the loop only when its `CreateCurlHandle` fails. -/
theorem Reachable.handleFailed_of_exited {s : Pool} (reachable : Reachable s)
    (idle : s.stopper = .idle) {t : Nat} (exited : s.threads[t]? = some .exited) :
    0 < s.handleFailures := by
  induction reachable generalizing t with
  | initial count clients _ =>
      have member := List.getElem?_mem exited
      simp [Pool.initial] at member
  | step earlier step inductionHypothesis =>
      have wasIdle := step.stopper_idle idle
      cases step with
      | @thread s₁ u pc pc' atU action =>
          by_cases same : u = t
          · subst same
            rw [Pool.move_threads, action.threads,
              List.getElem?_set_self (List.getElem?_eq_some_iff.mp atU).1] at exited
            rcases action.exits (Option.some.inj exited) with isExit | failed
            · rw [(earlier.balanced wasIdle).running] at isExit
              cases isExit
            · show 0 < s₁.handleFailures
              omega
          · rw [Pool.move_threads, action.threads, getElem?_set_of_ne same] at exited
            exact Nat.lt_of_lt_of_le (inductionHypothesis wasIdle exited) action.handleFailures_le
      | stop step => cases step <;> cases idle

/-! ## Some thread can move -/

/-- A thread other than a client about to call `Instruct` can take a step. -/
def CanMove (s : Pool) : Prop :=
  ∃ t pc pc' s', s.threads[t]? = some pc ∧ pc ≠ .idle ∧ Action t s pc pc' s'

/-- A worker holding the lock to pop moves: it pops a job, or finds none. -/
theorem canMove_of_pop {s : Pool} {t : Nat} (atT : s.threads[t]? = some .pop) : CanMove s := by
  cases queue : s.queue with
  | nil => exact ⟨t, _, _, _, atT, Pc.noConfusion, .popEmpty s queue⟩
  | cons job rest => exact ⟨t, _, _, _, atT, Pc.noConfusion, .popJob s job rest queue⟩

/-- The lock's owner moves: it pops, or it appends. -/
theorem LockOwned.canMove {s : Pool} (owned : LockOwned s) (idle : s.stopper = .idle)
    {owner : Owner} (locked : s.lock = some owner) : CanMove s := by
  cases owner with
  | stopper =>
      have holds := owned.stopper locked
      rw [idle] at holds
      cases holds
  | thread t =>
      obtain ⟨pc, atT, holds⟩ := owned.thread t locked
      cases pc with
      | pop => exact canMove_of_pop atT
      | setPush job next => exact ⟨t, _, _, _, atT, Pc.noConfusion, .push s job next⟩
      | _ => cases holds

/-- Before `StopThreads`, a thread moves unless it is a client, waits for a job it awaits, has
left its loop, or waits for a permit none is left for: one waiting for the lock moves, or the
lock's owner does. -/
theorem canMove_of_at {s : Pool} (owned : LockOwned s) (idle : s.stopper = .idle)
    (running : s.isExit = false) {t : Nat} {pc : Pc} (atT : s.threads[t]? = some pc)
    (notIdle : pc ≠ .idle) (notAwaiting : ∀ job, pc ≠ .awaiting job) (alive : pc ≠ .exited)
    (permitted : pc = .waitPermit → 0 < s.permits) : CanMove s := by
  cases pc with
  | idle => exact absurd rfl notIdle
  | awaiting job => exact absurd rfl (notAwaiting job)
  | exited => exact absurd rfl alive
  | top => exact ⟨t, _, _, _, atT, Pc.noConfusion, .loop s running⟩
  | waitPermit => exact ⟨t, _, _, _, atT, Pc.noConfusion, .acquire s (permitted rfl)⟩
  | checkExit => exact ⟨t, _, _, _, atT, Pc.noConfusion, .checkExit s running⟩
  | recreate => exact ⟨t, _, _, _, atT, Pc.noConfusion, .recreate s⟩
  | waitLock =>
      cases locked : s.lock with
      | none => exact ⟨t, _, _, _, atT, Pc.noConfusion, .lockPop s locked⟩
      | some owner => exact owned.canMove idle locked
  | pop => exact canMove_of_pop atT
  | running job => exact ⟨t, _, _, _, atT, Pc.noConfusion, .finish s job⟩
  | releasing job => exact ⟨t, _, _, _, atT, Pc.noConfusion, .release s job⟩
  | setLock job next =>
      cases locked : s.lock with
      | none => exact ⟨t, _, _, _, atT, Pc.noConfusion, .setLocked s job next locked⟩
      | some owner => exact owned.canMove idle locked
  | setPush job next => exact ⟨t, _, _, _, atT, Pc.noConfusion, .push s job next⟩
  | setRelease job next => exact ⟨t, _, _, _, atT, Pc.noConfusion, .post s job next⟩

/-- Until `StopThreads` begins, and while every `CreateCurlHandle` has succeeded, a queued job
never leaves the pool stuck: some thread other than a client about to call `Instruct` can take
a step. The search starts at the first worker when a permit is left, and otherwise at the thread
that holds the job's permit or is still to release it; when that thread waits for the lock, the
lock's owner moves instead. -/
theorem queued_job_can_move {s : Pool} (reachable : Reachable s) (idle : s.stopper = .idle)
    (noFailure : s.handleFailures = 0) (queued : s.queue ≠ []) :
    ∃ t pc pc' s', s.threads[t]? = some pc ∧ pc ≠ .idle ∧ Action t s pc pc' s' := by
  obtain ⟨running, balance⟩ := reachable.balanced idle
  have owned := reachable.lockOwned
  by_cases permits : 0 < s.permits
  · obtain ⟨positive, pc, atZero⟩ := reachable.first_worker
    have worker := reachable.workersStay 0 pc positive atZero
    refine canMove_of_at owned idle running atZero (by rintro rfl; cases worker)
      (by rintro _ rfl; cases worker) (fun exited => ?_) fun _ => permits
    have failed := reachable.handleFailed_of_exited idle (exited ▸ atZero)
    omega
  · have pending : 0 < s.inflight ∨ 0 < s.posting := by
      have := List.length_pos.mpr queued
      omega
    obtain ⟨pc, member, flagged⟩ : ∃ pc ∈ s.threads, pc.holdsPermit = true ∨ pc.posting = true := by
      rcases pending with holding | posting
      · obtain ⟨pc, member, holds⟩ := List.countP_pos_iff.mp holding
        exact ⟨pc, member, .inl holds⟩
      · obtain ⟨pc, member, posts⟩ := List.countP_pos_iff.mp posting
        exact ⟨pc, member, .inr posts⟩
    obtain ⟨t, atT⟩ := List.mem_iff_getElem?.mp member
    have moving : pc ≠ .idle ∧ (∀ job, pc ≠ .awaiting job) ∧ pc ≠ .exited ∧ pc ≠ .waitPermit := by
      cases pc <;> simp_all [Pc.holdsPermit, Pc.posting]
    exact canMove_of_at owned idle running atT moving.1 moving.2.1 moving.2.2.1
      fun waiting => absurd waiting moving.2.2.2

/-- One worker and one client: the client's `Instruct` has appended job 0 and not yet released
its permit, and the worker waits for one; the client can move. -/
theorem queued_job_can_move_sample :
    ∃ s, Reachable s ∧ s.stopper = .idle ∧ s.handleFailures = 0 ∧ s.queue ≠ [] ∧
      ∃ t pc pc' s', s.threads[t]? = some pc ∧ pc ≠ .idle ∧ Action t s pc pc' s' := by
  have reachable :=
    ((((Reachable.initial 1 1 (by decide)).step
      (.thread (t := 1) rfl (.call _ false rfl))).step
      (.thread (t := 1) rfl (.setLocked _ _ _ rfl))).step
      (.thread (t := 1) rfl (.push _ _ _))).step
      (.thread (t := 0) rfl (.loop _ rfl))
  exact ⟨_, reachable, rfl, rfl, List.cons_ne_nil _ _,
    queued_job_can_move reachable rfl rfl (List.cons_ne_nil _ _)⟩

end S3fs.ThreadPoolMan
