import Mathlib.Data.List.Nodup

/-!
# The worker pool

`ThreadPoolMan` runs `count` worker threads over one job queue (`instruction_list`), guarded
by `thread_list_lock`, and one counting semaphore (`thpoolman_sem`) with a permit for every job
appended. `SetInstruction` appends a job under the lock and then releases a permit; a worker
takes a permit, checks the exit flag, re-creates its curl handle, pops a job under the lock,
runs it and releases the job's completion semaphore. `StopThreads`, run by `Destroy`, takes
the lock, sets the exit flag, releases a permit per worker and joins the workers one by one,
still holding the lock.

`Pool` is the state of the whole system: the shared data, the program point of every thread,
and ghost lists recording the history of every job; `Step` is one step of one thread.

* `jobs_dispatched_once`: along every interleaving, jobs are taken in the order they were
  appended, each by one worker, run at most once, and their completion semaphores released
  once each, only after the job returned, so `AwaitInstruct` returns only after its job ran;
* `permits_balance`: until `StopThreads` begins, the queued jobs are exactly the permits, the
  workers holding a permit, the appends whose permit is still to come, and the failed
  `CreateCurlHandle` calls: a worker whose handle fails leaves with the permit it took, and its
  job stays in the queue with no permit for it (`handle_failure_strands_job`);
* `stopThreads_deadlock`: a worker that took a job's permit just before the exit flag was set
  waits for the lock that `StopThreads` holds while joining it, forever;
* `lock_mutual_exclusion`: the program points that hold `thread_list_lock` agree with its one
  owner, so no two threads, nor a thread and `StopThreads`, are at them at once: a check of the
  model of the lock, on which the other results rely;
* `pop_finds_job`: until `StopThreads` begins, a worker that pops finds a job;
* `stopped_pool_drops_queued_jobs`: once `StopThreads` returns, no job is popped, run or
  completed again, and a client in `AwaitInstruct` for a job still queued waits forever.
-/

namespace S3fs.ThreadPoolMan

/-- Where a thread goes once `SetInstruction` is done: back to its client (`Instruct`), to
wait for the job (`AwaitInstruct`), or back into the job that called `Instruct`. -/
inductive Resume where
  | idle
  | awaiting (job : Nat)
  | running (job : Nat)
deriving DecidableEq, Repr

/-- The program points of a thread: a client, `SetInstruction`, or the loop of `Worker`. -/
inductive Pc where
  /-- A client thread outside the pool. -/
  | idle
  /-- `await_sem.acquire()` in `AwaitInstruct`. -/
  | awaiting (job : Nat)
  /-- `SetInstruction`, waiting for `thread_list_lock`. -/
  | setLock (job : Nat) (next : Resume)
  /-- `SetInstruction`, holding the lock, about to append. -/
  | setPush (job : Nat) (next : Resume)
  /-- `SetInstruction`, about to release a permit. -/
  | setRelease (job : Nat) (next : Resume)
  /-- `while(!psingleton->IsExit())` in `Worker`. -/
  | top
  /-- `thpoolman_sem.acquire()`. -/
  | waitPermit
  /-- `if(psingleton->IsExit()) break`, holding a permit. -/
  | checkExit
  /-- `s3fscurl.CreateCurlHandle(true)`. -/
  | recreate
  /-- Waiting for `thread_list_lock` to pop a job. -/
  | waitLock
  /-- Holding the lock, about to pop. -/
  | pop
  /-- `param.pfunc(s3fscurl, param.args)`. -/
  | running (job : Nat)
  /-- `param.psem->release()`. -/
  | releasing (job : Nat)
  /-- The worker left its loop. -/
  | exited
deriving DecidableEq, Repr

/-- The program point a thread resumes at. -/
def Resume.pc : Resume → Pc
  | idle => .idle
  | awaiting job => .awaiting job
  | running job => .running job

/-- The program points of the thread that runs `StopThreads`. -/
inductive StopPc where
  | idle
  /-- Waiting for `thread_list_lock`. -/
  | waitLock
  /-- Holding it, about to set the exit flag. -/
  | setExit
  /-- Releasing the permits, `left` still to release. -/
  | releasing (left : Nat)
  /-- Joining the worker `worker`, still holding the lock. -/
  | joining (worker : Nat)
  | done
deriving DecidableEq, Repr

/-- Who holds `thread_list_lock`. -/
inductive Owner where
  | thread (index : Nat)
  | stopper
deriving DecidableEq, Repr

/-- The state of the pool and of every thread; the last lists are ghost state. -/
structure Pool where
  /-- The program point of every thread; the first `workerCount` are the workers. -/
  threads : List Pc
  workerCount : Nat
  /-- `instruction_list`. -/
  queue : List Nat
  /-- The count of `thpoolman_sem`. -/
  permits : Nat
  isExit : Bool
  lock : Option Owner
  stopper : StopPc
  /-- The next fresh job. -/
  nextJob : Nat
  /-- The failures of `CreateCurlHandle` so far. -/
  handleFailures : Nat
  /-- The jobs in the order `SetInstruction` appended them. -/
  enqueued : List Nat
  /-- The jobs in the order workers popped them. -/
  dequeued : List Nat
  /-- The jobs whose function returned. -/
  finished : List Nat
  /-- The releases of completion semaphores. -/
  released : List Nat
  /-- The completions `AwaitInstruct` took. -/
  acquired : List Nat

namespace Pool

/-- The pool `ThreadPoolMan(count)` starts, with `clients` client threads. -/
def initial (count clients : Nat) : Pool where
  threads := List.replicate count .top ++ List.replicate clients .idle
  workerCount := count
  queue := []
  permits := 0
  isExit := false
  lock := none
  stopper := .idle
  nextJob := 0
  handleFailures := 0
  enqueued := []
  dequeued := []
  finished := []
  released := []
  acquired := []

/-- Thread `t` moves to `pc`. -/
def move (s : Pool) (t : Nat) (pc : Pc) : Pool :=
  { s with threads := s.threads.set t pc }

end Pool

/-- What thread `t` does to the shared state when it moves from one program point to the
next. -/
inductive Action (t : Nat) : Pool → Pc → Pc → Pool → Prop where
  | loop (s : Pool) : s.isExit = false → Action t s .top .waitPermit s
  | loopExit (s : Pool) : s.isExit = true → Action t s .top .exited s
  | acquire (s : Pool) : 0 < s.permits →
      Action t s .waitPermit .checkExit { s with permits := s.permits - 1 }
  | checkExit (s : Pool) : s.isExit = false → Action t s .checkExit .recreate s
  | checkExitBreak (s : Pool) : s.isExit = true → Action t s .checkExit .exited s
  | recreate (s : Pool) : Action t s .recreate .waitLock s
  | recreateFail (s : Pool) :
      Action t s .recreate .exited { s with handleFailures := s.handleFailures + 1 }
  | lockPop (s : Pool) : s.lock = none →
      Action t s .waitLock .pop { s with lock := some (.thread t) }
  | popEmpty (s : Pool) : s.queue = [] → Action t s .pop .top { s with lock := none }
  | popJob (s : Pool) (job : Nat) (rest : List Nat) : s.queue = job :: rest →
      Action t s .pop (.running job)
        { s with queue := rest, dequeued := s.dequeued ++ [job], lock := none }
  | finish (s : Pool) (job : Nat) :
      Action t s (.running job) (.releasing job) { s with finished := s.finished ++ [job] }
  | release (s : Pool) (job : Nat) :
      Action t s (.releasing job) .top { s with released := s.released ++ [job] }
  /-- A client calls `Instruct`, or `AwaitInstruct` when `await`, while the pool exists. -/
  | call (s : Pool) (await : Bool) : s.stopper = .idle →
      Action t s .idle
        (.setLock s.nextJob (if await then .awaiting s.nextJob else .idle))
        { s with nextJob := s.nextJob + 1 }
  /-- A running job calls `Instruct`. -/
  | nested (s : Pool) (job : Nat) : s.stopper = .idle →
      Action t s (.running job) (.setLock s.nextJob (.running job))
        { s with nextJob := s.nextJob + 1 }
  | setLocked (s : Pool) (job : Nat) (next : Resume) : s.lock = none →
      Action t s (.setLock job next) (.setPush job next) { s with lock := some (.thread t) }
  | push (s : Pool) (job : Nat) (next : Resume) :
      Action t s (.setPush job next) (.setRelease job next)
        { s with queue := s.queue ++ [job], enqueued := s.enqueued ++ [job], lock := none }
  | post (s : Pool) (job : Nat) (next : Resume) :
      Action t s (.setRelease job next) next.pc { s with permits := s.permits + 1 }
  | awaitDone (s : Pool) (job : Nat) : s.acquired.count job < s.released.count job →
      Action t s (.awaiting job) .idle { s with acquired := s.acquired ++ [job] }

/-- One step of `StopThreads`. -/
inductive StopStep : Pool → Pool → Prop where
  | destroy (s : Pool) : s.stopper = .idle → StopStep s { s with stopper := .waitLock }
  | lock (s : Pool) : s.stopper = .waitLock → s.lock = none →
      StopStep s { s with stopper := .setExit, lock := some .stopper }
  | setExit (s : Pool) : s.stopper = .setExit →
      StopStep s { s with stopper := .releasing s.workerCount, isExit := true }
  | release (s : Pool) (left : Nat) : s.stopper = .releasing (left + 1) →
      StopStep s { s with stopper := .releasing left, permits := s.permits + 1 }
  | startJoin (s : Pool) : s.stopper = .releasing 0 → StopStep s { s with stopper := .joining 0 }
  | join (s : Pool) (worker : Nat) : s.stopper = .joining worker → worker < s.workerCount →
      s.threads[worker]? = some .exited → StopStep s { s with stopper := .joining (worker + 1) }
  /-- `thread_list.clear()`, the drain of the semaphore, and the end of the lock guard. -/
  | finish (s : Pool) : s.stopper = .joining s.workerCount →
      StopStep s { s with stopper := .done, permits := 0, lock := none }

/-- One step of one thread of the system. -/
inductive Step : Pool → Pool → Prop where
  | thread {s s' : Pool} {t : Nat} {pc pc' : Pc} : s.threads[t]? = some pc →
      Action t s pc pc' s' → Step s (s'.move t pc')
  | stop {s s' : Pool} : StopStep s s' → Step s s'

/-- The states of a pool of at least one worker, after any interleaving. -/
inductive Reachable : Pool → Prop where
  | initial (count clients : Nat) : 0 < count → Reachable (Pool.initial count clients)
  | step {s s' : Pool} : Reachable s → Step s s' → Reachable s'

/-- The states reached from `s` by any number of steps. -/
inductive Steps : Pool → Pool → Prop where
  | refl (s : Pool) : Steps s s
  | tail {s s' s'' : Pool} : Steps s s' → Step s' s'' → Steps s s''

theorem Reachable.steps {s s' : Pool} (reachable : Reachable s) (steps : Steps s s') :
    Reachable s' := by
  induction steps with
  | refl => exact reachable
  | tail _ step inductionHypothesis => exact inductionHypothesis.step step

/-! ## Frame lemmas -/

/-- An action changes no program point: the moving thread's is set by `Step`. -/
theorem Action.threads {t : Nat} {s s' : Pool} {pc pc' : Pc} (action : Action t s pc pc' s') :
    s'.threads = s.threads := by
  cases action <;> rfl

theorem Action.workerCount {t : Nat} {s s' : Pool} {pc pc' : Pc} (action : Action t s pc pc' s') :
    s'.workerCount = s.workerCount := by
  cases action <;> rfl

theorem StopStep.threads {s s' : Pool} (step : StopStep s s') : s'.threads = s.threads := by
  cases step <;> rfl

@[simp]
theorem Pool.move_threads (s : Pool) (t : Nat) (pc : Pc) :
    (s.move t pc).threads = s.threads.set t pc := rfl

theorem getElem?_set_of_ne {threads : List Pc} {t u : Nat} (other : t ≠ u) (pc : Pc) :
    (threads.set t pc)[u]? = threads[u]? := by
  rw [List.getElem?_set]
  simp [other]

theorem Action.stopper {t : Nat} {s s' : Pool} {pc pc' : Pc} (action : Action t s pc pc' s') :
    s'.stopper = s.stopper := by
  cases action <;> rfl

/-- The program point of a thread changes only by a step of that thread. -/
theorem Step.action_of_ne {s s' : Pool} {t : Nat} {pc pc' : Pc} (step : Step s s')
    (before : s.threads[t]? = some pc) (after : s'.threads[t]? = some pc') (changed : pc ≠ pc') :
    ∃ s₁, Action t s pc pc' s₁ := by
  cases step with
  | @thread s₁ u pcu pcu' atU action =>
      by_cases same : u = t
      · subst same
        rw [before] at atU
        cases atU
        have bound := (List.getElem?_eq_some_iff.mp before).1
        simp only [Pool.move_threads, action.threads, List.getElem?_set_self bound] at after
        cases after
        exact ⟨s₁, action⟩
      · rw [Pool.move_threads, action.threads, getElem?_set_of_ne same, before] at after
        exact absurd (Option.some.inj after) changed
  | stop step =>
      rw [step.threads, before] at after
      exact absurd (Option.some.inj after) changed

/-! ## The lock has one owner -/

/-- The program points at which a thread holds `thread_list_lock`. -/
def Pc.holdsLock : Pc → Bool
  | pop => true
  | setPush _ _ => true
  | _ => false

/-- The program points at which `StopThreads` holds it. -/
def StopPc.holdsLock : StopPc → Bool
  | setExit => true
  | releasing _ => true
  | joining _ => true
  | _ => false

/-- Whoever is at a program point that holds the lock owns it. -/
structure LockHeld (s : Pool) : Prop where
  threadHolds : ∀ t pc, s.threads[t]? = some pc → pc.holdsLock = true → s.lock = some (.thread t)
  stopperHolds : s.stopper.holdsLock = true → s.lock = some .stopper

/-- What an action does with the lock: nothing, take it when it is free, or give it up. -/
theorem Action.lock_cases {t : Nat} {s s' : Pool} {pc pc' : Pc} (action : Action t s pc pc' s') :
    (s'.lock = s.lock ∧ pc.holdsLock = false ∧ pc'.holdsLock = false) ∨
      (s.lock = none ∧ s'.lock = some (.thread t) ∧ pc'.holdsLock = true) ∨
      (pc.holdsLock = true ∧ pc'.holdsLock = false ∧ s'.lock = none) := by
  cases action with
  | lockPop free => exact .inr (.inl ⟨free, rfl, rfl⟩)
  | setLocked _ _ free => exact .inr (.inl ⟨free, rfl, rfl⟩)
  | popEmpty => exact .inr (.inr ⟨rfl, rfl, rfl⟩)
  | popJob => exact .inr (.inr ⟨rfl, rfl, rfl⟩)
  | push => exact .inr (.inr ⟨rfl, rfl, rfl⟩)
  | post _ next => cases next <;> exact .inl ⟨rfl, rfl, rfl⟩
  | call await _ => cases await <;> exact .inl ⟨rfl, rfl, rfl⟩
  | _ => exact .inl ⟨rfl, rfl, rfl⟩

theorem LockHeld.step {s s' : Pool} (held : LockHeld s) (step : Step s s') : LockHeld s' := by
  cases step with
  | @thread s₁ t pc pc' atT action =>
      have bound := (List.getElem?_eq_some_iff.mp atT).1
      refine ⟨fun u pcu atU holds => ?_, fun holds => ?_⟩
      · rw [Pool.move_threads, action.threads] at atU
        by_cases same : t = u
        · subst same
          rw [List.getElem?_set_self bound] at atU
          cases atU
          rcases action.lock_cases with ⟨-, -, unheld⟩ | ⟨-, taken, -⟩ | ⟨-, unheld, -⟩
          · rw [unheld] at holds; cases holds
          · exact taken
          · rw [unheld] at holds; cases holds
        · rw [getElem?_set_of_ne same] at atU
          have owner := held.threadHolds u pcu atU holds
          rcases action.lock_cases with ⟨kept, -⟩ | ⟨free, -⟩ | ⟨heldBefore, -⟩
          · exact kept.trans owner
          · rw [free] at owner; cases owner
          · rw [held.threadHolds t pc atT heldBefore] at owner
            exact absurd (Owner.thread.inj (Option.some.inj owner)) same
      · rw [Pool.move, action.stopper] at holds
        have owner := held.stopperHolds holds
        rcases action.lock_cases with ⟨kept, -⟩ | ⟨free, -⟩ | ⟨heldBefore, -⟩
        · exact kept.trans owner
        · rw [free] at owner; cases owner
        · rw [held.threadHolds t pc atT heldBefore] at owner; cases owner
  | stop step =>
      cases step with
      | destroy idle =>
          exact ⟨held.threadHolds, fun holds => by cases holds⟩
      | lock _ free =>
          refine ⟨fun u pcu atU holds => ?_, fun _ => rfl⟩
          rw [held.threadHolds u pcu atU holds] at free; cases free
      | setExit holding | release _ holding | startJoin holding | join _ holding =>
          exact ⟨held.threadHolds, fun _ => held.stopperHolds (by rw [holding]; rfl)⟩
      | finish atJoin =>
          refine ⟨fun u pcu atU holds => ?_, fun holds => by cases holds⟩
          have owner := held.threadHolds u pcu atU holds
          rw [held.stopperHolds (by rw [atJoin]; rfl)] at owner; cases owner

theorem Reachable.lockHeld {s : Pool} (reachable : Reachable s) : LockHeld s := by
  induction reachable with
  | initial count clients _ =>
      refine ⟨fun t pc atT holds => ?_, fun holds => by cases holds⟩
      have member := List.getElem?_mem atT
      simp only [Pool.initial, List.mem_append, List.mem_replicate] at member
      rcases member with ⟨-, rfl⟩ | ⟨-, rfl⟩ <;> cases holds
  | step _ step inductionHypothesis => exact inductionHypothesis.step step

/-! ## `StopThreads` joins a worker that waits for its lock -/

/-- `StopThreads` joins worker `worker` while holding the lock that worker is waiting for. -/
def JoinsWaitingWorker (worker : Nat) (s : Pool) : Prop :=
  s.stopper = .joining worker ∧ s.lock = some .stopper ∧ s.threads[worker]? = some .waitLock ∧
    worker < s.workerCount

/-- No step leaves such a state: the worker cannot take the lock, so it never exits, so the
join never returns. -/
theorem JoinsWaitingWorker.step {worker : Nat} {s s' : Pool} (held : LockHeld s)
    (stuck : JoinsWaitingWorker worker s) (step : Step s s') : JoinsWaitingWorker worker s' := by
  obtain ⟨joining, locked, waiting, bound⟩ := stuck
  cases step with
  | @thread s₁ t pc pc' atT action =>
      by_cases same : t = worker
      · subst same
        rw [waiting] at atT
        cases atT
        cases action with
        | lockPop free => rw [locked] at free; cases free
      · refine ⟨by rw [Pool.move, action.stopper, joining], ?_,
          by rw [Pool.move_threads, action.threads, getElem?_set_of_ne same, waiting],
          by rw [Pool.move, action.workerCount]; exact bound⟩
        rcases action.lock_cases with ⟨kept, -⟩ | ⟨free, -⟩ | ⟨holds, -⟩
        · exact kept.trans locked
        · rw [locked] at free; cases free
        · rw [held.threadHolds t pc atT holds] at locked; cases locked
  | stop step =>
      cases step with
      | destroy before | lock before | setExit before | release _ before | startJoin before =>
          rw [joining] at before; cases before
      | join other atJoin _ exited =>
          rw [joining] at atJoin
          cases atJoin
          rw [waiting] at exited; cases exited
      | finish atJoin =>
          have same := StopPc.joining.inj (joining.symm.trans atJoin)
          omega

theorem JoinsWaitingWorker.steps {worker : Nat} {s s' : Pool} (reachable : Reachable s)
    (stuck : JoinsWaitingWorker worker s) (steps : Steps s s') : JoinsWaitingWorker worker s' := by
  induction steps with
  | refl => exact stuck
  | tail earlier step inductionHypothesis =>
      exact inductionHypothesis.step (reachable.steps earlier).lockHeld step

/-- One worker and one client: the client's `Instruct` appends job 0 and releases its permit;
the worker takes the permit, passes the exit check, re-creates its handle and waits for the
lock; `Destroy` then takes the lock, sets the exit flag, releases a permit and joins the
worker, which waits for the lock from then on. -/
theorem stopThreads_deadlock :
    ∃ s, Reachable s ∧ ∀ s', Steps s s' →
      s'.stopper = .joining 0 ∧ s'.lock = some .stopper ∧ s'.threads[0]? = some .waitLock := by
  have reachable :=
    (((((((((((((Reachable.initial 1 1 (by decide)).step
      (.thread (t := 1) rfl (.call _ false rfl))).step
      (.thread (t := 1) rfl (.setLocked _ _ _ rfl))).step
      (.thread (t := 1) rfl (.push _ _ _))).step
      (.thread (t := 1) rfl (.post _ _ _))).step
      (.thread (t := 0) rfl (.loop _ rfl))).step
      (.thread (t := 0) rfl (.acquire _ (by decide)))).step
      (.thread (t := 0) rfl (.checkExit _ rfl))).step
      (.thread (t := 0) rfl (.recreate _))).step
      (.stop (.destroy _ rfl))).step
      (.stop (.lock _ rfl rfl))).step
      (.stop (.setExit _ rfl))).step
      (.stop (.release _ 0 rfl))).step
      (.stop (.startJoin _ rfl))
  refine ⟨_, reachable, fun s' steps => ?_⟩
  obtain ⟨joining, locked, waiting, -⟩ :=
    JoinsWaitingWorker.steps reachable ⟨rfl, rfl, rfl, by decide⟩ steps
  exact ⟨joining, locked, waiting⟩

/-! ## Where every job is -/

/-- The job a thread is appending, from the moment `SetInstruction` has it. -/
def Pc.pending? : Pc → Option Nat
  | setLock job _ => some job
  | setPush job _ => some job
  | _ => none

/-- The job a thread resumes inside. -/
def Resume.running? : Resume → Option Nat
  | running job => some job
  | _ => none

/-- The job whose function a thread is inside, also while that function calls `Instruct`. -/
def Pc.running? : Pc → Option Nat
  | running job => some job
  | setLock _ next => next.running?
  | setPush _ next => next.running?
  | setRelease _ next => next.running?
  | _ => none

/-- The job whose completion semaphore a worker is about to release. -/
def Pc.releasing? : Pc → Option Nat
  | releasing job => some job
  | _ => none

@[simp]
theorem Resume.running?_idle : Resume.idle.running? = none := rfl

@[simp]
theorem Resume.running?_awaiting (job : Nat) : (Resume.awaiting job).running? = none := rfl

@[simp]
theorem Resume.running?_running (job : Nat) : (Resume.running job).running? = some job := rfl

@[simp]
theorem Resume.running?_pc (next : Resume) : next.pc.running? = next.running? := by
  cases next <;> rfl

@[simp]
theorem Resume.pending?_pc (next : Resume) : next.pc.pending? = none := by
  cases next <;> rfl

@[simp]
theorem Resume.releasing?_pc (next : Resume) : next.pc.releasing? = none := by
  cases next <;> rfl

namespace Pool

def pendingJobs (s : Pool) : List Nat := s.threads.filterMap Pc.pending?

def runningJobs (s : Pool) : List Nat := s.threads.filterMap Pc.running?

def releasingJobs (s : Pool) : List Nat := s.threads.filterMap Pc.releasing?

end Pool

theorem filterMap_cons_toList {α β : Type} (f : α → Option β) (a : α) (l : List α) :
    (a :: l).filterMap f = (f a).toList ++ l.filterMap f := by
  cases h : f a <;> simp [List.filterMap_cons, h]

/-- Moving one thread changes the jobs the threads hold by that thread's job only. -/
theorem count_filterMap_set {α : Type} (f : α → Option Nat) {threads : List α} {t : Nat} {pc : α}
    (atT : threads[t]? = some pc) (pc' : α) (job : Nat) :
    ((threads.set t pc').filterMap f).count job + (f pc).toList.count job =
      (threads.filterMap f).count job + (f pc').toList.count job := by
  induction threads generalizing t with
  | nil => cases atT
  | cons head rest inductionHypothesis =>
      cases t with
      | zero =>
          rw [List.getElem?_cons_zero] at atT
          cases Option.some.inj atT
          simp only [List.set_cons_zero, filterMap_cons_toList, List.count_append]
          omega
      | succ t =>
          rw [List.getElem?_cons_succ] at atT
          have later := inductionHypothesis atT
          simp only [List.set_cons_succ, filterMap_cons_toList, List.count_append]
          omega

theorem count_singleton_cases (job other : Nat) :
    [other].count job = 0 ∨ (job = other ∧ [other].count job = 1) := by
  by_cases same : job = other
  · exact .inr ⟨same, same ▸ List.count_singleton_self job⟩
  · exact .inl (List.count_eq_zero.mpr (by simpa using same))

/-- The queue is the appended jobs not yet popped. -/
theorem Action.fifo {t : Nat} {s s' : Pool} {pc pc' : Pc} (action : Action t s pc pc' s')
    (fifo : s.dequeued ++ s.queue = s.enqueued) : s'.dequeued ++ s'.queue = s'.enqueued := by
  cases action with
  | popJob job rest queued =>
      show s.dequeued ++ [job] ++ rest = s.enqueued
      rw [← fifo, queued]
      simp
  | push job next =>
      show s.dequeued ++ (s.queue ++ [job]) = s.enqueued ++ [job]
      rw [← fifo, List.append_assoc]
  | _ => exact fifo

/-- Every job has one place: appended by a thread, in the queue, run by a thread, released by a
thread, or released; the ghost lists agree with that. -/
structure Accounting (s : Pool) : Prop where
  fifo : s.dequeued ++ s.queue = s.enqueued
  fresh : ∀ job, s.pendingJobs.count job + s.enqueued.count job ≤ 1
  bounded : ∀ job, s.nextJob ≤ job → s.pendingJobs.count job + s.enqueued.count job = 0
  started : ∀ job, s.dequeued.count job = s.runningJobs.count job + s.finished.count job
  completed : ∀ job, s.finished.count job = s.releasingJobs.count job + s.released.count job

theorem Accounting.initial (count clients : Nat) : Accounting (Pool.initial count clients) := by
  have empty : ∀ f : Pc → Option Nat, f .top = none → f .idle = none →
      (Pool.initial count clients).threads.filterMap f = [] := by
    intro f top idle
    simp [Pool.initial, List.filterMap_append, List.filterMap_replicate, top, idle]
  refine ⟨rfl, fun job => ?_, fun job _ => ?_, fun job => ?_, fun job => ?_⟩ <;>
    simp only [Pool.pendingJobs, Pool.runningJobs, Pool.releasingJobs, empty Pc.pending? rfl rfl,
      empty Pc.running? rfl rfl, empty Pc.releasing? rfl rfl] <;> simp [Pool.initial]

theorem filterMap_set_of_eq {α β : Type} (f : α → Option β) {threads : List α} {t : Nat}
    {pc pc' : α} (atT : threads[t]? = some pc) (same : f pc' = f pc) :
    (threads.set t pc').filterMap f = threads.filterMap f := by
  induction threads generalizing t with
  | nil => cases atT
  | cons head rest inductionHypothesis =>
      cases t with
      | zero =>
          rw [List.getElem?_cons_zero] at atT
          cases Option.some.inj atT
          simp only [List.set_cons_zero, filterMap_cons_toList, same]
      | succ t =>
          rw [List.getElem?_cons_succ] at atT
          simp only [List.set_cons_succ, filterMap_cons_toList, inductionHypothesis atT]

/-- A move that takes no job from one place to another keeps the accounting. -/
theorem Accounting.move_quiet {s : Pool} (acc : Accounting s) {t : Nat} {pc pc' : Pc}
    (atT : s.threads[t]? = some pc) (pending : pc'.pending? = pc.pending?)
    (running : pc'.running? = pc.running?) (releasing : pc'.releasing? = pc.releasing?) :
    Accounting (s.move t pc') := by
  have kept : (s.move t pc').pendingJobs = s.pendingJobs ∧
      (s.move t pc').runningJobs = s.runningJobs ∧
      (s.move t pc').releasingJobs = s.releasingJobs :=
    ⟨filterMap_set_of_eq _ atT pending, filterMap_set_of_eq _ atT running,
      filterMap_set_of_eq _ atT releasing⟩
  obtain ⟨fifo, fresh, bounded, started, completed⟩ := acc
  exact ⟨fifo, kept.1 ▸ fresh, kept.1 ▸ bounded, kept.2.1 ▸ started, kept.2.2 ▸ completed⟩

theorem Accounting.step {s s' : Pool} (acc : Accounting s) (step : Step s s') : Accounting s' := by
  obtain ⟨fifo, fresh, bounded, started, completed⟩ := acc
  cases step with
  | @thread s₁ t pc pc' atT action =>
      have fifo' := action.fifo fifo
      have pending := count_filterMap_set Pc.pending? atT pc'
      have running := count_filterMap_set Pc.running? atT pc'
      have releasing := count_filterMap_set Pc.releasing? atT pc'
      cases action with
      | popJob _ _ _ | finish _ | release _ | call _ _ | nested _ _ | push _ _ =>
          refine ⟨fifo', fun x => ?_, fun x above => ?_, fun x => ?_, fun x => ?_⟩
          all_goals
            have := pending x; have := running x; have := releasing x
            have := fresh x; have := bounded x; have := started x; have := completed x
            have := count_singleton_cases x s.nextJob
            clear fifo fifo' fresh bounded started completed atT pending running releasing
            simp only [Pool.pendingJobs, Pool.runningJobs, Pool.releasingJobs, Pool.move,
              Pc.pending?, Pc.running?, Pc.releasing?, Resume.running?_idle,
              Resume.running?_awaiting, Resume.running?_running, apply_ite Resume.running?,
              ite_self, Option.toList, List.count_append, List.count_nil] at *
            omega
      | post job next =>
          apply Accounting.move_quiet
          exacts [⟨fifo, fresh, bounded, started, completed⟩, atT, Resume.pending?_pc next,
            Resume.running?_pc next, Resume.releasing?_pc next]
      | _ =>
          apply Accounting.move_quiet
          exacts [⟨fifo, fresh, bounded, started, completed⟩, atT, rfl, rfl, rfl]
  | stop step =>
      cases step <;> exact ⟨fifo, fresh, bounded, started, completed⟩

theorem Reachable.accounting {s : Pool} (reachable : Reachable s) : Accounting s := by
  induction reachable with
  | initial count clients _ => exact Accounting.initial count clients
  | step _ step inductionHypothesis => exact inductionHypothesis.step step

theorem mem_releasingJobs {s : Pool} {job : Nat} (member : job ∈ s.releasingJobs) :
    ∃ t : Nat, s.threads[t]? = some (Pc.releasing job) := by
  obtain ⟨pc, atPc, releasing⟩ := List.mem_filterMap.mp member
  cases pc <;> cases releasing
  exact List.mem_iff_getElem?.mp atPc

/-- Along every interleaving the queue is first in, first out; no job is popped twice; at any
time a job is run by at most one worker, and never again once its function returned; only
popped jobs run; a job's completion semaphore is released once at most, only after its
function returned, and every finished job's release is done or about to be; and a client
leaves `AwaitInstruct` only once its job finished. -/
theorem jobs_dispatched_once {s : Pool} (reachable : Reachable s) :
    s.dequeued ++ s.queue = s.enqueued ∧ s.dequeued.Nodup ∧
      (s.runningJobs ++ s.finished).Nodup ∧ (∀ job ∈ s.finished, job ∈ s.dequeued) ∧
      s.released.Nodup ∧ (∀ job ∈ s.released, job ∈ s.finished) ∧
      (∀ job ∈ s.finished, job ∈ s.released ∨ ∃ t : Nat, s.threads[t]? = some (Pc.releasing job)) ∧
      ∀ (s' : Pool) (t job : Nat), Step s s' → s.threads[t]? = some (Pc.awaiting job) →
        s'.threads[t]? = some Pc.idle → job ∈ s.finished := by
  obtain ⟨fifo, fresh, -, started, completed⟩ := reachable.accounting
  have queued (job : Nat) : s.dequeued.count job + s.queue.count job = s.enqueued.count job := by
    rw [← fifo, List.count_append]
  have released (job : Nat) (member : job ∈ s.released) : job ∈ s.finished := by
    have := completed job
    have := List.count_pos_iff.mpr member
    exact List.count_pos_iff.mp (by omega)
  refine ⟨fifo, List.nodup_iff_count_le_one.mpr fun job => ?_,
    List.nodup_iff_count_le_one.mpr fun job => ?_, fun job member => ?_,
    List.nodup_iff_count_le_one.mpr fun job => ?_, released, fun job member => ?_,
    fun s' t job step waiting done => ?_⟩
  · have := fresh job; have := queued job
    omega
  · have := fresh job; have := queued job; have := started job
    rw [List.count_append]
    omega
  · have := started job
    have := List.count_pos_iff.mpr member
    exact List.count_pos_iff.mp (by omega)
  · have := fresh job; have := queued job; have := started job; have := completed job
    omega
  · have := completed job
    have := List.count_pos_iff.mpr member
    by_cases releasing : 0 < s.releasingJobs.count job
    · exact .inr (mem_releasingJobs (List.count_pos_iff.mp releasing))
    · exact .inl (List.count_pos_iff.mp (by omega))
  · obtain ⟨s₁, action⟩ := step.action_of_ne waiting done Pc.noConfusion
    cases action with
    | awaitDone more => exact released job (List.count_pos_iff.mp (by omega))

/-- Two workers and one client. The client's `Instruct` appends jobs 0 and 1 and releases their
permits; worker 0 pops job 0, runs it and releases its completion; worker 1 pops job 1 and runs
it; the client appends job 2 and releases its permit, then appends job 3. -/
theorem reachable_busy :
    ∃ s, Reachable s ∧ s.stopper = .idle ∧ s.threads = [.top, .running 1, .setRelease 3 .idle] ∧
      s.queue = [2, 3] ∧ s.finished = [0] ∧ s.released = [0] ∧ s.permits = 1 := by
  have posted :=
    ((((((((Reachable.initial 2 1 (by decide)).step
      (.thread (t := 2) rfl (.call _ false rfl))).step
      (.thread (t := 2) rfl (.setLocked _ _ _ rfl))).step
      (.thread (t := 2) rfl (.push _ _ _))).step
      (.thread (t := 2) rfl (.post _ _ _))).step
      (.thread (t := 2) rfl (.call _ false rfl))).step
      (.thread (t := 2) rfl (.setLocked _ _ _ rfl))).step
      (.thread (t := 2) rfl (.push _ _ _))).step
      (.thread (t := 2) rfl (.post _ _ _))
  have ranFirst :=
    (((((((posted.step
      (.thread (t := 0) rfl (.loop _ rfl))).step
      (.thread (t := 0) rfl (.acquire _ (by decide)))).step
      (.thread (t := 0) rfl (.checkExit _ rfl))).step
      (.thread (t := 0) rfl (.recreate _))).step
      (.thread (t := 0) rfl (.lockPop _ rfl))).step
      (.thread (t := 0) rfl (.popJob _ 0 [1] rfl))).step
      (.thread (t := 0) rfl (.finish _ 0))).step
      (.thread (t := 0) rfl (.release _ 0))
  have runsSecond :=
    (((((ranFirst.step
      (.thread (t := 1) rfl (.loop _ rfl))).step
      (.thread (t := 1) rfl (.acquire _ (by decide)))).step
      (.thread (t := 1) rfl (.checkExit _ rfl))).step
      (.thread (t := 1) rfl (.recreate _))).step
      (.thread (t := 1) rfl (.lockPop _ rfl))).step
      (.thread (t := 1) rfl (.popJob _ 1 [] rfl))
  have reachable :=
    ((((((runsSecond.step
      (.thread (t := 2) rfl (.call _ false rfl))).step
      (.thread (t := 2) rfl (.setLocked _ _ _ rfl))).step
      (.thread (t := 2) rfl (.push _ _ _))).step
      (.thread (t := 2) rfl (.post _ _ _))).step
      (.thread (t := 2) rfl (.call _ false rfl))).step
      (.thread (t := 2) rfl (.setLocked _ _ _ rfl))).step
      (.thread (t := 2) rfl (.push _ _ _))
  exact ⟨_, reachable, rfl, rfl, rfl, rfl, rfl, rfl⟩

theorem jobs_dispatched_once_busy :
    ∃ s, Reachable s ∧ s.queue = [2, 3] ∧ s.runningJobs = [1] ∧ s.finished = [0] ∧
      s.dequeued ++ s.queue = s.enqueued ∧ s.dequeued.Nodup ∧
      (s.runningJobs ++ s.finished).Nodup ∧ (∀ job ∈ s.finished, job ∈ s.dequeued) ∧
      s.released.Nodup ∧ (∀ job ∈ s.released, job ∈ s.finished) ∧
      (∀ job ∈ s.finished, job ∈ s.released ∨ ∃ t : Nat, s.threads[t]? = some (Pc.releasing job)) ∧
      ∀ (s' : Pool) (t job : Nat), Step s s' → s.threads[t]? = some (Pc.awaiting job) →
        s'.threads[t]? = some Pc.idle → job ∈ s.finished := by
  obtain ⟨s, reachable, -, threads, queued, finished, -⟩ := reachable_busy
  exact ⟨s, reachable, queued, by rw [Pool.runningJobs, threads]; rfl, finished,
    jobs_dispatched_once reachable⟩

/-! ## Permits and queued jobs -/

/-- The program points at which a worker holds a permit it took and has not yet popped. -/
def Pc.holdsPermit : Pc → Bool
  | checkExit => true
  | recreate => true
  | waitLock => true
  | pop => true
  | _ => false

/-- The program point at which `SetInstruction` has appended its job but not released its
permit. -/
def Pc.posting : Pc → Bool
  | setRelease _ _ => true
  | _ => false

@[simp]
theorem Resume.holdsPermit_pc (next : Resume) : next.pc.holdsPermit = false := by
  cases next <;> rfl

@[simp]
theorem Resume.posting_pc (next : Resume) : next.pc.posting = false := by
  cases next <;> rfl

namespace Pool

/-- The workers holding a permit they have not used to pop. -/
def inflight (s : Pool) : Nat := s.threads.countP Pc.holdsPermit

/-- The appends whose permit is still to be released. -/
def posting (s : Pool) : Nat := s.threads.countP Pc.posting

end Pool

/-- Moving one thread changes a count of program points by that thread's only. -/
theorem countP_set {α : Type} (p : α → Bool) {threads : List α} {t : Nat} {pc : α}
    (atT : threads[t]? = some pc) (pc' : α) :
    (threads.set t pc').countP p + (p pc).toNat = threads.countP p + (p pc').toNat := by
  induction threads generalizing t with
  | nil => cases atT
  | cons head rest inductionHypothesis =>
      cases t with
      | zero =>
          rw [List.getElem?_cons_zero] at atT
          cases Option.some.inj atT
          simp only [List.set_cons_zero, List.countP_cons]
          cases p pc <;> cases p pc' <;> simp
      | succ t =>
          rw [List.getElem?_cons_succ] at atT
          have later := inductionHypothesis atT
          simp only [List.set_cons_succ, List.countP_cons]
          omega

theorem Action.isExit {t : Nat} {s s' : Pool} {pc pc' : Pc} (action : Action t s pc pc' s') :
    s'.isExit = s.isExit := by
  cases action <;> rfl

theorem Action.handleFailures_le {t : Nat} {s s' : Pool} {pc pc' : Pc}
    (action : Action t s pc pc' s') : s.handleFailures ≤ s'.handleFailures := by
  cases action <;> simp

theorem Step.handleFailures_le {s s' : Pool} (step : Step s s') :
    s.handleFailures ≤ s'.handleFailures := by
  cases step with
  | thread _ action => exact action.handleFailures_le
  | stop step => cases step <;> exact Nat.le_refl _

/-- `StopThreads` never returns to the start. -/
theorem Step.stopper_idle {s s' : Pool} (step : Step s s') (idle : s'.stopper = .idle) :
    s.stopper = .idle := by
  cases step with
  | thread _ action => exact action.stopper ▸ idle
  | stop step => cases step <;> cases idle

/-- Until `StopThreads` begins, the exit flag is clear and every queued job is accounted for:
by a permit, by a worker holding one, by an append whose permit is still to come, or by a
failed `CreateCurlHandle`, whose worker left with the permit it took. -/
structure Balanced (s : Pool) : Prop where
  running : s.isExit = false
  balance : s.queue.length = s.permits + s.inflight + s.posting + s.handleFailures

theorem Balanced.step {s s' : Pool} (balanced : Balanced s) (step : Step s s')
    (idle : s'.stopper = .idle) : Balanced s' := by
  obtain ⟨running, balance⟩ := balanced
  cases step with
  | @thread s₁ t pc pc' atT action =>
      have holding := countP_set Pc.holdsPermit atT pc'
      have posting := countP_set Pc.posting atT pc'
      refine ⟨action.isExit.trans running, ?_⟩
      cases action with
      | loopExit exit => rw [running] at exit; cases exit
      | checkExitBreak exit => rw [running] at exit; cases exit
      | popEmpty empty =>
          simp only [Pc.holdsPermit, Bool.toNat_true, Bool.toNat_false] at holding
          simp only [Pool.inflight, Pool.posting, empty, List.length_nil] at balance
          omega
      | popJob job rest queued =>
          simp only [Pc.holdsPermit, Pc.posting, Bool.toNat_true,
            Bool.toNat_false] at holding posting
          simp only [Pool.inflight, Pool.posting, Pool.move, queued, List.length_cons] at balance ⊢
          omega
      | post job next =>
          rw [Resume.holdsPermit_pc] at holding
          rw [Resume.posting_pc] at posting
          simp only [Pc.holdsPermit, Pc.posting, Bool.toNat_true,
            Bool.toNat_false] at holding posting
          simp only [Pool.inflight, Pool.posting, Pool.move] at balance ⊢
          omega
      | _ =>
          simp only [Pc.holdsPermit, Pc.posting, Bool.toNat_true,
            Bool.toNat_false] at holding posting
          simp only [Pool.inflight, Pool.posting, Pool.move, List.length_append,
            List.length_singleton] at balance ⊢
          omega
  | stop step => cases step <;> cases idle

theorem Reachable.balanced {s : Pool} (reachable : Reachable s) (idle : s.stopper = .idle) :
    Balanced s := by
  induction reachable with
  | initial count clients _ =>
      exact ⟨rfl, by simp [Pool.initial, Pool.inflight, Pool.posting, List.countP_replicate,
        Pc.holdsPermit, Pc.posting]⟩
  | step _ step inductionHypothesis =>
      exact (inductionHypothesis (step.stopper_idle idle)).step step idle

theorem Steps.handleFailures_le {s s' : Pool} (steps : Steps s s') :
    s.handleFailures ≤ s'.handleFailures := by
  induction steps with
  | refl => exact Nat.le_refl _
  | tail _ step inductionHypothesis => exact Nat.le_trans inductionHypothesis step.handleFailures_le

/-- Until `StopThreads` begins, the queued jobs are exactly the permits, the workers holding a
permit, the appends whose permit is still to come, and the failed `CreateCurlHandle` calls. -/
theorem permits_balance {s : Pool} (reachable : Reachable s) (idle : s.stopper = .idle) :
    s.queue.length = s.permits + s.inflight + s.posting + s.handleFailures :=
  (reachable.balanced idle).balance

theorem permits_balance_busy :
    ∃ s, Reachable s ∧ s.stopper = .idle ∧ s.queue = [2, 3] ∧ s.permits = 1 ∧ s.posting = 1 ∧
      s.queue.length = s.permits + s.inflight + s.posting + s.handleFailures := by
  obtain ⟨s, reachable, idle, threads, queued, -, -, permits⟩ := reachable_busy
  exact ⟨s, reachable, idle, queued, permits, by rw [Pool.posting, threads]; rfl,
    permits_balance reachable idle⟩

/-- Two workers and one client: the client's `Instruct` appends job 0 and releases its permit;
worker 0 takes the permit, passes the exit check, and its `CreateCurlHandle` fails, so it leaves
its loop with the permit. From then on, until `Destroy`, the queue holds more jobs than the
permits, the workers holding one and the appends still to release one together. -/
theorem handle_failure_strands_job :
    ∃ s, Reachable s ∧ s.queue = [0] ∧ ∀ s', Steps s s' → s'.stopper = .idle →
      s'.permits + s'.inflight + s'.posting < s'.queue.length := by
  have reachable :=
    ((((((((Reachable.initial 2 1 (by decide)).step
      (.thread (t := 2) rfl (.call _ false rfl))).step
      (.thread (t := 2) rfl (.setLocked _ _ _ rfl))).step
      (.thread (t := 2) rfl (.push _ _ _))).step
      (.thread (t := 2) rfl (.post _ _ _))).step
      (.thread (t := 0) rfl (.loop _ rfl))).step
      (.thread (t := 0) rfl (.acquire _ (by decide)))).step
      (.thread (t := 0) rfl (.checkExit _ rfl))).step
      (.thread (t := 0) rfl (.recreateFail _))
  refine ⟨_, reachable, rfl, fun s' steps idle => ?_⟩
  have balance := ((reachable.steps steps).balanced idle).balance
  have failed : 1 ≤ s'.handleFailures := steps.handleFailures_le
  omega

/-! ## Mutual exclusion -/

/-- `thread_list_lock` excludes: in every reachable state no two threads, nor a thread and
`StopThreads`, are at once at program points that hold it. -/
theorem lock_mutual_exclusion {s : Pool} (reachable : Reachable s) :
    (∀ (t u : Nat) (pc pc' : Pc), s.threads[t]? = some pc → s.threads[u]? = some pc' →
        pc.holdsLock = true → pc'.holdsLock = true → t = u) ∧
      ∀ (t : Nat) (pc : Pc), s.threads[t]? = some pc → pc.holdsLock = true →
        s.stopper.holdsLock = false := by
  have held := reachable.lockHeld
  refine ⟨fun t u pc pc' atT atU holds holds' => ?_, fun t pc atT holds => ?_⟩
  · have owners := (held.threadHolds t pc atT holds).symm.trans (held.threadHolds u pc' atU holds')
    exact Owner.thread.inj (Option.some.inj owners)
  · cases stopperHolds : s.stopper.holdsLock
    · rfl
    · have owners := (held.threadHolds t pc atT holds).symm.trans (held.stopperHolds stopperHolds)
      cases owners

/-- One worker and one client: the client's `AwaitInstruct` appends job 0 and releases its
permit; the worker takes the permit, passes the exit check, re-creates its handle and takes the
lock to pop, while the client waits. -/
theorem reachable_popping :
    ∃ s, Reachable s ∧ s.stopper = .idle ∧ s.threads[0]? = some .pop := by
  have reachable :=
    (((((((((Reachable.initial 1 1 (by decide)).step
      (.thread (t := 1) rfl (.call _ true rfl))).step
      (.thread (t := 1) rfl (.setLocked _ _ _ rfl))).step
      (.thread (t := 1) rfl (.push _ _ _))).step
      (.thread (t := 1) rfl (.post _ _ _))).step
      (.thread (t := 0) rfl (.loop _ rfl))).step
      (.thread (t := 0) rfl (.acquire _ (by decide)))).step
      (.thread (t := 0) rfl (.checkExit _ rfl))).step
      (.thread (t := 0) rfl (.recreate _))).step
      (.thread (t := 0) rfl (.lockPop _ rfl))
  exact ⟨_, reachable, rfl, rfl⟩

/-- Until `StopThreads` begins, a worker holding the lock to pop always finds a job: the branch
of `Worker` for a permit without a job is taken only once `StopThreads` has begun. -/
theorem pop_finds_job {s : Pool} (reachable : Reachable s) (idle : s.stopper = .idle) {t : Nat}
    (popping : s.threads[t]? = some .pop) : s.queue ≠ [] := by
  have balance := (reachable.balanced idle).balance
  have holding : 0 < s.inflight :=
    List.countP_pos_iff.mpr ⟨.pop, List.getElem?_mem popping, rfl⟩
  intro empty
  rw [empty, List.length_nil] at balance
  omega

theorem pop_finds_job_sample :
    ∃ s, Reachable s ∧ s.stopper = .idle ∧ s.threads[0]? = some .pop ∧ s.queue ≠ [] := by
  obtain ⟨s, reachable, idle, popping⟩ := reachable_popping
  exact ⟨s, reachable, idle, popping, pop_finds_job reachable idle popping⟩

/-! ## After `StopThreads` -/

/-- Where a client thread resumes: not inside a job. -/
def Resume.isClient : Resume → Bool
  | running _ => false
  | _ => true

/-- The program points of a client thread: outside the pool, in `AwaitInstruct`, or in
`SetInstruction` on its way back to one of those. -/
def Pc.isClient : Pc → Bool
  | idle => true
  | awaiting _ => true
  | setLock _ next => next.isClient
  | setPush _ next => next.isClient
  | setRelease _ next => next.isClient
  | _ => false

@[simp]
theorem Resume.isClient_pc (next : Resume) : next.pc.isClient = next.isClient := by
  cases next <;> rfl

/-- A client only appends: from a client point it reaches a client point, and it pops, runs and
releases nothing and adds to the end of the queue only. -/
theorem Action.client {t : Nat} {s s' : Pool} {pc pc' : Pc} (action : Action t s pc pc' s')
    (client : pc.isClient = true) :
    pc'.isClient = true ∧ s'.dequeued = s.dequeued ∧ s'.finished = s.finished ∧
      s'.released = s.released ∧ s.queue <+: s'.queue := by
  cases action with
  | call await _ => cases await <;> exact ⟨rfl, rfl, rfl, rfl, List.prefix_refl _⟩
  | setLocked => exact ⟨client, rfl, rfl, rfl, List.prefix_refl _⟩
  | push => exact ⟨client, rfl, rfl, rfl, List.prefix_append _ _⟩
  | post _ next =>
      exact ⟨(Resume.isClient_pc next).trans client, rfl, rfl, rfl, List.prefix_refl _⟩
  | awaitDone => exact ⟨rfl, rfl, rfl, rfl, List.prefix_refl _⟩
  | _ => cases client

/-- The threads after the workers are clients. -/
def ClientsStay (s : Pool) : Prop :=
  ∀ t pc, s.workerCount ≤ t → s.threads[t]? = some pc → pc.isClient = true

theorem StopStep.workerCount {s s' : Pool} (step : StopStep s s') :
    s'.workerCount = s.workerCount := by
  cases step <;> rfl

theorem ClientsStay.step {s s' : Pool} (clients : ClientsStay s) (step : Step s s') :
    ClientsStay s' := by
  intro u pcu bound atU
  cases step with
  | @thread s₁ t pc pc' atT action =>
      change s₁.workerCount ≤ u at bound
      rw [action.workerCount] at bound
      rw [Pool.move_threads, action.threads] at atU
      by_cases same : t = u
      · subst same
        rw [List.getElem?_set_self (List.getElem?_eq_some_iff.mp atT).1] at atU
        cases atU
        exact (action.client (clients t pc bound atT)).1
      · rw [getElem?_set_of_ne same] at atU
        exact clients u pcu bound atU
  | stop step =>
      rw [step.workerCount] at bound
      rw [step.threads] at atU
      exact clients u pcu bound atU

theorem Reachable.clientsStay {s : Pool} (reachable : Reachable s) : ClientsStay s := by
  induction reachable with
  | initial count clients _ =>
      intro t pc bound atT
      simp only [Pool.initial] at bound atT
      rw [List.getElem?_append_right (by simpa using bound), List.getElem?_replicate] at atT
      split_ifs at atT
      cases atT
      rfl
  | step _ step inductionHypothesis => exact inductionHypothesis.step step

theorem Action.not_exited {t : Nat} {s s' : Pool} {pc pc' : Pc} (action : Action t s pc pc' s') :
    pc ≠ .exited := by
  cases action <;> exact Pc.noConfusion

/-- A worker that has left its loop stays out of it. -/
theorem Step.exited {s s' : Pool} {w : Nat} (step : Step s s')
    (exited : s.threads[w]? = some .exited) : s'.threads[w]? = some .exited := by
  cases step with
  | @thread s₁ t pc pc' atT action =>
      have other : t ≠ w := by
        rintro rfl
        rw [exited] at atT
        exact action.not_exited (Option.some.inj atT).symm
      rw [Pool.move_threads, action.threads, getElem?_set_of_ne other, exited]
  | stop step => rw [step.threads, exited]

/-- What `StopThreads` has joined: the workers before the one it is joining, and all of them
once it is done, have left their loop. -/
structure Joined (s : Pool) : Prop where
  joining : ∀ k, s.stopper = .joining k → ∀ w < k, s.threads[w]? = some .exited
  done : s.stopper = .done → ∀ w < s.workerCount, s.threads[w]? = some .exited

theorem Joined.step {s s' : Pool} (joined : Joined s) (step : Step s s') : Joined s' := by
  have keep := fun w (exited : s.threads[w]? = some .exited) => step.exited exited
  cases step with
  | @thread s₁ t pc pc' atT action =>
      have stopper : s₁.stopper = s.stopper := action.stopper
      have count : s₁.workerCount = s.workerCount := action.workerCount
      exact ⟨fun k joining w below => keep w (joined.joining k (stopper.symm.trans joining) w below),
        fun done w below => keep w (joined.done (stopper.symm.trans done) w (count ▸ below))⟩
  | stop step =>
      cases step with
      | join worker atJoin _ exitedWorker =>
          refine ⟨fun k joining w below => ?_, fun done => by cases done⟩
          cases joining
          by_cases last : w = worker
          · subst last
            exact exitedWorker
          · exact joined.joining worker atJoin w (by omega)
      | finish atJoin =>
          exact ⟨fun k joining => (by cases joining),
            fun _ w below => joined.joining _ atJoin w below⟩
      | startJoin =>
          exact ⟨fun k joining w below => (by cases joining; omega), fun done => by cases done⟩
      | _ => exact ⟨fun k joining => (by cases joining), fun done => by cases done⟩

theorem Reachable.joined {s : Pool} (reachable : Reachable s) : Joined s := by
  induction reachable with
  | initial => exact ⟨fun k joining => (by cases joining), fun done => by cases done⟩
  | step _ step inductionHypothesis => exact inductionHypothesis.step step

/-- A job still queued was never popped, so its completion semaphore was never released. -/
theorem Accounting.released_of_queued {s : Pool} (acc : Accounting s) {job : Nat}
    (queued : job ∈ s.queue) : s.released.count job = 0 := by
  have fifo : s.dequeued.count job + s.queue.count job = s.enqueued.count job := by
    rw [← acc.fifo, List.count_append]
  have := acc.fresh job; have := acc.started job; have := acc.completed job
  have := List.count_pos_iff.mpr queued
  omega

/-- What holds from a state where `StopThreads` has returned: the workers stay out of their
loop, nothing is popped, run or completed, the queue only grows, and a client waiting for a job
still queued keeps waiting. -/
structure Stopped (s s' : Pool) : Prop where
  done : s'.stopper = .done
  workerCount : s'.workerCount = s.workerCount
  exited : ∀ w < s.workerCount, s'.threads[w]? = some .exited
  dequeued : s'.dequeued = s.dequeued
  finished : s'.finished = s.finished
  released : s'.released = s.released
  queue : s.queue <+: s'.queue
  waiting : ∀ (t job : Nat), job ∈ s.queue → s.threads[t]? = some (.awaiting job) →
    s'.threads[t]? = some (.awaiting job)

theorem StopStep.not_done {s s' : Pool} (step : StopStep s s') : s.stopper ≠ .done := by
  cases step <;> intro done <;> simp_all

theorem Stopped.step {s s₁ s₂ : Pool} (stopped : Stopped s s₁) (clients : ClientsStay s₁)
    (drained : ∀ job ∈ s.queue, s.released.count job = 0) (step : Step s₁ s₂) :
    Stopped s s₂ := by
  cases step with
  | @thread s₃ u pc pc' atU action =>
      have bound : s.workerCount ≤ u := by
        by_contra worker
        rw [stopped.exited u (by omega)] at atU
        exact action.not_exited (Option.some.inj atU).symm
      obtain ⟨-, dequeued, finished, released, queue⟩ :=
        action.client (clients u pc (by rw [stopped.workerCount]; exact bound) atU)
      refine ⟨action.stopper.trans stopped.done, action.workerCount.trans stopped.workerCount,
        fun w below => ?_, dequeued.trans stopped.dequeued, finished.trans stopped.finished,
        released.trans stopped.released, stopped.queue.trans queue,
        fun t job queued waiting => ?_⟩
      · rw [Pool.move_threads, action.threads, getElem?_set_of_ne (by omega),
          stopped.exited w below]
      · have still := stopped.waiting t job queued waiting
        by_cases same : u = t
        · subst same
          rw [still] at atU
          cases atU
          cases action with
          | awaitDone =>
              rename_i more
              rw [stopped.released, drained job queued] at more
              omega
        · rw [Pool.move_threads, action.threads, getElem?_set_of_ne same, still]
  | stop step => exact absurd stopped.done step.not_done

/-- After `StopThreads` returns, along every interleaving nothing more runs: every worker has
left its loop, no job is popped, run or completed again, the queue only grows, and a client
waiting in `AwaitInstruct` for a job still queued waits forever. -/
theorem stopped_pool_drops_queued_jobs {s s' : Pool} (reachable : Reachable s)
    (stopped : s.stopper = .done) (steps : Steps s s') :
    (∀ worker < s.workerCount, s'.threads[worker]? = some .exited) ∧
      s'.dequeued = s.dequeued ∧ s'.finished = s.finished ∧ s'.released = s.released ∧
      s.queue <+: s'.queue ∧
      ∀ (t job : Nat), job ∈ s.queue → s.threads[t]? = some (.awaiting job) →
        s'.threads[t]? = some (.awaiting job) := by
  have drained := fun job (queued : job ∈ s.queue) =>
    reachable.accounting.released_of_queued queued
  have after : Stopped s s' := by
    induction steps with
    | refl =>
        exact ⟨stopped, rfl, reachable.joined.done stopped, rfl, rfl, rfl, List.prefix_refl _,
          fun _ _ _ waiting => waiting⟩
    | tail earlier step inductionHypothesis =>
        exact inductionHypothesis.step (reachable.steps earlier).clientsStay drained step
  exact ⟨after.exited, after.dequeued, after.finished, after.released, after.queue, after.waiting⟩

/-- One worker and one client: the client's `AwaitInstruct` appends job 0 and releases its
permit; `Destroy` takes the lock, sets the exit flag and releases a permit; the worker sees the
flag at the top of its loop and leaves, and `StopThreads` joins it and returns. Job 0 stays in
the queue and its client waits for it from then on. -/
theorem stopped_pool_drops_awaited_job :
    ∃ s, Reachable s ∧ s.stopper = .done ∧ s.queue = [0] ∧ s.threads[1]? = some (.awaiting 0) ∧
      ∀ s', Steps s s' →
        (∀ worker < s.workerCount, s'.threads[worker]? = some .exited) ∧
          s'.dequeued = s.dequeued ∧ s'.finished = s.finished ∧ s'.released = s.released ∧
          s.queue <+: s'.queue ∧
          ∀ (t job : Nat), job ∈ s.queue → s.threads[t]? = some (.awaiting job) →
            s'.threads[t]? = some (.awaiting job) := by
  have reachable :=
    (((((((((((Reachable.initial 1 1 (by decide)).step
      (.thread (t := 1) rfl (.call _ true rfl))).step
      (.thread (t := 1) rfl (.setLocked _ _ _ rfl))).step
      (.thread (t := 1) rfl (.push _ _ _))).step
      (.thread (t := 1) rfl (.post _ _ _))).step
      (.stop (.destroy _ rfl))).step
      (.stop (.lock _ rfl rfl))).step
      (.stop (.setExit _ rfl))).step
      (.stop (.release _ 0 rfl))).step
      (.stop (.startJoin _ rfl))).step
      (.thread (t := 0) rfl (.loopExit _ rfl))).step
      (.stop (.join _ 0 rfl (by decide) rfl))
  have done := reachable.step (.stop (.finish _ rfl))
  exact ⟨_, done, rfl, rfl, rfl, fun s' steps => stopped_pool_drops_queued_jobs done rfl steps⟩

end S3fs.ThreadPoolMan
