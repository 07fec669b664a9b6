import S3fs.ThreadPool

/-!
# The life of the pool

`ThreadPoolMan` keeps two class variables: `worker_count`, 10 until `SetWorkerCount` stores
another count, and `singleton`, the pool that `Initialize` builds and `Destroy` resets.
`Lifecycle` interleaves those calls with the steps of the pools. `singleton.reset()` nulls the
pointer before it runs the destructor, so the pool `Destroy` stops is no longer the singleton
while its `StopThreads` runs: the model keeps it among the `retired` pools, whose threads and
`StopThreads` go on stepping.

* `lifecycle_pool_reachable`: along every run, `worker_count` stays positive, the pool the
  singleton holds is a reachable state of the interleaving model of `ThreadPool` in which
  `StopThreads` has not begun, and so is every retired pool, with `StopThreads` begun, so every
  theorem proved there holds of them. `Initialize` aborts exactly when the singleton holds a
  pool, never for the count it gives the constructor, and so succeeds while a retired pool is
  still stopping; a count that is not positive leaves the pool with the previous
  `worker_count`.
-/

namespace S3fs.ThreadPoolMan

/-- The class variables `ThreadPoolMan::worker_count` and `ThreadPoolMan::singleton`, and the
pools `Destroy` has taken out of the singleton, whose destructors run or have returned. -/
structure Statics where
  workerCount : Int
  singleton : Option Pool
  retired : List Pool

/-- The class variables at program start. -/
def Statics.initial : Statics := ⟨10, none, []⟩

/-- `ThreadPoolMan::SetWorkerCount`: the value it returns and the new `worker_count`. -/
def setWorkerCount (workerCount count : Int) : Int × Int :=
  if 0 ≥ count then (-1, workerCount)
  else if count = workerCount then (workerCount, workerCount)
  else (workerCount, count)

/-- `ThreadPoolMan::StartThreads(count)` on a new pool: `StopThreads` finds no thread and
returns, and `count` workers start at the top of their loop; `none` is a failure. -/
def startThreads (count : Int) (clients : Nat) : Option Pool :=
  if count < 1 then none else some (Pool.initial count.toNat clients)

/-- `ThreadPoolMan::ThreadPoolMan(count)`, with `clients` client threads beside the workers;
`none` is `abort()`. -/
def construct (singleton : Option Pool) (count : Int) (clients : Nat) : Option Pool :=
  if count < 1 then none
  else if singleton.isSome then none
  else startThreads count clients

/-- `ThreadPoolMan::Initialize(count)`; `none` is `abort()`, and it otherwise returns true. -/
def initializePool (st : Statics) (count : Int) (clients : Nat) : Option Statics :=
  if st.singleton.isSome then none
  else
    let workerCount :=
      if -1 ≠ count then (setWorkerCount st.workerCount count).2 else st.workerCount
    (construct st.singleton workerCount clients).map fun pool =>
      { st with workerCount := workerCount, singleton := some pool }

/-- One step of the program around the pools: a call of `Initialize`, `SetWorkerCount` or
`Destroy`, a step of a thread of the singleton, or a step of a retired pool. `Destroy` is
`singleton.reset()`: the pointer is nulled, then the destructor's `StopThreads` begins
(`StopStep.destroy`), and its further steps are those of the retired pool; on no pool it does
nothing. -/
inductive Lifecycle (clients : Nat) : Statics → Statics → Prop where
  | initializePool {st st' : Statics} (count : Int) :
      initializePool st count clients = some st' → Lifecycle clients st st'
  | setWorkerCount (st : Statics) (count : Int) :
      Lifecycle clients st { st with workerCount := (setWorkerCount st.workerCount count).2 }
  | run {st : Statics} {pool pool' : Pool} {t : Nat} {pc pc' : Pc} : st.singleton = some pool →
      pool.threads[t]? = some pc → Action t pool pc pc' pool' →
      Lifecycle clients st { st with singleton := some (pool'.move t pc') }
  | destroy {st : Statics} {pool : Pool} : st.singleton = some pool →
      Lifecycle clients st
        { st with singleton := none, retired := { pool with stopper := .waitLock } :: st.retired }
  | retiredStep {st : Statics} {index : Nat} {pool pool' : Pool} :
      st.retired[index]? = some pool → Step pool pool' →
      Lifecycle clients st { st with retired := st.retired.set index pool' }

/-- The states of the class variables after any run from program start. -/
inductive Statics.Reachable (clients : Nat) : Statics → Prop where
  | initial : Statics.Reachable clients Statics.initial
  | step {st st' : Statics} : Statics.Reachable clients st → Lifecycle clients st st' →
      Statics.Reachable clients st'

theorem setWorkerCount_pos {workerCount : Int} (positive : 0 < workerCount) (count : Int) :
    0 < (setWorkerCount workerCount count).2 := by
  unfold setWorkerCount
  split_ifs <;> simp only <;> omega

/-- The `worker_count` that `Initialize(count)` leaves: `count` if it is positive, and the
previous one otherwise (`-1` skips `SetWorkerCount`, which refuses the others). -/
theorem initialize_workerCount (workerCount count : Int) :
    (if -1 ≠ count then (setWorkerCount workerCount count).2 else workerCount) =
      if 0 < count then count else workerCount := by
  unfold setWorkerCount
  split_ifs <;> first | rfl | omega

theorem initializePool_eq {st : Statics} (positive : 0 < st.workerCount) (count : Int)
    (clients : Nat) :
    initializePool st count clients =
      if st.singleton.isSome then none
      else
        let workerCount := if 0 < count then count else st.workerCount
        some { st with
          workerCount := workerCount
          singleton := some (Pool.initial workerCount.toNat clients) } := by
  simp only [initializePool, initialize_workerCount]
  cases singleton : st.singleton with
  | some pool => rfl
  | none =>
      have fresh : 0 < if 0 < count then count else st.workerCount := by split_ifs <;> omega
      simp only [Option.isSome_none, Bool.false_eq_true, if_false, construct, startThreads,
        show ¬ (if 0 < count then count else st.workerCount) < 1 by omega]
      rfl

theorem initializePool_eq_some {st st' : Statics} (positive : 0 < st.workerCount) {count : Int}
    {clients : Nat} (initialized : initializePool st count clients = some st') :
    0 < st'.workerCount ∧ st'.singleton = some (Pool.initial st'.workerCount.toNat clients) ∧
      st'.retired = st.retired := by
  rw [initializePool_eq positive] at initialized
  split_ifs at initialized <;> cases initialized <;> exact ⟨by dsimp only; omega, rfl, rfl⟩

/-- What every reachable state keeps: a positive `worker_count`, a singleton that is a reachable
pool whose `StopThreads` has not begun, and retired pools that are reachable, their
`StopThreads` begun. -/
structure Statics.Valid (st : Statics) : Prop where
  workerCount_pos : 0 < st.workerCount
  singleton : ∀ pool, st.singleton = some pool → ThreadPoolMan.Reachable pool ∧ pool.stopper = .idle
  retired : ∀ pool ∈ st.retired, ThreadPoolMan.Reachable pool ∧ pool.stopper ≠ .idle

theorem Statics.Valid.step {clients : Nat} {st st' : Statics} (valid : st.Valid)
    (step : Lifecycle clients st st') : st'.Valid := by
  cases step with
  | initializePool count initialized =>
      obtain ⟨positive, built, kept⟩ := initializePool_eq_some valid.workerCount_pos initialized
      refine ⟨positive, fun pool current => ?_, kept ▸ valid.retired⟩
      rw [built] at current
      cases current
      exact ⟨.initial _ clients (by omega), rfl⟩
  | setWorkerCount count =>
      exact ⟨setWorkerCount_pos valid.workerCount_pos count, valid.singleton, valid.retired⟩
  | @run pool pool' t pc pc' current atT action =>
      refine ⟨valid.workerCount_pos, fun stepped moved => ?_, valid.retired⟩
      cases moved
      obtain ⟨reachable, idle⟩ := valid.singleton pool current
      exact ⟨reachable.step (.thread atT action), (action.stopper).trans idle⟩
  | @destroy pool current =>
      obtain ⟨reachable, idle⟩ := valid.singleton pool current
      refine ⟨valid.workerCount_pos, fun _ => nofun, fun retired member => ?_⟩
      rcases List.mem_cons.mp member with rfl | earlier
      · exact ⟨reachable.step (.stop (.destroy pool idle)), StopPc.noConfusion⟩
      · exact valid.retired retired earlier
  | @retiredStep index pool pool' atIndex step =>
      refine ⟨valid.workerCount_pos, valid.singleton, fun retired member => ?_⟩
      rcases List.mem_or_eq_of_mem_set member with earlier | rfl
      · exact valid.retired retired earlier
      · obtain ⟨reachable, begun⟩ := valid.retired pool (List.getElem?_mem atIndex)
        exact ⟨reachable.step step, fun idle => begun (step.stopper_idle idle)⟩

theorem Statics.Reachable.valid {clients : Nat} {st : Statics} (reachable : st.Reachable clients) :
    st.Valid := by
  induction reachable with
  | initial => exact ⟨by decide, fun _ => nofun, fun _ => nofun⟩
  | step _ step inductionHypothesis => exact inductionHypothesis.step step

/-- Along every run of `Initialize`, `SetWorkerCount`, `Destroy` and the pools' threads,
`worker_count` stays positive; the singleton holds a reachable pool whose `StopThreads` has not
begun, and every pool `Destroy` retired is reachable, its `StopThreads` begun. `Initialize`
aborts exactly when the singleton holds a pool, whatever the retired pools are doing, and
otherwise starts one with `count` workers, or with the previous `worker_count` if `count` is
not positive. -/
theorem lifecycle_pool_reachable {clients : Nat} {st : Statics} (reachable : st.Reachable clients) :
    0 < st.workerCount ∧
      (∀ pool, st.singleton = some pool → Reachable pool ∧ pool.stopper = .idle) ∧
      (∀ pool ∈ st.retired, Reachable pool ∧ pool.stopper ≠ .idle) ∧
      ∀ count, initializePool st count clients =
        if st.singleton.isSome then none
        else
          let workerCount := if 0 < count then count else st.workerCount
          some { st with
            workerCount := workerCount
            singleton := some (Pool.initial workerCount.toNat clients) } :=
  ⟨reachable.valid.workerCount_pos, reachable.valid.singleton, reachable.valid.retired,
    fun count => initializePool_eq reachable.valid.workerCount_pos count clients⟩

/-- `Initialize(0)` at program start keeps the default count of 10 workers, and `Destroy` nulls
the singleton as the pool's `StopThreads` begins to wait for the lock: while that pool is still
stopping, a second `Initialize` starts a new pool. -/
theorem lifecycle_pool_reachable_during_teardown :
    let st : Statics := ⟨10, none, [{ Pool.initial 10 1 with stopper := .waitLock }]⟩
    st.Reachable 1 ∧ initializePool st 0 1 = some { st with singleton := some (Pool.initial 10 1) } ∧
      0 < st.workerCount ∧
      (∀ pool, st.singleton = some pool → Reachable pool ∧ pool.stopper = .idle) ∧
      (∀ pool ∈ st.retired, Reachable pool ∧ pool.stopper ≠ .idle) ∧
      ∀ count, initializePool st count 1 =
        if st.singleton.isSome then none
        else
          let workerCount := if 0 < count then count else st.workerCount
          some { st with
            workerCount := workerCount
            singleton := some (Pool.initial workerCount.toNat 1) } :=
  have reachable : Statics.Reachable 1 ⟨10, none, [{ Pool.initial 10 1 with stopper := .waitLock }]⟩ :=
    (Statics.Reachable.initial.step (.initializePool 0 rfl)).step (.destroy rfl)
  ⟨reachable, rfl, lifecycle_pool_reachable reachable⟩

end S3fs.ThreadPoolMan
