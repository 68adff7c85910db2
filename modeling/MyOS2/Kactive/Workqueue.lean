import MyOS2.Kactive.WorkerPool

/-!
# Queueing and processing works (`kactive/workqueue/workqueue.c`)

The threads of a pool take turns: each step is what one of them does while it
holds the lock of the pool. A worker gives the lock up when it goes to sleep,
when it creates another worker (the creation is one step here), and for the
function of a work.
-/

namespace MyOS2.Workqueue

open DoubleList

def wqCpuIntensive : BitVec 32 := 1 <<< 5

/-- What is read of the `pool_workqueue_s` of a work. -/
structure Pwq where
  wqFlags : BitVec 32

/-- `get_work_pwq` of the word `data` of a work (`workqueue.h:59-73`). -/
def getWorkPwq (data : BitVec 64) : BitVec 64 :=
  if data &&& 4 ≠ 0 then data &&& ~~~0xff else 0

/-- The addresses of the list nodes, all in the upper half, which is the kernel's. -/
structure Layout where
  addr : Node → BitVec 64
  upper : ∀ n, (addr n).msb = true

/-- `container_of (n, work_s, entry)`: the list node stands 8 bytes behind the start of a work. -/
def Layout.container (l : Layout) (n : Node) : BitVec 64 := l.addr n - 8

/-- Where a worker is while it does not hold the lock. -/
inductive Pc
  | absent
  /-- On `idle_list`, in `schedule` or not started yet. -/
  | asleep
  /-- In the inner loop of `maybe_create_worker`. -/
  | creating
  /-- Behind that loop. -/
  | created
  /-- In the function of a work. -/
  | executing (k : WorkId)
  deriving DecidableEq

def Pc.phase : Pc → Phase
  | .absent => .absent
  | .asleep => .idle
  | .creating | .created => .awake
  | .executing _ => .working

/-- The pool with its works and workers. -/
structure State where
  pool : Pool
  /-- What `get_work_pwq` finds in the `data` of a work; `none` is `NULL`. -/
  pwq : WorkId → Option Pwq
  pc : WorkerId → Pc
  /-- The task of the worker is in the state `TASK_RUNNING`. -/
  awake : WorkerId → Bool
  /-- The works whose function has been called, in the order of the calls. -/
  executed : List WorkId

namespace Pool

section

variable (p : Pool)

/-- `need_more_worker` (`workqueue.h:91-95`). -/
def needMoreWorker : Bool := p.lists.count .worklist != 0 && p.nrRunning == 0

/-- `may_start_working` (`workqueue.h:99-102`). -/
def mayStartWorking : Bool := p.lists.count .idleList != 0

/-- `keep_working` (`workqueue.h:106-110`). -/
def keepWorking : Bool := p.lists.count .worklist != 0 && decide (p.nrRunning ≤ 1)

/-- `need_to_create_worker` (`workqueue.h:114-118`). -/
def needToCreateWorker : Bool := p.needMoreWorker && !p.mayStartWorking

/-- `first_idle_worker` (`workqueue.h:185-190`). -/
def firstIdleWorker : Option (Option WorkerId) :=
  if p.lists.count .idleList = 0 then some none
  else
    match p.lists.next .idleList with
    | .node (.entry w) => some (some w)
    | _ => none

/-- `simple_assign_work` (`workqueue.c:241-249`). -/
def simpleAssignWork (k : WorkId) (w : WorkerId) : Option Pool := do
  let lists ←
    listHeaderDeleteNode (p.lists.count .worklist + 1) p.lists .worklist (.work k)
  let lists ← listHeaderAddToTail lists (.scheduled w) (.work k)
  some { p with lists }

end

end Pool

namespace State

section

variable (s : State)

def setPc (w : WorkerId) (pc : Pc) : State :=
  { s with pc := Function.update s.pc w pc }

/-- `kick_pool` (`workqueue.c:258-305`); a pool for bottom halves spins. -/
def kickPool : Option State := do
  match ← s.pool.firstIdleWorker with
  | none => some s
  | some w =>
    if !s.pool.needMoreWorker then some s
    else if has s.pool.flags poolBh then none
    else some { s with awake := Function.update s.awake w true }

/-- `__simple_queue_work` (`workqueue.c:107-135`). -/
def simpleQueueWork (k : WorkId) : Option State :=
  if !listIsEmptyEntry s.pool.lists (.work k) then some s
  else do
    let lists ← listHeaderAddToTail s.pool.lists .worklist (.work k)
    { s with pool := { s.pool with lists } }.kickPool

/-- `queue_work_on` (`workqueue.c:153-168`). The test of the pending bit is commented out there, and
`ret` is set in any case. -/
def queueWorkOn (k : WorkId) : Option (Bool × State) := do
  let s ← s.simpleQueueWork k
  some (true, s)

section

variable (w : WorkerId)

/-- The end of a turn of `simple_worker_thread`, from its label `sleep`. -/
def sleep : Option State := do
  let pool ← s.pool.workerEnterIdle w
  some { { s with pool }.setPc w .asleep with awake := Function.update s.awake w false }

/-- `process_one_work` (`workqueue.c:411-551`) up to the call of the function. The name of the work
queue is read through the pointer `pwq`. -/
def processOneWork (k : WorkId) : Option State := do
  let pwq ← s.pwq k
  let lists ←
    listHeaderDeleteNode (s.pool.lists.count (.scheduled w) + 1) s.pool.lists (.scheduled w)
      (.work k)
  let pool := { s.pool with lists }
  let pool :=
    if has pwq.wqFlags wqCpuIntensive then pool.workerSetFlags w workerCpuIntensive else pool
  let s ← { s with pool }.kickPool
  some { s.setPc w (.executing k) with executed := s.executed ++ [k] }

/-- `process_scheduled_works` (`workqueue.c:565-578`) up to the next call of a function. For an
empty list `list_headr_first_container` gives the address of a work around the anchor, whose `data`
is the field `current_pwq` of the worker, which is `NULL`. -/
def processScheduledWorks : Option State :=
  match s.pool.lists.next (.scheduled w) with
  | .node (.work k) => s.processOneWork w k
  | _ => none

/-- The whole of `process_scheduled_works` (`workqueue.c:565-578`), for `fuel` turns at most. `fn` is
what the pool is like behind the function of a work. Of the work around the anchor, `data` is the
field `current_pwq` of the worker, `cur`, which every call of `process_one_work` leaves `NULL`; the
name of the work queue is read through what `get_work_pwq` makes of it, and `around` is what would
come of any other pointer than `NULL`. -/
def drain (l : Layout) (fn : State → State) (around : BitVec 64 → State → Option State) :
    Nat → BitVec 64 → State → Option State
  | 0, _, _ => none
  | fuel + 1, cur, s =>
    match s.pool.lists.next (.scheduled w) with
    | .node n =>
      if l.container n = 0 then some s
      else
        match n with
        | .work k => do
          let s := fn (← processOneWork s w k)
          drain l fn around fuel 0
            { s with pool := s.pool.workerClrFlags w workerCpuIntensive }
        | _ =>
          if getWorkPwq cur = 0 then none
          else (around (getWorkPwq cur) s).bind (drain l fn around fuel 0)
    | _ => none

/-- The loop over the worklist. Control does not come back from `process_scheduled_works` before the
lock is given up. -/
def workLoop : Option State :=
  if s.pool.keepWorking then
    match s.pool.lists.next .worklist with
    | .node (.work k) => do
      let pool ← s.pool.simpleAssignWork k w
      { s with pool }.processScheduledWorks w
    | _ => none
  else { s with pool := s.pool.workerSetFlags w workerPrep }.sleep w

/-- From the label `recheck`, with `manage_workers` up to where it gives the lock up. -/
def recheck : Option State :=
  if !s.pool.needMoreWorker then s.sleep w
  else if !s.pool.mayStartWorking && !has s.pool.flags poolManagerActive then
    some ({ s with pool := { s.pool with flags := s.pool.flags ||| poolManagerActive } }.setPc w
      .creating)
  else
    { s with pool := s.pool.workerClrFlags w (workerPrep ||| workerRebound) }.workLoop w

def wokeUp : Option State := do
  let pool ← s.pool.workerLeaveIdle w
  { s with pool }.recheck w

/-- `process_one_work` (`workqueue.c:411-551`) behind the call of the function. -/
def functionReturned : Option State :=
  { s with pool := s.pool.workerClrFlags w workerCpuIntensive }.processScheduledWorks w

end

/-- `create_worker` (`workqueue.c:681-747`). -/
def createWorker (w : WorkerId) (created : Bool) : Option State := do
  let pool ← s.pool.createWorker w created
  if created then
    some { { s with pool }.setPc w .asleep with awake := Function.update s.awake w true }
  else some s

/-- `manage_workers` (`workqueue.c:379-395`) up to the `create_worker` in `maybe_create_worker`
(`326-355`). -/
def manageCreate (w w' : WorkerId) (created : Bool) : Option State := do
  let s ← s.createWorker w' created
  if created || !s.pool.needToCreateWorker then some (s.setPc w .created) else some s

/-- The rest of `manage_workers` (`workqueue.c:379-395`). -/
def manageDone (w : WorkerId) : Option State :=
  if s.pool.needToCreateWorker then some (s.setPc w .creating)
  else
    { s with pool := { s.pool with flags := s.pool.flags &&& ~~~poolManagerActive } }.recheck w

end

/-! ## Runs -/

/-- The steps of queueing tasks and of workers. -/
inductive Op
  | queueWorkOn (k : WorkId)
  /-- Made by `workqueue_init`. -/
  | createWorker (w : WorkerId) (created : Bool)
  | wokeUp (w : WorkerId)
  | functionReturned (w : WorkerId)
  | manageCreate (w w' : WorkerId) (created : Bool)
  | manageDone (w : WorkerId)

/-- One turn of a thread, with the value that `queue_work_on` returns. -/
def step (s : State) : Op → Option (Option Bool × State)
  | .queueWorkOn k => (s.queueWorkOn k).map fun (ret, s) => (some ret, s)
  | .createWorker w created => (s.createWorker w created).map (none, ·)
  | .wokeUp w => (s.wokeUp w).map (none, ·)
  | .functionReturned w => (s.functionReturned w).map (none, ·)
  | .manageCreate w w' created => (s.manageCreate w w' created).map (none, ·)
  | .manageDone w => (s.manageDone w).map (none, ·)

def Ok (s : State) : Op → Prop
  | .queueWorkOn _ => True
  | .createWorker w _ => s.pc w = .absent
  | .wokeUp w => s.pc w = .asleep ∧ s.awake w = true
  | .functionReturned w => ∃ k, s.pc w = .executing k
  | .manageCreate w w' _ => s.pc w = .creating ∧ s.pc w' = .absent
  | .manageDone w => s.pc w = .created

def loop (s : State) : Loop := ⟨s.pool, fun w => (s.pc w).phase⟩

/-- A pool that is not one for bottom halves, after `init_worker_pool`. The works have the `data` of
`WORK_DATA_INIT`, in which no `pwq` is found. -/
structure Start (s : State) : Prop where
  pool : s.loop.Start
  flags : has s.pool.flags poolBh = false
  pwq : ∀ k, s.pwq k = none
  executed : s.executed = []

def Later (s : State) : State → Prop := Reachable step Ok (· = s)

/-- What `queue_work_on` is for: for a work that is still pending it gives `false` and queues
nothing, and if it gives `true`, there is one more call of the work's function to come. -/
def Served (s : State) (k : WorkId) : Prop :=
  ∃ ret s', s.queueWorkOn k = some (ret, s') ∧
    (listIsEmptyEntry s.pool.lists (.work k) = false → ret = false ∧ s'.pool.lists = s.pool.lists) ∧
    (ret = true → ∃ s'', s'.Later s'' ∧ s''.executed.count k = s.executed.count k + 1)

end State

end MyOS2.Workqueue
