import MyOS2.Lib.DoubleList
import MyOS2.Misc.Runs

/-!
# Workers of a pool (`kactive/workqueue/workqueue.h`, `workqueue.c`)

A pool keeps its workers on `workers` and those that have nothing to do on
`idle_list` as well; `nr_running` counts the workers that take part in the
management of concurrency. The helpers here are called with the lock of the
pool, in the order that the loop of `simple_worker_thread` gives.
-/

namespace MyOS2.Workqueue

open DoubleList

abbrev WorkerId := Nat
abbrev WorkId := Nat

/-- The nodes of the lists: the anchors in `worker_pool_s`, the fields of a worker, and `entry` of a
work. -/
inductive Node
  | worklist
  | idleList
  | workers
  | scheduled (w : WorkerId)
  | entry (w : WorkerId)
  | node (w : WorkerId)
  | work (k : WorkId)
  deriving DecidableEq

/-! Flags of a worker and of a pool. -/

def workerIdle : BitVec 32 := 1 <<< 2
def workerPrep : BitVec 32 := 1 <<< 3
def workerCpuIntensive : BitVec 32 := 1 <<< 6
def workerUnbound : BitVec 32 := 1 <<< 7
def workerRebound : BitVec 32 := 1 <<< 8

def workerNotRunning : BitVec 32 :=
  workerPrep ||| workerCpuIntensive ||| workerUnbound ||| workerRebound

def poolBh : BitVec 32 := 1 <<< 0
def poolManagerActive : BitVec 32 := 1 <<< 1
def poolDisassociated : BitVec 32 := 1 <<< 2

def has (flags mask : BitVec 32) : Bool := flags &&& mask != 0

/-- `worker_pool_s`, with the lists and the flags of its workers. -/
structure Pool where
  lists : DoubleList.Lists Node
  flags : BitVec 32
  nrRunning : Int
  nrWorkers : Int
  workerFlags : WorkerId → BitVec 32

namespace Pool

section

variable (p : Pool) (w : WorkerId)

def setWorkerFlags (flags : BitVec 32) : Pool :=
  { p with workerFlags := Function.update p.workerFlags w flags }

/-- `worker_set_flags` (`workqueue.h:141-154`). -/
def workerSetFlags (flags : BitVec 32) : Pool :=
  let p :=
    if has flags workerNotRunning && !has (p.workerFlags w) workerNotRunning then
      { p with nrRunning := p.nrRunning - 1 }
    else p
  p.setWorkerFlags w (p.workerFlags w ||| flags)

/-- `worker_clr_flags` (`workqueue.h:164-181`). -/
def workerClrFlags (flags : BitVec 32) : Pool :=
  let oflags := p.workerFlags w
  let p := p.setWorkerFlags w (oflags &&& ~~~flags)
  if has flags workerNotRunning && has oflags workerNotRunning &&
      !has (p.workerFlags w) workerNotRunning then
    { p with nrRunning := p.nrRunning + 1 }
  else p

/-- `worker_enter_idle` (`workqueue.h:203-225`). -/
def workerEnterIdle : Option Pool := do
  let p := p.setWorkerFlags w (p.workerFlags w ||| workerIdle)
  let lists ← listHeaderAddToTail p.lists .idleList (.entry w)
  some { p with lists }

/-- `worker_leave_idle` (`workqueue.h:237-245`). -/
def workerLeaveIdle : Option Pool :=
  if !has (p.workerFlags w) workerIdle then some p
  else do
    let p := p.workerClrFlags w workerIdle
    let lists ←
      listHeaderDeleteNode (p.lists.count .idleList + 1) p.lists .idleList (.entry w)
    some { p with lists }

/-- `alloc_worker` (`workqueue.c:174-186`). -/
def allocWorker : Pool :=
  let lists := initList p.lists (.entry w)
  let lists := setCount (initList lists (.scheduled w)) (.scheduled w) 0
  let lists := initList lists (.node w)
  { p with lists }.setWorkerFlags w workerPrep

/-- `worker_attach_to_pool` (`workqueue.c:189-220`). -/
def workerAttachToPool : Option Pool := do
  let p :=
    if has p.flags poolDisassociated then
      p.setWorkerFlags w (p.workerFlags w ||| workerUnbound)
    else p
  let lists ← listHeaderAddToTail p.lists .workers (.node w)
  some { p with lists }

/-- `create_worker` (`workqueue.c:681-747`) that makes the worker `w`, if the allocations and the
creation of its thread succeed; nothing stays of it otherwise. -/
def createWorker (created : Bool) : Option Pool :=
  if created then do
    let p ← (p.allocWorker w).workerAttachToPool w
    { p with nrWorkers := p.nrWorkers + 1 }.workerEnterIdle w
  else some p

end

end Pool

/-! ## The loop of a worker -/

/-- Where a worker is between two calls of the helpers. -/
inductive Phase
  | absent
  | idle
  /-- Behind `worker_leave_idle`. -/
  | awake
  /-- In the loop over the worklist, its flag `WORKER_PREP` cleared. -/
  | working
  /-- In the function of a work that is marked as intensive. -/
  | intensive
  /-- Out of that loop. -/
  | leaving
  deriving DecidableEq

/-- A pool, and where its workers are. -/
structure Loop where
  pool : Pool
  phase : WorkerId → Phase

namespace Loop

/-- The regions of `worker_thread` with the lock. -/
inductive Op
  | createWorker (w : WorkerId) (created : Bool)
  | leaveIdle (w : WorkerId)
  | enterIdle (w : WorkerId)
  /-- `worker_clr_flags (worker, WORKER_PREP | WORKER_REBOUND)`. -/
  | clrPrep (w : WorkerId)
  /-- `worker_set_flags (worker, WORKER_CPU_INTENSIVE)`. -/
  | setIntensive (w : WorkerId)
  /-- `worker_clr_flags (worker, WORKER_CPU_INTENSIVE)`. -/
  | clrIntensive (w : WorkerId)
  /-- `worker_set_flags (worker, WORKER_PREP)`. -/
  | setPrep (w : WorkerId)

def moveTo (s : Loop) (w : WorkerId) (phase : Phase) (pool : Pool) : Unit × Loop :=
  ((), { pool, phase := Function.update s.phase w phase })

def step (s : Loop) : Op → Option (Unit × Loop)
  | .createWorker w created =>
    (s.pool.createWorker w created).map (s.moveTo w (if created then .idle else .absent))
  | .leaveIdle w => (s.pool.workerLeaveIdle w).map (s.moveTo w .awake)
  | .enterIdle w => (s.pool.workerEnterIdle w).map (s.moveTo w .idle)
  | .clrPrep w =>
    some (s.moveTo w .working (s.pool.workerClrFlags w (workerPrep ||| workerRebound)))
  | .setIntensive w => some (s.moveTo w .intensive (s.pool.workerSetFlags w workerCpuIntensive))
  | .clrIntensive w => some (s.moveTo w .working (s.pool.workerClrFlags w workerCpuIntensive))
  | .setPrep w => some (s.moveTo w .leaving (s.pool.workerSetFlags w workerPrep))

/-- The order of the calls in `simple_worker_thread` and `process_one_work`. Which way the loop
takes at its tests is open. -/
def Ok (s : Loop) : Op → Prop
  | .createWorker w _ => s.phase w = .absent
  | .leaveIdle w => s.phase w = .idle
  | .enterIdle w => s.phase w = .awake ∨ s.phase w = .leaving
  | .clrPrep w => s.phase w = .awake
  | .setIntensive w => s.phase w = .working
  | .clrIntensive w => s.phase w = .working ∨ s.phase w = .intensive
  | .setPrep w => s.phase w = .working

/-- A pool without workers and works. -/
structure Start (s : Loop) : Prop where
  worklist : s.pool.lists.Link .worklist .worklist
  idleList : s.pool.lists.Link .idleList .idleList
  workers : s.pool.lists.Link .workers .workers
  nrQueued : s.pool.lists.count .worklist = 0
  nrIdle : s.pool.lists.count .idleList = 0
  nrAttached : s.pool.lists.count .workers = 0
  nrRunning : s.pool.nrRunning = 0
  nrWorkers : s.pool.nrWorkers = 0
  absent : ∀ w, s.phase w = .absent

end Loop

end MyOS2.Workqueue
