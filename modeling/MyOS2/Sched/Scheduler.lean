import MyOS2.Lib.DoubleList
import MyOS2.Misc.Runs

/-!
# The scheduler of one processor (`sched/scheduler`)

Tasks that can run wait on `running_lhdr`, in the order in which they will be
taken; the task that runs is not on it. Every function here disables preemption
or interrupts, so each is one step. What `context_switch` does with address
spaces is in `MyOS2.Sched.ContextSwitch`.

A call is `none` when it does not come back: a list that is broken makes its
checks spin.
-/

namespace MyOS2.Scheduler

open DoubleList

abbrev Tid := Nat

/-- The nodes of the run queue: the anchor of `running_lhdr`, and the field `rt.run_list` of a task.
-/
inductive Node
  | anchor
  | task (t : Tid)
  deriving DecidableEq

/-! States of a task. -/

def taskRunning : BitVec 32 := 0x0000
def taskInterruptible : BitVec 32 := 0x0001
def taskWaking : BitVec 32 := 0x0200
def taskNew : BitVec 32 := 0x0800

/-- What the scheduler reads of a task. -/
structure Task where
  /-- `__state`. -/
  state : BitVec 32
  /-- `se.vruntime`. -/
  vruntime : BitVec 64
  /-- `rt.time_slice`. -/
  timeSlice : BitVec 32
  /-- `TIF_NEED_RESCHED`. -/
  needResched : Bool

/-- The run queue of the processor with everything its functions use. -/
structure Rq where
  lists : DoubleList.Lists Node
  tasks : Tid → Task
  /-- `current` and `rq->curr`. -/
  current : Tid
  idle : Tid
  jiffies : BitVec 64
  lastJiffies : BitVec 64
  /-- What is read as `se.vruntime` when the anchor is taken for a task. -/
  stray : BitVec 64
  /-- The tasks that have been woken for the first time. -/
  live : Tid → Bool

namespace Rq

section

variable (s : Rq)

def setTask (t : Tid) (task : Task) : Rq :=
  { s with tasks := Function.update s.tasks t task }

def setState (t : Tid) (state : BitVec 32) : Rq :=
  s.setTask t { s.tasks t with state }

/-! ## Waking up -/

/-- `set_task_cpu` (`scheduler_core.c:32-90`). -/
def setTaskCpu (p : Tid) : Option Rq := do
  let s := s.setState p taskRunning
  let found ← listHeaderContains (s.lists.count .anchor + 1) s.lists .anchor (.task p)
  if found then some s
  else
    let lists ← listHeaderAddToHead s.lists .anchor (.task p)
    some { s with lists }

/-- `try_to_wake_up` (`scheduler_core.c:264-420`): the state of the task is not looked at. -/
def tryToWakeUp (p : Tid) : Option Rq :=
  if p = s.current then some (s.setState p taskRunning)
  else (s.setState p taskWaking).setTaskCpu p

/-- `wake_up_process` (`scheduler_core.c:493-496`). -/
def wakeUpProcess (p : Tid) : Option Rq := s.tryToWakeUp p

/-- `wake_up_state` (`scheduler_core.c:499-502`): the mask is not looked at, and `success` is never
set. -/
def wakeUpState (p : Tid) (_state : BitVec 32) : Option (Int × Rq) :=
  (s.tryToWakeUp p).map (0, ·)

/-- `wake_up_new_task` (`scheduler_core.c:621-659`). -/
def wakeUpNewTask (p : Tid) : Option Rq := do
  let s := s.setState p taskRunning
  let lists ← listHeaderAddToHead s.lists .anchor (.task p)
  some { s with lists, live := Function.update s.live p true }

end

/-! ## Choosing the next task -/

/-- The loop over `tmp_list`: `tmp_rt` is never moved along, so the tasks it compares are the same
in every turn; `later` is how they compare. -/
def findPlace (lists : DoubleList.Lists Node) (later : Bool) : Nat → Ptr Node → Option Node
  | fuel + 1, .node n =>
    if later = true ∧ n ≠ .anchor then findPlace lists later fuel (lists.next n) else some n
  | _, _ => none

/-- `se.vruntime` of the task that `tmp_rt` belongs to. -/
def firstVruntime (s : Rq) : BitVec 64 :=
  match s.lists.next .anchor with
  | .node (.task t) => (s.tasks t).vruntime
  | _ => s.stray

/-- The current task goes back to the run queue; `count` is written without the list function in the
second case. -/
def requeue (s : Rq) : Option Rq := do
  if s.current = s.idle then
    let lists ← listHeaderAddToTail s.lists .anchor (.task s.current)
    some { s with lists }
  else
    let later := decide (s.firstVruntime < (s.tasks s.current).vruntime)
    let place ← findPlace s.lists later (s.lists.count .anchor + 1) (s.lists.next .anchor)
    let lists ← listAddToPrev s.lists (.task s.current) place
    some { s with lists := setCount lists .anchor (lists.count .anchor + 1) }

def putBack (s : Rq) : Option Rq :=
  if (s.tasks s.current).state = taskRunning then s.requeue else some s

/-- What `pick_next_task_myos` (`myos_rt.c:3-55`) charges to the current task. -/
def account (s : Rq) : Rq :=
  let curr := s.tasks s.current
  let s' :=
    if s.current = s.idle then s
    else s.setTask s.current { curr with vruntime := curr.vruntime + (s.jiffies - s.lastJiffies) }
  { s' with lastJiffies := s.jiffies }

/-- `pick_next_task_myos` (`myos_rt.c:3-55`). -/
def pickNextTask (s : Rq) : Option (Tid × Rq) :=
  let curr := s.tasks s.current
  let usedJiffies := s.jiffies - s.lastJiffies
  if (s.current = s.idle ∨ curr.timeSlice.toNat ≤ usedJiffies.toNat ∨ curr.state ≠ taskRunning) ∧
      0 < s.lists.count .anchor then
    match listHeaderRemoveHead s.lists .anchor with
    | some (some (.task next), lists) => do
      let s := { s with lists }
      let s ← s.putBack
      some (next, s.account)
    | _ => none
  else some (s.current, s)

/-- `SM_NONE` and `SM_PREEMPT`. -/
inductive SchedMode
  | none
  | preempt

def clearTskNeedResched (s : Rq) (t : Tid) : Rq :=
  s.setTask t { s.tasks t with needResched := false }

/-- `__schedule` (`scheduler_core.c:1075-1201`) up to the point where the next task has the
processor. The mode is not looked at. -/
def schedule (_mode : SchedMode) (s : Rq) : Option Rq := do
  let prev := s.current
  let (next, s) ← s.pickNextTask
  some { s.clearTskNeedResched prev with current := next }

/-- The loop of `preempt_schedule_common` (`scheduler_core.c:1314-1342`) as far as it runs before
another task has the processor. -/
def preemptLoop : Nat → Rq → Option Rq
  | 0, _ => none
  | fuel + 1, s => do
    let s' ← s.schedule .preempt
    if s'.current = s.current ∧ (s'.tasks s.current).needResched then preemptLoop fuel s'
    else some s'

def preemptScheduleCommon (s : Rq) : Option Rq := preemptLoop 2 s

/-! ## Steps -/

/-- The calls that reach the run queue. -/
inductive Op
  | wakeUpNewTask (p : Tid)
  | wakeUpProcess (p : Tid)
  /-- `__set_current_state`. -/
  | setCurrentState (state : BitVec 32)
  | tick
  | schedule (mode : SchedMode)

def step (s : Rq) : Op → Option (Unit × Rq)
  | .wakeUpNewTask p => (s.wakeUpNewTask p).map ((), ·)
  | .wakeUpProcess p => (s.wakeUpProcess p).map ((), ·)
  | .setCurrentState state => some ((), s.setState s.current state)
  | .tick => some ((), { s with jiffies := s.jiffies + 1 })
  | .schedule mode => (s.schedule mode).map ((), ·)

/-- A new task is woken once, and only tasks that are there are woken later. -/
def Ok (s : Rq) : Op → Prop
  | .wakeUpNewTask p => s.live p = false ∧ (s.tasks p).state = taskNew
  | .wakeUpProcess p => s.live p = true
  | _ => True

instance (s : Rq) : (op : Op) → Decidable (s.Ok op)
  | .wakeUpNewTask p => inferInstanceAs (Decidable (s.live p = false ∧ _))
  | .wakeUpProcess p => inferInstanceAs (Decidable (s.live p = true))
  | .setCurrentState _ => inferInstanceAs (Decidable True)
  | .tick => inferInstanceAs (Decidable True)
  | .schedule _ => inferInstanceAs (Decidable True)

/-- The idle task is current and no other task can run. -/
structure Start (s : Rq) : Prop where
  next : s.lists.next .anchor = .node .anchor
  prev : s.lists.prev .anchor = .node .anchor
  count : s.lists.count .anchor = 0
  current : s.current = s.idle
  idle : (s.tasks s.idle).state = taskRunning
  live : s.live s.idle = true
  others : ∀ t, t ≠ s.idle → (s.tasks t).state ≠ taskRunning

end Rq

end MyOS2.Scheduler
