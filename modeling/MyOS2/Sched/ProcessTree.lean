import MyOS2.Misc.Runs
import MyOS2.Sched.CloneFlags

/-!
# The process tree (`sched/forkexec/fork.c`, `sched/forkexec/exit.c`)

The tree is kept twice: every task points to its parent with `real_parent`, and
is linked through its field `sibling` on the list `children` of a task.
`kernel_clone` adds a task to both, `do_exit` hands the children of the task
that ends over to the task with pid 1.

A task is named by the address of its `task_s`. The links of a list are those
of `DoubleList`; here a list of children is the sequence of its tasks.
-/

namespace MyOS2.Fork

open Function

abbrev Addr := Nat

def initTask : Addr := 0

/-- The fields of all tasks that the tree is made of, by address, and the flag `SIGNAL_UNKILLABLE`
of all signal structures. -/
structure Tasks where
  isTask : Addr → Bool
  pid : Addr → Nat
  signal : Addr → Addr
  exitSignal : Addr → Int
  realParent : Addr → Addr
  children : Addr → List Addr
  /-- `__state` is `TASK_DEAD`. -/
  dead : Addr → Bool
  unkillable : Addr → Bool

def Tasks.boot : Tasks where
  isTask t := t == initTask
  pid _ := 0
  signal _ := initTask
  exitSignal _ := 0
  realParent _ := initTask
  children _ := []
  dead _ := false
  unkillable _ := false

namespace Tasks

/-- `thread_group_leader` (`signal.h:203-206`). -/
def threadGroupLeader (s : Tasks) (p : Addr) : Bool := decide (0 ≤ s.exitSignal p)

def addToTail (s : Tasks) (parent child : Addr) : Option Tasks :=
  if s.isTask parent then
    some { s with children := update s.children parent (s.children parent ++ [child]) }
  else none

def removeHead (s : Tasks) (tsk : Addr) : Option Addr × Tasks :=
  match s.children tsk with
  | [] => (none, s)
  | child :: rest => (some child, { s with children := update s.children tsk rest })

/-- What the allocators and the other copying steps give a new task: its structures, and its number
in the first namespace (`pid_nr`), in its own (`numbers[level].nr`) and in that of its creator
(`pid_vnr`). -/
structure Grant where
  task : Addr
  signal : Addr
  nr : Nat
  levelNr : Nat
  vnr : Nat

/-- `kclone_args_s`. -/
structure CloneArgs where
  flags : CloneFlags
  /-- `args->pidfd == args->parent_tid`. -/
  samePidfd : Bool

/-- `dup_task_struct` (`fork.c:272-357`), `copy_signal` and the lines that set the new task up.
`exit_signal` stays what it was: the assignments to it are commented out. -/
def dupTask (s : Tasks) (current : Addr) (flags : CloneFlags) (g : Grant) : Tasks where
  isTask := update s.isTask g.task true
  pid := update s.pid g.task g.nr
  signal := update s.signal g.task (if flags.has cloneThread then s.signal current else g.signal)
  exitSignal := update s.exitSignal g.task (s.exitSignal current)
  realParent := update s.realParent g.task
    (if flags.has (cloneParent ||| cloneThread) then s.realParent current else current)
  children := update s.children g.task []
  dead := update s.dead g.task false
  unkillable := if flags.has cloneThread then s.unkillable else update s.unkillable g.signal false

/-- `is_child_reaper (pid)`: the new task is the first of its namespace. -/
def markReaper (s : Tasks) (g : Grant) : Tasks :=
  if g.levelNr = 1 then
    { s with unkillable := update s.unkillable (s.signal g.task) true }
  else s

/-- The part of `copy_process` (`fork.c:866-1432`) that links the new task. -/
def linkTask (s : Tasks) (g : Grant) : Option Tasks :=
  if s.pid g.task ≠ 0 ∧ s.threadGroupLeader g.task then
    (s.markReaper g).addToTail (s.realParent g.task) g.task
  else some s

section

variable (s : Tasks) (current : Addr) (args : CloneArgs) (otherPidNs : Bool)
  (granted : Except Int Grant)

/-- `copy_process` (`fork.c:866-1432`). `granted` is what the steps on other resources come to; when
one fails, everything done for the new task is taken back and its error returned. -/
def copyProcess : Option (Int × Tasks) :=
  if flagsRefused args.flags (s.unkillable (s.signal current)) otherPidNs then
    some (-einval, s)
  else
    match granted with
    | .error e => some (e, s)
    | .ok g => do
      let s ← (s.dupTask current args.flags g).linkTask g
      some (g.vnr, s)

/-- `kernel_clone` (`fork.c:1443-1529`). -/
def kernelClone : Option (Int × Tasks) :=
  if args.flags.has clonePidfd ∧ args.flags.has cloneParentSettid ∧ args.samePidfd then
    some (-einval, s)
  else s.copyProcess current args otherPidNs granted

end

/-- The loop of `exit_notify` (`exit.c:15-65`): the children go to the list of the task found. A
loop that is not done after `fuel` children does not end. -/
def exitNotifyLoop (tsk : Addr) (initd : Option Addr) : Nat → Tasks → Option Tasks
  | fuel, s =>
    match s.removeHead tsk with
    | (none, s) => some s
    | (some child, s) =>
      match fuel, initd with
      | fuel + 1, some i => do
        let s ← s.addToTail i child
        exitNotifyLoop tsk initd fuel s
      | _, _ => none

/-- `exit_notify` (`exit.c:15-65`). `initd` is what `find_task_by_pid_ns (1, PIDTYPE_PID)` gives:
the number 0 of `PIDTYPE_PID` stands where the namespace belongs, so the search goes through a null
pointer. -/
def exitNotify (s : Tasks) (tsk : Addr) (initd : Option Addr) : Option Tasks :=
  exitNotifyLoop tsk initd (s.children tsk).length s

/-- `do_exit` (`exit.c:68-186`) and `do_task_dead` (`scheduler_core.c:1203-1218`). -/
def doExit (s : Tasks) (tsk : Addr) (initd : Option Addr) : Option Tasks := do
  let s ← s.exitNotify tsk initd
  some { s with dead := update s.dead tsk true }

/-- The calls that change the tree, each made by a task. -/
inductive Op where
  | clone (current : Addr) (args : CloneArgs) (otherPidNs : Bool) (granted : Except Int Grant)
  | exit (current : Addr) (initd : Option Addr)

def step (s : Tasks) : Op → Option (Int × Tasks)
  | .clone current args otherPidNs granted => s.kernelClone current args otherPidNs granted
  | .exit current initd => (s.doExit current initd).map fun s => (0, s)

/-- There is such a task, and it has not ended. -/
def Live (s : Tasks) (t : Addr) : Prop := s.isTask t = true ∧ s.dead t = false

/-- Only a live task calls; a new task gets memory that holds no task (a dead one is never freed)
and, from `alloc_pid`, a number that is not 0. -/
def Ok (s : Tasks) : Op → Prop
  | .clone current _ _ granted =>
    s.Live current ∧ ∀ g, granted = .ok g → s.isTask g.task = false ∧ g.nr ≠ 0
  | .exit current _ => s.Live current

end Tasks

end MyOS2.Fork
