import MyOS2.Lib.DoubleList
import Mathlib.Algebra.Group.Nat.Defs
import MyOS2.Misc.Runs

/-!
# Completions (`kactive/completion.c`, `kactive/swait.c`)

A completion counts the calls of `complete` that no waiter has used up yet. A waiter that finds
none queues a node of its own stack on the list of the completion, drops the lock and calls
`schedule`; it looks again when it runs the next time, whatever made it run.

A step is a region that holds the lock of the completion. A task has at most one wait under way.
-/

namespace MyOS2.Completion

open Function DoubleList

abbrev Tid := Nat

/-- The nodes of the wait list: the anchor in `swqueue_hdr_s`, and `task_list` of the `swqueue_s` on
the stack of a task. -/
inductive Node
  | anchor
  | wait (t : Tid)
  deriving DecidableEq

def uintMax : Nat := 2 ^ 32 - 1

/-- A completion, its waiters, and some history. -/
structure State where
  lists : DoubleList.Lists Node
  done : Nat
  /-- `__state` of the task is `TASK_RUNNING`. -/
  running : Tid → Bool
  /-- The task is in `do_wait_for_common`, between two regions with the lock. -/
  waiting : Tid → Bool
  /-- History: `swake_up_locked` has taken the task off the list since it queued
      itself last. -/
  woken : Tid → Bool
  /-- History: the calls of `complete`, and the waits that have used one up. -/
  completes : Nat
  consumed : Nat

namespace State

section

variable (s : State)

/-- `swake_up_locked` (`swait.c:20-29`): the waiter at the tail is woken. -/
def swakeUpLocked : Option State :=
  if s.lists.count .anchor = 0 then some s
  else
    match listHeaderRemoveTail s.lists .anchor with
    | some (some (.wait t), lists) =>
      some { s with
        lists
        running := update s.running t true
        woken := update s.woken t true }
    | _ => none

/-- `swake_up_all_locked` (`swait.c:38-41`), for `fuel` rounds at most. `q` is the address of the
queue, and the loop tests the address of the counter, `0x18` bytes behind it. -/
def swakeUpAllLocked (q : Nat) : Nat → State → Option State
  | 0, _ => none
  | fuel + 1, s => if q + 0x18 ≠ 0 then s.swakeUpLocked.bind (swakeUpAllLocked q fuel) else some s

/-- `complete` (`completion.c:29-37`). -/
def complete : Option State :=
  let s := { s with completes := s.completes + 1 }
  if s.done ≠ uintMax then swakeUpLocked { s with done := s.done + 1 } else swakeUpLocked s

section

variable (t : Tid)

/-- `__prepare_to_swait` (`swait.c:44-48`). -/
def prepareToSwait : Option State :=
  if listIsEmptyEntry s.lists (.wait t) then do
    let lists ← listHeaderAddToTail s.lists .anchor (.wait t)
    some { s with lists, woken := update s.woken t false }
  else some s

/-- `__finish_swait` (`swait.c:50-54`). -/
def finishSwait : Option State :=
  let s := { s with running := update s.running t true }
  if listIsEmptyEntry s.lists (.wait t) then some s
  else do
    let lists ← listHeaderDeleteNode (s.lists.count .anchor + 1) s.lists .anchor (.wait t)
    some { s with lists }

/-- The task queues itself and writes its state; then it drops the lock and sleeps. -/
def goToSleep : Option State := do
  let s ← s.prepareToSwait t
  some { s with
    running := update s.running t false
    waiting := update s.waiting t true }

/-- A call of `complete` is used up, and the wait is over. -/
def consume : State :=
  { s with
    done := if s.done ≠ uintMax then s.done - 1 else s.done
    waiting := update s.waiting t false
    consumed := s.consumed + 1 }

/-- `wait_for_completion` (`completion.c:87-89`) up to the first `schedule`, or to the end if there
is nothing to wait for. -/
def waitForCompletion : Option State :=
  if s.done = 0 then goToSleep { s with lists := initList s.lists (.wait t) } t
  else some (s.consume t)

/-- The task is back from `schedule_timeout`, which gives `MAX_SCHEDULE_TIMEOUT` back: it sleeps
again, or the wait is over. -/
def wakeUp : Option State :=
  if s.done = 0 then s.goToSleep t
  else do
    let s ← s.finishSwait t
    some (s.consume t)

end

end

/-- The regions with the lock, and the wake-ups. -/
inductive Op
  | complete
  | waitForCompletion (t : Tid)
  | wakeUp (t : Tid)
  /-- Somebody else calls `wake_up_process`. -/
  | wakeUpProcess (t : Tid)

def step (s : State) : Op → Option (Unit × State)
  | .complete => s.complete.map ((), ·)
  | .waitForCompletion t => (s.waitForCompletion t).map ((), ·)
  | .wakeUp t => (s.wakeUp t).map ((), ·)
  | .wakeUpProcess t => some ((), { s with running := update s.running t true })

/-- Tasks start to wait and go on waiting; `schedule` may come back to a task nobody has woken.
There are fewer than `UINT_MAX` calls of `complete`. -/
def Ok (s : State) : Op → Prop
  | .complete => s.completes + 1 < uintMax
  | .waitForCompletion t => s.waiting t = false
  | .wakeUp t => s.waiting t = true
  | .wakeUpProcess _ => True

/-- As `init_completion` leaves it. -/
structure Start (s : State) : Prop where
  next : s.lists.next .anchor = .node .anchor
  prev : s.lists.prev .anchor = .node .anchor
  count : s.lists.count .anchor = 0
  done : s.done = 0
  waiting : ∀ t, s.waiting t = false
  completes : s.completes = 0
  consumed : s.consumed = 0

end State

end MyOS2.Completion
