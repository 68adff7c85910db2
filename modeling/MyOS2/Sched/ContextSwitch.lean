import MyOS2.Misc.Runs

/-!
# Address spaces in a context switch (`sched/scheduler/scheduler_core.c`)

A user task has an address space of its own in `mm` and `active_mm`. A kernel
thread has none, and while it runs it borrows the one that was loaded before, in
`active_mm`. There are `n` tasks; which of them `__schedule` takes is an input.
-/

namespace MyOS2.ContextSwitch

abbrev Mm := Nat

/-- The fields of the tasks, of their address spaces and of `rq_s` that `context_switch` works on.
-/
structure State (n : Nat) where
  curr : Fin n
  mm : Fin n → Option Mm
  activeMm : Fin n → Option Mm
  /-- `mm_users`. -/
  mmUsers : Mm → Nat
  /-- `rq->prev_mm`. -/
  prevMm : Option Mm
  /-- The task has had the processor before, so it comes back inside of
      `context_switch`; another one begins in `schedule_tail`. -/
  started : Fin n → Bool

namespace State
variable {n : Nat}

section

variable (s : State n)

def setActiveMm (t : Fin n) (m : Option Mm) : State n :=
  { s with activeMm := Function.update s.activeMm t m }

/-- `mmget` (`mm_misc.h:37-40`); there is nothing to count in `NULL`. -/
def mmget : Option Mm → Option (State n)
  | none => none
  | some m => some { s with mmUsers := Function.update s.mmUsers m (s.mmUsers m + 1) }

/-- `finish_task_switch` (`scheduler_core.c:707-788`): the address space that was left in `prev_mm`
is not dropped. -/
def finishTaskSwitch : State n := { s with prevMm := none }

def prepareSwitch (next : Fin n) : Option (State n) :=
  let prev := s.curr
  match s.mm next, s.mm prev with
  | none, some _ =>
    let s := s.setActiveMm next (s.activeMm prev)
    s.mmget (s.activeMm prev)
  | none, none => some ((s.setActiveMm next (s.activeMm prev)).setActiveMm prev none)
  | some _, none => some ({ s with prevMm := s.activeMm prev }.setActiveMm prev none)
  | some _, some _ => some s

/-- `context_switch` (`scheduler_core.c:818-885`). -/
def contextSwitch (next : Fin n) : Option (State n) := do
  let prev := s.curr
  let s ← s.prepareSwitch next
  let s := { s with curr := next, started := Function.update s.started prev true }
  some (if s.started next then s.finishTaskSwitch else s)

def step (next : Fin n) : Option (Unit × State n) :=
  (s.contextSwitch next).map ((), ·)

/-- `__schedule` calls `context_switch` for another task only. -/
def Ok (next : Fin n) : Prop := next ≠ s.curr

/-- The number of kernel threads that borrow the address space. -/
def borrowers (m : Mm) : Nat :=
  (List.finRange n).countP fun t => decide (s.mm t = none ∧ s.activeMm t = some m)

end

/-- Every address space has its own references and one for each borrower. -/
def Balanced (own : Mm → Nat) (s : State n) : Prop :=
  ∀ m, s.mmUsers m = own m + s.borrowers m

/-- Before the first switch: the address space of a user task is active and referenced, and only the
current task may borrow one. `own` are the references that do not come from borrowing. -/
structure Start (own : Mm → Nat) (s : State n) : Prop where
  balanced : s.Balanced own
  user : ∀ t m, s.mm t = some m → s.activeMm t = some m ∧ 0 < own m
  kernel : ∀ t, t ≠ s.curr → s.mm t = none → s.activeMm t = none
  curr : s.activeMm s.curr ≠ none

/-- A kernel thread gives the processor to a user task. -/
def LeavesLazy (s : State n) (next : Fin n) : Prop := s.mm s.curr = none ∧ s.mm next ≠ none

instance (s : State n) (next : Fin n) : Decidable (s.Ok next) := inferInstanceAs (Decidable (_ ≠ _))

end State

end MyOS2.ContextSwitch
