import MyOS2.Sched.ContextSwitch

/-!
# The life of an address space (`sched/forkexec`, `sched/scheduler`)

An `mm_s` comes from `clone` or `exec`, tasks use it as `mm` or borrow it as
`active_mm`, and `mmput` or `mmdrop` should take it away in the end. There is room
for `n` tasks; which slot a new task gets, and where an allocation fails, are inputs.
`none` is a call that does not come back.
-/

namespace MyOS2.ContextSwitch

open Function

def initMm : Mm := 0

/-- Tasks and address spaces, with the history of these. -/
structure Life (n : Nat) extends State n where
  /-- The task has been made and has not called `do_exit`. -/
  alive : Fin n → Bool
  /-- There are user pages in the page tables. -/
  mapped : Mm → Bool
  /-- How often the page directory and the `mm_s` were freed. -/
  released : Mm → Nat
  /-- The name of the `mm_s` that is allocated next. -/
  nextMm : Mm

/-- How a clone ends. -/
inductive CloneResult (n : Nat)
  /-- There is no memory for an `mm_s` or its page directory. -/
  | noMm
  /-- `dup_mmap` fails. -/
  | dupFails
  /-- A later step of `copy_process` fails. -/
  | laterFails
  | done (child : Fin n)

/-- How an exec ends. -/
inductive ExecResult
  /-- There is no memory for an `mm_s` or its page directory. -/
  | noMm
  /-- `__bprm_mm_init` fails. -/
  | noStack
  /-- The call fails before `exec_mmap`. -/
  | early
  | done

namespace Life
variable {n : Nat}

/-! ## References -/

section

variable (s : Life n)

def setUsers (m : Mm) (users : Nat) : Life n :=
  { s with mmUsers := update s.mmUsers m users }

def setMapped (m : Mm) (mapped : Bool) : Life n :=
  { s with mapped := update s.mapped m mapped }

def setMm (t : Fin n) (m : Option Mm) : Life n :=
  { s with mm := update s.mm t m, activeMm := update s.activeMm t m }

/-- `mm_alloc` (`fork.c:421-430`) and `mm_init` (`fork.c:362-416`). -/
def mmAlloc : Life n :=
  { (s.setUsers s.nextMm 1).setMapped s.nextMm false with nextMm := s.nextMm + 1 }

/-- `mmput`: all that `__mmput` (`fork.c:432-450`) should do is commented out. -/
def mmput (m : Mm) : Life n := s.setUsers m (s.mmUsers m - 1)

/-- `mmdrop` (`fork.c:257-269`): no counter is looked at; it spins for `init_mm`. -/
def mmdrop (m : Mm) : Option (Life n) :=
  if m = initMm then none
  else some { s with released := update s.released m (s.released m + 1) }

/-! ## The calls -/

/-- `copy_mm` (`fork.c:676-699`) with `dup_mm`, and the rest of `copy_process` as far as it touches
address spaces. -/
def clone (vm : Bool) (r : CloneResult n) : Life n :=
  match s.mm s.curr with
  | none =>
    match r with
    | .done child =>
      { s.setMm child none with
        alive := update s.alive child true
        started := update s.started child false }
    | _ => s
  | some old =>
    if vm then
      let s := s.setUsers old (s.mmUsers old + 1)
      match r with
      | .done child =>
        { s.setMm child (some old) with
          alive := update s.alive child true
          started := update s.started child false }
      | _ => s.mmput old
    else
      let new := s.nextMm
      match r with
      | .noMm => s
      | .done child =>
        { (s.mmAlloc.setMapped new (s.mapped old)).setMm child (some new) with
          alive := update s.alive child true
          started := update s.started child false }
      | _ => (s.mmAlloc.setMapped new (s.mapped old)).mmput new

/-- `exec_mmap` (`exec.c:621-682`). -/
def execMmap (new : Mm) : Option (Life n) :=
  let oldMm := s.mm s.curr
  let activeMm := s.activeMm s.curr
  let s := s.setMm s.curr (some new)
  match oldMm with
  | some old => if activeMm = some old then some (s.mmput old) else none
  | none => activeMm.bind s.mmdrop

/-- `do_execveat_common` (`exec.c:1290-1372`) as far as it touches address spaces. With `adopt` it
is the call of `kjmp_to_doexecve`: the kernel thread takes `active_mm` for its `mm`, and does not
look at an error. -/
def execve (adopt : Bool) (r : ExecResult) : Option (Life n) :=
  let new := s.nextMm
  let own := if adopt then s.setMm s.curr (s.activeMm s.curr) else s
  match r with
  | .done => (own.mmAlloc.setMapped new true).execMmap new
  | .noMm => if adopt then none else some s
  | .noStack => if adopt then none else s.mmAlloc.mmdrop new
  | .early => if adopt then none else some ((s.mmAlloc.setMapped new true).mmput new)

/-- `context_switch` (`scheduler_core.c:818-885`), which frees no address space. -/
def switchTo (next : Fin n) : Option (Life n) :=
  (s.toState.contextSwitch next).map fun t => { s with toState := t }

/-- `do_exit` (`exit.c:68-186`): `exit_mm` is commented out. -/
def doExit (next : Fin n) : Option (Life n) :=
  { s with alive := update s.alive s.curr false }.switchTo next

end

/-- The calls of the current task. -/
inductive Op (n : Nat)
  | switch (next : Fin n)
  | clone (vm : Bool) (r : CloneResult n)
  | exec (adopt : Bool) (r : ExecResult)
  | exit (next : Fin n)

section

variable (s : Life n)

def step : Op n → Option (Unit × Life n)
  | .switch next => (s.switchTo next).map ((), ·)
  | .clone vm r => some ((), s.clone vm r)
  | .exec adopt r => (s.execve adopt r).map ((), ·)
  | .exit next => (s.doExit next).map ((), ·)

/-- The scheduler takes another task that is alive, a new task gets an empty slot, and only a kernel
thread adopts what it has borrowed. -/
def Ok : Op n → Prop
  | .switch next => next ≠ s.curr ∧ s.alive next = true
  | .clone _ (.done child) => s.alive child = false
  | .clone _ _ => True
  | .exec adopt _ => adopt = true → s.mm s.curr = none
  | .exit next => next ≠ s.curr ∧ s.alive next = true

/-! ## What is promised -/

/-- A task that is alive has the address space as its own. -/
def HasUser (m : Mm) : Prop := ∃ t, s.alive t = true ∧ s.mm t = some m

/-- A task that is alive has or borrows the address space; the processor's is that of the current
task. -/
def InUse (m : Mm) : Prop :=
  ∃ t, s.alive t = true ∧ (s.mm t = some m ∨ s.activeMm t = some m)

def Made (m : Mm) : Prop := m ≠ initMm ∧ m < s.nextMm

end

/-- Address spaces are released once, and not before and not after nobody uses them any more;
without a user they have no user pages. -/
structure Lifetime (s : Life n) : Prop where
  once : ∀ m, s.released m ≤ 1
  safe : ∀ m, 0 < s.released m → ¬ s.InUse m
  freed : ∀ m, s.Made m → ¬ s.InUse m → s.released m = 1
  torn : ∀ m, s.Made m → ¬ s.HasUser m → s.mapped m = false

/-- Before the first call: user tasks have address spaces with user pages, and only the current task
may be a kernel thread that borrows one. -/
structure Start (s : Life n) : Prop where
  curr : s.alive s.curr = true
  borrowed : ∃ m, s.activeMm s.curr = some m
  user : ∀ t m, s.mm t = some m → s.activeMm t = some m
  kernel : ∀ t, t ≠ s.curr → s.mm t = none → s.activeMm t = none
  named : ∀ t m, s.mm t = some m → s.Made m
  active : ∀ t m, s.activeMm t = some m → m = initMm ∨ s.Made m
  next : 0 < s.nextMm
  owned : ∀ m, s.Made m → s.HasUser m ∧ s.mapped m = true
  unreleased : ∀ m, s.released m = 0

/-- No address space loses its last user or is given up unused, and no kernel thread executes a
program without adopting an address space first. -/
def KeepsUsers (s : Life n) : Op n → Prop
  | .switch _ => True
  | .clone vm r =>
    s.mm s.curr = none ∨ vm = true ∨ r = .noMm ∨ ∃ child, r = .done child
  | .exec _ .noMm => True
  | .exec _ .noStack => True
  | .exec _ .early => False
  | .exec adopt .done =>
    match s.mm s.curr with
    | some m => ∃ t, t ≠ s.curr ∧ s.alive t = true ∧ s.mm t = some m
    | none => adopt = true
  | .exit _ =>
    ∀ m, s.mm s.curr = some m → ∃ t, t ≠ s.curr ∧ s.alive t = true ∧ s.mm t = some m

end Life

end MyOS2.ContextSwitch
