import MyOS2.Lib.Idr
import MyOS2.Misc.Runs

/-!
# Pid numbers (`sched/task/pid.c`)

`alloc_pid` reserves a number in the namespace of the new task and in each
namespace around it, every one in a critical section of its own, and publishes
them all in a last one. Calls on other cpus run between these sections, so each
section is a step here.
-/

namespace MyOS2.PidAlloc

open Function Idr

abbrev NsId := Nat
abbrev PidId := Nat

/-- `PIDNS_ADDING` and `RESERVED_PIDS`. -/
def pidnsAdding : Nat := 2 ^ 31

@[inherit_doc pidnsAdding]
def reservedPids : Nat := 300

def eagain : Int := 11
def enomem : Int := 12
def eexist : Int := 17

/-- `pid_ns_s`; `childReaper` is whether that pointer is set. -/
structure PidNs where
  idr : IdrS
  pidAllocated : Nat
  childReaper : Bool

/-- `upid_s`. -/
structure Upid where
  nr : Nat
  ns : NsId
  deriving DecidableEq

/-- A call of `alloc_pid` that has not returned: `todo` levels, from that of `tmp` on, have no
number yet. `numbers` is in the order of levels. -/
structure Alloc where
  ns : NsId
  tmp : NsId
  todo : Nat
  setTid : List Int
  numbers : List Upid

/-- How far a call of `alloc_pid` has come with a pid. -/
inductive Status
  | free
  | reserving (a : Alloc)
  /-- On the way to the label `out_free`. -/
  | failed (a : Alloc) (retval : Int)
  /-- In `put_pid_ns` for a nested namespace, from which it does not come back. -/
  | stuck (a : Alloc)
  /-- Returned by `alloc_pid`, not yet passed to `free_pid`. -/
  | published (numbers : List Upid)

def Status.numbers : Status → List Upid
  | .free => []
  | .reserving a | .failed a _ | .stuck a => a.numbers
  | .published numbers => numbers

/-- Those of them that only a `NULL` in the table stands for. -/
def Status.unpublished : Status → List Upid
  | .reserving a | .failed a _ | .stuck a => a.numbers
  | .free | .published _ => []

def initPidNs : NsId := 0

/-- Behind the label `out_unlock`. The loop of `put_pid_ns` (`pid_namespace.c:110-121`) has an empty
body, so it ends for `init_pid_ns` only. -/
def Alloc.outUnlock (a : Alloc) : Status :=
  if a.ns = initPidNs then .failed a (-enomem) else .stuck a

/-- The namespaces and the pids. `live` are the published pids; `emptied` tells of a namespace that
a call of `free_pid` has left it without any. -/
structure State where
  parent : NsId → NsId
  level : NsId → Nat
  pidMax : Int
  spaces : NsId → PidNs
  pid : PidId → Status
  live : List PidId
  emptied : NsId → Bool

/-- The address of a pid, which is not `NULL`. -/
def ptr (p : PidId) : Nat := p + 1

def eachUpid (f : Nat → PidNs → Option PidNs) :
    List Upid → (NsId → PidNs) → Option (NsId → PidNs)
  | [], spaces => some spaces
  | u :: us, spaces => do
    let ns ← f u.nr (spaces u.ns)
    eachUpid f us (update spaces u.ns ns)

/-- A turn of the loop of `alloc_pid` that publishes (`pid.c:275-279`). -/
def publishUpid (p : PidId) (nr : Nat) (ns : PidNs) : Option PidNs := do
  let (_, idr) ← idrReplace ns.idr (ptr p) nr
  some { ns with idr, pidAllocated := (ns.pidAllocated + 1) % 2 ^ 32 }

/-- A turn of the loop of `alloc_pid` behind `out_free` (`pid.c:290-293`). -/
def removeUpid (nr : Nat) (ns : PidNs) : Option PidNs := do
  let (_, idr) ← idrRemove ns.idr nr
  some { ns with idr }

/-- The first pid of the namespace could not be allocated. -/
def resetCursor (n : NsId) (spaces : NsId → PidNs) : NsId → PidNs :=
  let ns := spaces n
  if ns.pidAllocated = pidnsAdding then
    update spaces n { ns with idr := { ns.idr with idrNext := 0 } }
  else spaces

def dropAllocated (ns : PidNs) : Option PidNs :=
  let pidAllocated := (ns.pidAllocated + 2 ^ 32 - 1) % 2 ^ 32
  if pidAllocated = 2 ∨ pidAllocated = 1 then
    -- `wake_up_process` reads the task it is given
    if ns.childReaper then some { ns with pidAllocated } else none
  else if pidAllocated = pidnsAdding then some { ns with pidAllocated := 0 }
  else some { ns with pidAllocated }

/-- A turn of the loop of `free_pid` (`pid.c:133-152`). -/
def freeUpid (nr : Nat) (ns : PidNs) : Option PidNs := do
  let ns ← dropAllocated ns
  removeUpid nr ns

namespace State

def setPid (s : State) (p : PidId) (status : Status) : State :=
  { s with pid := update s.pid p status }

/-- `alloc_pid` (`pid.c:161-304`). -/
def allocPid (s : State) (p : PidId) (ns : NsId) (setTid : List Int) :
    Option (Except Int PidId) × State :=
  if s.level ns + 1 < setTid.length then (some (.error (-einval)), s)
  else
    (none, s.setPid p (.reserving { ns, tmp := ns, todo := s.level ns + 1, setTid, numbers := [] }))

/-- What a round of `alloc_pid` keeps of the number it has reserved (`pid.c:245-248`). -/
def enter (s : State) (p : PidId) (a : Alloc) (nr : Int) (idr : IdrS) : State :=
  let s := { s with spaces := update s.spaces a.tmp { s.spaces a.tmp with idr } }
  if nr < 0 then s.setPid p (.failed a (if nr = -enospc then -eagain else nr))
  else
    s.setPid p (.reserving { a with
      numbers := ⟨nr.toNat, a.tmp⟩ :: a.numbers, tmp := s.parent a.tmp, todo := a.todo - 1 })

/-- The least number that `alloc_pid` tries (`pid.c:222-228`). -/
def pidMin (ns : PidNs) : Nat := if reservedPids < ns.idr.idrNext then reservedPids else 1

section

variable (s : State) (p : PidId) (a : Alloc)

/-- A round of the loop of `alloc_pid` (`pid.c:161-304`) over the levels. -/
def reserve : Option State :=
  let ns := s.spaces a.tmp
  match a.setTid with
  | tid :: setTid =>
    if tid < 1 ∨ s.pidMax ≤ tid then some (s.setPid p (.failed a (-einval)))
    else if tid ≠ 1 ∧ ns.childReaper = false then some (s.setPid p (.failed a (-einval)))
    else do
      let (nr, idr) ← idrAlloc ns.idr 0 tid (tid + 1)
      some (s.enter p { a with setTid } (if nr = -enospc then -eexist else nr) idr)
  | [] => do
    let (nr, idr) ← idrAllocCyclic ns.idr 0 (pidMin ns) s.pidMax
    some (s.enter p a nr idr)

/-- The last section of `alloc_pid` (`pid.c:257-286`). -/
def publish : Option (Option (Except Int PidId) × State) :=
  if (s.spaces a.ns).pidAllocated &&& pidnsAdding = 0 then
    some (none, s.setPid p a.outUnlock)
  else do
    let spaces ← eachUpid (publishUpid p) a.numbers.reverse s.spaces
    some (some (.ok p),
      { s.setPid p (.published a.numbers) with spaces, live := p :: s.live })

/-- From the label `out_free` on (`pid.c:288-303`). -/
def outFree (retval : Int) : Option (Option (Except Int PidId) × State) := do
  let spaces ← eachUpid removeUpid a.numbers s.spaces
  some (some (.error retval), { s.setPid p .free with spaces := resetCursor a.ns spaces })

end

def visible (s : State) (n : NsId) (p : PidId) : Bool := (s.pid p).numbers.any (·.ns == n)

/-- `find_pid_ns` (`pid.c:306-308`). -/
def findPidNs (s : State) (nr : Nat) (n : NsId) : Option Nat := idrFind (s.spaces n).idr nr

/-- `free_pid` (`pid.c:126-159`) up to where it drops the lock. For a nested namespace `put_pid`,
which follows, does not come back, but changes nothing more. -/
def freePid (s : State) (p : PidId) (numbers : List Upid) : Option State := do
  let spaces ← eachUpid freeUpid numbers s.spaces
  let live := s.live.erase p
  let emptied := fun n => s.emptied n || (s.visible n p && !live.any (s.visible n))
  some { s.setPid p .free with spaces, live, emptied }

/-! ## Interleavings -/

/-- The critical sections of `alloc_pid` and `free_pid`. -/
inductive Op
  | allocPid (p : PidId) (ns : NsId) (setTid : List Int)
  | reserve (p : PidId)
  | publish (p : PidId)
  | outFree (p : PidId)
  | freePid (p : PidId)
  /-- The first task of a namespace is made its reaper, or the reaper is gone. -/
  | childReaper (n : NsId) (set : Bool)

/-- The struct pid that the section is about. -/
def Op.pid : Op → Option PidId
  | .allocPid p _ _ | .reserve p | .publish p | .outFree p | .freePid p => some p
  | .childReaper _ _ => none

/-- One critical section, with the result of the call of `alloc_pid` that it ends. -/
def step (s : State) : Op → Option (Option (Except Int PidId) × State)
  | .allocPid p ns setTid => some (s.allocPid p ns setTid)
  | .reserve p =>
    match s.pid p with
    | .reserving a => (s.reserve p a).map (none, ·)
    | _ => none
  | .publish p =>
    match s.pid p with
    | .reserving a => s.publish p a
    | _ => none
  | .outFree p =>
    match s.pid p with
    | .failed a retval => s.outFree p a retval
    | _ => none
  | .freePid p =>
    match s.pid p with
    | .published numbers => (s.freePid p numbers).map (none, ·)
    | _ => none
  | .childReaper n set =>
    some (none, { s with
      spaces := update s.spaces n { s.spaces n with childReaper := set } })

/-! ## A whole call -/

def nextOp (s : State) (p : PidId) : Op :=
  match s.pid p with
  | .reserving a => if a.todo = 0 then .publish p else .reserve p
  | _ => .outFree p

def sections (p : PidId) : Nat → State → Option (Except Int PidId × State)
  | 0, _ => none
  | n + 1, s =>
    match s.step (s.nextOp p) with
    | some (some r, s) => some (r, s)
    | some (none, s) => sections p n s
    | none => none

/-- `alloc_pid` (`pid.c:161-304`) with nobody else in between; `memory` is what `kmem_cache_alloc`
returns. -/
def allocPidCall (s : State) (memory : Option PidId) (ns : NsId) (setTid : List Int) :
    Option (Except Int PidId × State) :=
  if s.level ns + 1 < setTid.length then some (.error (-einval), s)
  else
    match memory with
    | none => some (.error (-enomem), s)
    | some p => sections p (s.level ns + 3) (s.allocPid p ns setTid).2

/-! ## Runs -/

/-- The sections of a call follow each other as in `alloc_pid`, and `free_pid` is for pids that it
has returned. -/
def Ok (s : State) : Op → Bool
  | .allocPid p _ _ => match s.pid p with | .free => true | _ => false
  | .reserve p => match s.pid p with | .reserving a => a.todo != 0 | _ => false
  | .publish p => match s.pid p with | .reserving a => a.todo == 0 | _ => false
  | .outFree p => match s.pid p with | .failed _ _ => true | _ => false
  | .freePid p => match s.pid p with | .published _ => true | _ => false
  | .childReaper _ _ => true

/-- Namespaces nested in any way, no number given out. -/
structure Start (s : State) : Prop where
  nested : ∀ n, s.level n ≠ 0 → s.level (s.parent n) + 1 = s.level n
  pidMax : s.pidMax < 2 ^ 31
  idr : ∀ n, (s.spaces n).idr = idrInit
  pidAllocated : ∀ n, (s.spaces n).pidAllocated = pidnsAdding
  pid : ∀ p, s.pid p = .free
  live : s.live = []
  emptied : ∀ n, s.emptied n = false

/-- The published pids that are visible in a namespace. -/
def visibleIn (s : State) (n : NsId) : Nat := s.live.countP (s.visible n)

end State

end MyOS2.PidAlloc
