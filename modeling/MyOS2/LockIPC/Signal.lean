import Mathlib.Logic.Function.Basic

/-!
# Sending and dequeuing signals

The pending signals of a task (`lock_IPC/signal/signal.c`) are kept twice: as a set of signal
numbers and as a list of entries with their `siginfo`. A task has a list of its own and shares
one with its thread group. `kmem_cache_alloc` may fail, which a send is told.
-/

namespace MyOS2.Signal

/-- `kernel_siginfo_t`; `rest` stands for what `_sifields` holds beyond `si_pid` and `si_uid`. -/
structure Siginfo where
  signo : Nat
  errno : Int
  code : Int
  pid : Int
  uid : Int
  rest : Nat
  deriving DecidableEq

/-- `SI_USER` and `SI_KERNEL`. -/
def siUser : Int := 0

@[inherit_doc siUser]
def siKernel : Int := 0x80

def sigkill : Nat := 9

abbrev Sigset := BitVec 64

def sigmask (sig : Nat) : Sigset := 1 <<< (sig - 1)

/-- `SYNCHRONOUS_MASK` (`signal.c:114-116`): `SIGSEGV`, `SIGBUS`, `SIGILL`, `SIGTRAP`, `SIGFPE`,
`SIGSYS`. -/
def synchronousMask : Sigset :=
  sigmask 11 ||| sigmask 7 ||| sigmask 4 ||| sigmask 5 ||| sigmask 8 ||| sigmask 31

section

variable (set : Sigset) (sig : Nat)

/-- `sigaddset` (`signal.h:246-253`) and `sigdelset` for one word. -/
def sigaddset : Sigset := set ||| sigmask sig

/-- `sigdelset` (`signal.h:256-263`). -/
def sigdelset : Sigset := set &&& ~~~sigmask sig

/-- `sigismember` (`signal.h:266-273`). -/
def sigismember : Bool := set.getLsbD (sig - 1)

end

/-- `sigpending_s`. -/
structure Pending where
  signal : Sigset
  list : List Siginfo

/-- `ffz` (`bitops_arch.h:135-143`). -/
def ffz (word : BitVec 64) : Nat := (~~~word).ctz.toNat

/-- `next_signal` (`signal.c:118-162`). -/
def nextSignal (pending : Pending) (mask : Sigset) : Nat :=
  let x := pending.signal &&& ~~~mask
  if x ≠ 0 then
    let x := if x &&& synchronousMask ≠ 0 then x &&& synchronousMask else x
    ffz (~~~x) + 1
  else 0

/-- The loop of `collect_signal`: the first entry for the signal, and whether it met a second one.
-/
def scanList (sig : Nat) : List Siginfo → Option Siginfo → Option Siginfo × Bool
  | [], first => (first, false)
  | q :: rest, first =>
    if q.signo = sig then
      match first with
      | some first => (some first, true)
      | none => scanList sig rest (some q)
    else scanList sig rest first

/-- The information made up for a signal without an entry. -/
def bareInfo (sig : Nat) : Siginfo :=
  { signo := sig, errno := 0, code := siUser, pid := 0, uid := 0, rest := 0 }

/-- `collect_signal` (`signal.c:164-209`). -/
def collectSignal (sig : Nat) (pending : Pending) : Siginfo × Pending :=
  match scanList sig pending.list none with
  | (some first, true) =>
    (first, { pending with list := pending.list.eraseP fun q => q.signo = sig })
  | (some first, false) =>
    (first, { signal := sigdelset pending.signal sig
              list := pending.list.eraseP fun q => q.signo = sig })
  | (none, _) =>
    (bareInfo sig, { pending with signal := sigdelset pending.signal sig })

/-- `__dequeue_signal` (`signal.c:211-219`). -/
def dequeueFrom (pending : Pending) (mask : Sigset) (info : Siginfo) : Nat × Siginfo × Pending :=
  let sig := nextSignal pending mask
  if sig ≠ 0 then (sig, collectSignal sig pending) else (sig, info, pending)

/-- A task with its own and its shared pending signals. -/
structure Task where
  kthread : Bool
  pending : Pending
  sharedPending : Pending

/-- `PIDTYPE_PID`, or any other type, which stands for the thread group. -/
inductive PidType
  | pid
  | tgid
  deriving DecidableEq

/-- `dequeue_signal` (`signal.c:227-305`). -/
def dequeueSignal (tsk : Task) (mask : Sigset) (info : Siginfo) :
    Nat × Siginfo × PidType × Task :=
  let r := dequeueFrom tsk.pending mask info
  if r.1 ≠ 0 then (r.1, r.2.1, .pid, { tsk with pending := r.2.2 })
  else
    let r := dequeueFrom tsk.sharedPending mask info
    (r.1, r.2.1, .tgid, { tsk with sharedPending := r.2.2 })

/-- A synchronous signal, which has a positive `si_code`. -/
def synchronous (q : Siginfo) : Bool :=
  decide (siUser < q.code) && decide (sigmask q.signo &&& synchronousMask ≠ 0)

/-- `dequeue_synchronous_signal` (`signal.c:308-351`). The second loop starts at the head of the
list again, and so meets the entry it looks for another of. -/
def dequeueSynchronousSignal (pending : Pending) (blocked : Sigset) (info : Siginfo) :
    Nat × Siginfo × Pending :=
  if (pending.signal &&& ~~~blocked) &&& synchronousMask = 0 then (0, info, pending)
  else
    match pending.list.find? synchronous with
    | none => (0, info, pending)
    | some sync =>
      let signal :=
        if pending.list.any fun q => q.signo = sync.signo then pending.signal
        else sigdelset pending.signal sync.signo
      (sync.signo, sync, { signal := signal, list := pending.list.eraseP synchronous })

/-- `get_signal` (`signal.c:802-1050`). -/
def getSignal (tsk : Task) (blocked : Sigset) (info : Siginfo) : Nat × Siginfo × PidType × Task :=
  let r := dequeueSynchronousSignal tsk.pending blocked info
  if r.1 ≠ 0 then (r.1, r.2.1, .pid, { tsk with pending := r.2.2 })
  else dequeueSignal { tsk with pending := r.2.2 } blocked r.2.1

/-- The `info` argument of a send: `SEND_SIG_NOINFO`, `SEND_SIG_PRIV` or a `siginfo` of the
caller's. -/
inductive SendInfo
  | noinfo
  | priv
  | given (info : Siginfo)

def SendInfo.entry (sig : Nat) (tgid : Int) : SendInfo → Siginfo
  | .noinfo => { signo := sig, errno := 0, code := siUser, pid := tgid, uid := 0, rest := 0 }
  | .priv => { signo := sig, errno := 0, code := siKernel, pid := 0, uid := 0, rest := 0 }
  | .given info => info

/-- A send queues an entry, unless it is for `SIGKILL` or a kernel thread or there is no memory for
one. -/
def queuesEntry (t : Task) (sig : Nat) (alloc : Bool) : Bool :=
  !(decide (sig = sigkill) || t.kthread) && alloc

def Pending.send (pending : Pending) (sig : Nat) (entry : Option Siginfo) : Pending :=
  { signal := sigaddset pending.signal sig, list := pending.list ++ entry.toList }

/-- `__send_signal_locked` (`signal.c:482-601`) and `send_signal_locked` (`signal.c:627-661`). -/
def sendSignalLocked (sig : Nat) (info : SendInfo) (t : Task) (type : PidType) (alloc : Bool)
    (tgid : Int) : Task :=
  let entry := if queuesEntry t sig alloc then some (info.entry sig tgid) else none
  match type with
  | .pid => { t with pending := t.pending.send sig entry }
  | .tgid => { t with sharedPending := t.sharedPending.send sig entry }

/-! ## A task and its signals -/

/-- What happened to one list of pending signals: the information queued, the information delivered,
and the signals sent without an entry since their last dequeue. -/
structure History where
  sent : List Siginfo
  delivered : List Siginfo
  bare : Nat → Bool

/-- The information for one signal number, in order. -/
def ofSignal (sig : Nat) (l : List Siginfo) : List Siginfo := l.filter fun q => q.signo = sig

/-- What was queued for a signal and not yet delivered. -/
def History.owed (h : History) (sig : Nat) : List Siginfo :=
  (ofSignal sig h.sent).drop (ofSignal sig h.delivered).length

def History.send (h : History) (sig : Nat) : Option Siginfo → History
  | some entry => { h with sent := h.sent ++ [entry] }
  | none => { h with bare := Function.update h.bare sig true }

def History.took (h : History) (sig : Nat) (info : Siginfo) : History :=
  { h with
    delivered := if h.owed sig = [] then h.delivered else h.delivered ++ [info]
    bare := Function.update h.bare sig false }

/-- The task, and what was sent and taken so far. -/
structure Signals where
  task : Task
  own : History
  shared : History

/-- A send, or a turn of `get_signal` with the signals blocked at the time. -/
inductive Op
  | send (sig : Nat) (info : SendInfo) (type : PidType) (alloc : Bool) (tgid : Int)
  | dequeue (blocked : Sigset) (info : Siginfo)

/-- One call; a dequeue returns the signal, its information and where it was pending, a send returns
0. -/
def Signals.step (s : Signals) : Op → Option ((Nat × Siginfo × PidType) × Signals)
  | .send sig info type alloc tgid =>
    let entry := if queuesEntry s.task sig alloc then some (info.entry sig tgid) else none
    let task := sendSignalLocked sig info s.task type alloc tgid
    match type with
    | .pid => some ((0, bareInfo 0, type), { s with task := task, own := s.own.send sig entry })
    | .tgid =>
      some ((0, bareInfo 0, type), { s with task := task, shared := s.shared.send sig entry })
  | .dequeue blocked info =>
    let r := getSignal s.task blocked info
    let s' := { s with task := r.2.2.2 }
    if r.1 = 0 then some ((r.1, r.2.1, r.2.2.1), s')
    else
      match r.2.2.1 with
      | .pid => some ((r.1, r.2.1, .pid), { s' with own := s.own.took r.1 r.2.1 })
      | .tgid => some ((r.1, r.2.1, .tgid), { s' with shared := s.shared.took r.1 r.2.1 })

/-- A new task, with nothing pending. -/
def Signals.Start (s : Signals) : Prop :=
  (s.task.pending = ⟨0, []⟩ ∧ s.task.sharedPending = ⟨0, []⟩) ∧
    (s.own = ⟨[], [], fun _ => false⟩ ∧ s.shared = ⟨[], [], fun _ => false⟩)

/-- What a sender promises: a valid signal number, and a `siginfo` for it. -/
def Signals.Ok (_ : Signals) : Op → Prop
  | .send sig info _ _ _ =>
    (1 ≤ sig ∧ sig ≤ 64) ∧ match info with
      | .given info => info.signo = sig
      | .noinfo | .priv => True
  | .dequeue _ _ => True

end MyOS2.Signal
