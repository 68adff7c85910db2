import Mathlib.Algebra.Group.Int.Defs
import Mathlib.Algebra.Group.Nat.Defs
import Mathlib.Logic.Function.Basic

/-!
# The id table of `lib/idr`

`idr_s` keeps its pointers in one flat array of `MYOS_IDR_BUF_SIZE` slots. A
slot that holds `NULL` is what the allocation functions take for a free id.
Pointers are numbers, `NULL` is `0`. A call whose array access falls outside
the array has no defined result and is `none`.
-/

namespace MyOS2.Idr

open Function

def myosIdrBufSize : Nat := 32768

/-- `EINVAL` and `ENOSPC`, which the allocation functions return negated. -/
def einval : Int := 22

@[inherit_doc einval]
def enospc : Int := 28

/-- `idr_s`: the slot array, the base (which no function reads any more) and the cursor of the
cyclic allocation. -/
structure IdrS where
  idrRt : Nat → Nat
  idrBase : Nat
  idrNext : Nat

/-- `idr_init_base` (`idr.h:41-57`); the array comes zeroed from `kzalloc`. -/
def idrInitBase (base : Nat) : IdrS :=
  { idrRt := fun _ => 0, idrBase := base, idrNext := 0 }

/-- `idr_init` (`idr.h:60-70`). -/
def idrInit : IdrS := idrInitBase 0

/-- The loop of `idr_alloc_u32` over at most `n` slots from `slotIdx` on: the first slot that holds
`NULL`. -/
def firstNull (rt : Nat → Nat) : Nat → Nat → Option Nat
  | 0, _ => none
  | n + 1, slotIdx => if rt slotIdx = 0 then some slotIdx else firstNull rt n (slotIdx + 1)

/-- `idr_alloc_u32` (`idr.c:31-65`): the return code, the value left in `*nextid` and the table.
`slot_idx` is an `int`, so an id of `2^31` or more would index below the array. `max` is not read.
-/
def idrAllocU32 (idr : IdrS) (ptr nextid _max : Nat) : Option (Int × Nat × IdrS) :=
  if 2 ^ 31 ≤ nextid then none
  else
    match firstNull idr.idrRt (myosIdrBufSize - nextid) nextid with
    | some slotIdx =>
      some (0, slotIdx, { idr with idrRt := update idr.idrRt slotIdx ptr })
    | none => some (-enospc, nextid, idr)

def u32OfInt (i : Int) : Nat := (i % 2 ^ 32).toNat

def intOfU32 (n : Nat) : Int := if n < 2 ^ 31 then n else n - 2 ^ 32

/-- The `max` argument both callers pass down: `end > 0 ? end - 1 : MYOS_IDR_BUF_SIZE`. -/
def maxOfEnd (end_ : Int) : Nat := if 0 < end_ then (end_ - 1).toNat else myosIdrBufSize

section

variable (idr : IdrS)

/-- `idr_alloc` (`idr.c:88-103`). -/
def idrAlloc (ptr : Nat) (start end_ : Int) : Option (Int × IdrS) :=
  if start < 0 then some (-einval, idr)
  else do
    let (ret, id, idr) ← idrAllocU32 idr ptr (u32OfInt start) (maxOfEnd end_)
    if ret ≠ 0 then some (ret, idr) else some (intOfU32 id, idr)

/-- `idr_alloc_cyclic` (`idr.c:128-147`). `id > start` compares a `u32` with an `int`, so as
unsigned numbers. -/
def idrAllocCyclic (ptr : Nat) (start end_ : Int) : Option (Int × IdrS) := do
  let max := maxOfEnd end_
  let id := if intOfU32 idr.idrNext < start then u32OfInt start else idr.idrNext
  let (err, id, idr) ← idrAllocU32 idr ptr id max
  let (err, id, idr) ←
    if err = -enospc ∧ u32OfInt start < id then idrAllocU32 idr ptr (u32OfInt start) max
    else some (err, id, idr)
  if err ≠ 0 then some (err, idr)
  else some (intOfU32 id, { idr with idrNext := (id + 1) % 2 ^ 32 })

/-- `idr_remove` (`idr.c:164-170`). -/
def idrRemove (id : Nat) : Option (Nat × IdrS) :=
  if id < myosIdrBufSize then
    some (idr.idrRt id, { idr with idrRt := update idr.idrRt id 0 })
  else none

/-- `idr_find` (`idr.c:187-191`). -/
def idrFind (id : Nat) : Option Nat :=
  if id < myosIdrBufSize then some (idr.idrRt id) else none

/-- `idr_replace` (`idr.c:306-324`). -/
def idrReplace (ptr id : Nat) : Option (Nat × IdrS) :=
  if id < myosIdrBufSize then
    some (idr.idrRt id, { idr with idrRt := update idr.idrRt id ptr })
  else none

end

/-! ## A table and its clients -/

/-- A table with what its clients know: the ids they were ever given, and for each allocated id the
pointer last stored for it. -/
structure Clients where
  idr : IdrS
  allocated : Nat → Option Nat
  obtained : List Nat

/-- The calls of its clients. -/
inductive Op
  | alloc (ptr : Nat) (start end_ : Int)
  | allocCyclic (ptr : Nat) (start end_ : Int)
  | replace (ptr id : Nat)
  | remove (id : Nat)

/-- An allocation that returned `ret`: from a non-negative one on, that id is allocated and holds
`ptr`. -/
def Clients.allocReturned (s : Clients) (ptr : Nat) (ret : Int) (idr : IdrS) : Clients :=
  if 0 ≤ ret then
    { idr := idr
      allocated := update s.allocated ret.toNat (some ptr)
      obtained := ret.toNat :: s.obtained }
  else { s with idr := idr }

/-- One call. `replace` changes the pointer of an id that is allocated; `remove` ends its
allocation. -/
def Clients.step (s : Clients) : Op → Option (Int × Clients)
  | .alloc ptr start end_ => do
    let (ret, idr) ← idrAlloc s.idr ptr start end_
    some (ret, s.allocReturned ptr ret idr)
  | .allocCyclic ptr start end_ => do
    let (ret, idr) ← idrAllocCyclic s.idr ptr start end_
    some (ret, s.allocReturned ptr ret idr)
  | .replace ptr id => do
    let (entry, idr) ← idrReplace s.idr ptr id
    some (entry, { s with
      idr := idr
      allocated := update s.allocated id ((s.allocated id).map fun _ => ptr) })
  | .remove id => do
    let (entry, idr) ← idrRemove s.idr id
    some (entry, { s with idr := idr, allocated := update s.allocated id none })

/-- The table as `idr_init` leaves it, nothing allocated. -/
def Clients.init : Clients :=
  { idr := idrInit, allocated := fun _ => none, obtained := [] }

/-- What a caller promises: `start` and `end` are `int` values, and an id it replaces or removes is
one it obtained from the table. -/
def Clients.Ok (s : Clients) : Op → Prop
  | .alloc _ start end_ | .allocCyclic _ start end_ =>
    (-2 ^ 31 ≤ start ∧ start < 2 ^ 31) ∧ (-2 ^ 31 ≤ end_ ∧ end_ < 2 ^ 31)
  | .replace _ id | .remove id => id ∈ s.obtained

end MyOS2.Idr
