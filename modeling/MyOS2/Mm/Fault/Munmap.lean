import MyOS2.Mm.Fault.Fault
import MyOS2.Mm.VmMap.VmaList

/-!
# Unmapping (`mm/vm_map/mmap.c`, `arch/x86_64/myos/syscall.c`)

`munmap` and `brk` change the list of areas of an address space. The page tables
are another structure, kept by the fault handlers.
-/

namespace MyOS2.Fault

open Mmap (Area VmaList)

/-- The flags of `VM_SPECIAL` are set by no call of this model. -/
instance : Area Vma where
  unit := Mmap.pageSize
  vmStart := Vma.start
  vmEnd := Vma.stop
  vmPgoff := Vma.pgoff
  resize v start stop pgoff := { v with start, stop, pgoff }
  special _ := false
  mergeable v w :=
    v.read == w.read && v.write == w.write && v.exec == w.exec && v.shared == w.shared &&
      v.mayWrite == w.mayWrite && v.mayShare == w.mayShare && v.dontCopy == w.dontCopy &&
      v.wipeOnFork == w.wipeOnFork && decide (v.backing = w.backing)
  vmStart_resize _ _ _ _ := rfl
  vmEnd_resize _ _ _ _ := rfl
  vmPgoff_resize _ _ _ _ := rfl

/-- The machine, with the lists and the heap limits (in bytes) of the address spaces. -/
structure System where
  machine : Machine
  list : MmId → VmaList Vma
  startBrk : MmId → Nat
  brk : MmId → Nat

def taskSize : Nat := 2 ^ 35 - 1

def pageAlign (addr : Nat) : Nat := (addr + 4095) % 2 ^ 64 / 4096

/-- The area that `do_brk_flags` (`mmap.c:1193-1247`) makes. -/
def brkArea (addr len : Nat) : Vma where
  start := addr
  stop := addr + len
  pgoff := addr
  read := true
  write := true
  exec := true
  shared := false
  mayWrite := true
  mayShare := false
  dontCopy := false
  wipeOnFork := false
  backing := .anonymous
  mayWrite_of_write _ _ := rfl

namespace System

section

variable (x : System) (mm : MmId)

def setList (l : VmaList Vma) : System :=
  { x with
    list := Function.update x.list mm l
    machine := { x.machine with vmas := Function.update x.machine.vmas mm l.areas } }

def setBrk (brk : Nat) : System :=
  { x with brk := Function.update x.brk mm brk }

/-- `simple_do_vma_munmap` (`mmap.c:1124-1167`): the page tables stay as they are. -/
def doVmaMunmap (start stop : Nat) (a : VmaList.Allocs) : Option (Int × System) :=
  ((x.list mm).simpleDoVmaMunmap start stop a).map fun r => (r.1, x.setList mm r.2)

/-- `__vm_munmap` (`mmap.c:1169-1183`). -/
def vmMunmap (start len : Nat) (a : VmaList.Allocs) : Option (Int × System) :=
  x.doVmaMunmap mm start (start + len) a

/-- `do_brk_flags` (`mmap.c:1193-1247`). -/
def doBrkFlags (addr len : Nat) (a : VmaList.Allocs) : Option (Int × System) :=
  if taskSize < len then some (-Mmap.enomem, x)
  else ((x.list mm).mapRegion (brkArea addr len) 0 a).map fun r => (r.1, x.setList mm r.2)

def sysBrk (brk : Nat) (a : VmaList.Allocs) : Option (Nat × System) :=
  let origbrk := x.brk mm
  let newbrk := pageAlign brk
  let oldbrk := pageAlign origbrk
  if brk < x.startBrk mm then some (origbrk, x)
  else if oldbrk = newbrk then some (brk, x.setBrk mm brk)
  else if brk ≤ origbrk then do
    let (err, x) ← (x.setBrk mm brk).doVmaMunmap mm newbrk oldbrk a
    if err ≠ 0 then some (origbrk, x.setBrk mm origbrk) else some (brk, x)
  else do
    let (err, x) ← x.doBrkFlags mm oldbrk ((newbrk + 2 ^ 52 - oldbrk) % 2 ^ 52) a
    if err < 0 then some (origbrk, x.setBrk mm origbrk) else some (brk, x.setBrk mm brk)

end

end System

end MyOS2.Fault
