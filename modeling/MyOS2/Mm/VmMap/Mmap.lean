import MyOS2.Mm.VmMap.VmaList

/-!
# Areas and the growth of a stack (`mm/vm_map`)

A `vma_s` with the fields that the functions on the list read. Its addresses are in
bytes. `expand_stack` moves the start of an area down to a faulting address.
-/

namespace MyOS2.Mmap

/-- A `file_s`. -/
abbrev FileId := Nat

/-! ## Flags of an area (`vm_map_const.h`) -/

def vmGrowsdown : Nat := 0x100

/-- `VM_IO | VM_DONTEXPAND | VM_PFNMAP | VM_MIXEDMAP`. -/
def vmSpecial : Nat := 0x4000 ||| 0x40000 ||| 0x400 ||| 0x10000000

/-- `vma_s`, as far as the list needs it. -/
structure Vma where
  vmStart : Nat
  vmEnd : Nat
  vmPgoff : Nat
  vmFlags : Nat
  vmFile : Option FileId
  /-- `vm_ops` has a `close`. -/
  vmClose : Bool
  deriving DecidableEq

/-- `VM_SOFTDIRTY` is 0 in this configuration, so the flags have to be equal. -/
instance : Area Vma where
  unit := 1
  vmStart := Vma.vmStart
  vmEnd := Vma.vmEnd
  vmPgoff := Vma.vmPgoff
  resize v vmStart vmEnd vmPgoff := { v with vmStart, vmEnd, vmPgoff }
  special v := v.vmFlags &&& vmSpecial != 0
  mergeable v w := decide (v.vmFlags = w.vmFlags) && decide (v.vmFile = w.vmFile) && !v.vmClose
  vmStart_resize _ _ _ _ := rfl
  vmEnd_resize _ _ _ _ := rfl
  vmPgoff_resize _ _ _ _ := rfl

def eperm : Int := 1

def pageMask (addr : Nat) : Nat := addr / pageSize * pageSize

def mmapMinAddr : Nat := pageSize

namespace VmaList

/-- `expand_stack` (`mmap.c:991-1062`). The test for the predecessor is a comment there, and an area
whose `vm_pgoff` is too small is left as it is. -/
def expandStack (l : VmaList Vma) (v : VmaId) (address : Nat) : Int × VmaList Vma :=
  let address := pageMask address
  if address < mmapMinAddr then (-eperm, l)
  else if address < l.start v then
    let grow := (l.start v - address) / pageSize
    if grow ≤ l.pgoff v then
      (0, l.setArea v { l.area v with vmStart := address, vmPgoff := l.pgoff v - grow })
    else (0, l)
  else (0, l)

end VmaList

end MyOS2.Mmap
