import MyOS2.Misc.Word
import MyOS2.Mm.VmMap.Mmap

/-!
# Looking for a free range (`mm/vm_map/mmap.c`)

`__get_unmapped_area` chooses the address of a new mapping. It takes the hint if nothing is
mapped at its page, and searches the gaps between the areas from the top otherwise. An
address and an error come back in one `ulong`.
-/

namespace MyOS2.Mmap

def taskSizeMax : Nat := 2 ^ 47 - pageSize

def defaultMapWindow : Nat := 2 ^ 47 - pageSize

def pageAlign (x : Nat) : Nat := pageMask ((x + (pageSize - 1)) % 2 ^ 64)

/-- `TASK_UNMAPPED_BASE`, the `mmap_base` of every address space. -/
def taskUnmappedBase : Nat := pageAlign (defaultMapWindow / 3)

def mapFixed : Nat := 0x10

/-- An error as a `ulong`. -/
def errValue (err : Nat) : Nat := 2 ^ 64 - err

def isErrValue (x : Nat) : Prop := 2 ^ 64 - 4095 ≤ x

instance (x : Nat) : Decidable (isErrValue x) := inferInstanceAs (Decidable (_ ≤ _))

/-- The fields of `unmapped_vma_info_s` that the search reads. -/
structure UnmappedInfo where
  length : Nat
  lowLimit : Nat
  highLimit : Nat

namespace VmaList

def gapBehind (l : VmaList Vma) (info : UnmappedInfo) (v : VmaId) : Nat × Nat :=
  (if l.stop v ≤ info.lowLimit then info.lowLimit else l.stop v,
    match l.vmaNextVma v with
    | some next => if l.start next ≤ info.highLimit then l.start next else info.highLimit
    | none => info.highLimit)

/-- The loop of `simple_find_vm_unmapped_area_topdown` over the areas from the top: `none` at the
end of the list, otherwise what it has found when it breaks off. -/
def scanTopdown (l : VmaList Vma) (info : UnmappedInfo) : List VmaId → Option (Option (Nat × Nat))
  | [] => none
  | v :: rest =>
    if info.highLimit ≤ l.stop v then l.scanTopdown info rest
    else
      let gap := l.gapBehind info v
      if info.length ≤ u64Sub gap.2 gap.1 then some (some gap)
      else if l.start v ≤ info.lowLimit then some none
      else l.scanTopdown info rest

/-- `simple_find_vm_unmapped_area_topdown` (`mmap.c:806-856`). At the end of the list `vma_next_vma`
is called with `NULL` and spins. The last test, `if (gap = ~0)`, is an assignment: the gap found is
lost, and the range below the high limit is returned. -/
def simpleFindVmUnmappedAreaTopdown (l : VmaList Vma) (info : UnmappedInfo) : Option Nat :=
  match l.scanTopdown info l.order.reverse with
  | none => none
  | some _ => some (pageMask (u64Sub info.highLimit info.length))

/-- `simple_get_unmapped_area` (`mmap.c:907-943`). -/
def simpleGetUnmappedArea (l : VmaList Vma) (mmapBase addr len : Nat) : Option Nat :=
  if addr ≠ 0 ∧ l.simpleFindVma (pageMask addr) = none then some (pageMask addr)
  else
    l.simpleFindVmUnmappedAreaTopdown {
      length := len
      lowLimit := pageSize
      highLimit :=
        if defaultMapWindow < pageMask addr then mmapBase + (taskSizeMax - defaultMapWindow)
        else mmapBase }

/-- `__get_unmapped_area` (`mmap.c:945-984`). -/
def getUnmappedArea (l : VmaList Vma) (mmapBase addr len flags : Nat) : Option Nat :=
  if taskSizeMax < len then some (errValue 12)
  else if flags &&& mapFixed ≠ 0 then some addr
  else do
    let addr ← l.simpleGetUnmappedArea mmapBase addr len
    if isErrValue addr then some addr
    else if taskSizeMax - len < addr then some (errValue 12)
    else if addr % pageSize ≠ 0 then some (errValue 22)
    else some addr

end VmaList

end MyOS2.Mmap
