import Mathlib.Algebra.Group.Nat.Defs
import Mathlib.Logic.Function.Basic

/-!
# The list of areas of an address space (`mm/vm_map`)

An address space keeps its areas (`vma_s`) on the list `mm_mt`. Here are the functions that
find, link, unlink, resize and split areas, and the two that the system calls are made of:
`simple_do_vma_munmap` clears a range, and `simple_vma_merge` tries to grow an area over a new
range.

Addresses are counted in bytes or in pages, as suits the area. Whether an area can be allocated
is an input. `none` is a loop that never ends or a value never written.
-/

namespace MyOS2.Mmap

abbrev VmaId := Nat

def pageSize : Nat := 4096

def enomem : Int := 12

/-- What the operations on the list use of a `vma_s`. -/
class Area (α : Type) where
  /-- How many bytes an address counts. -/
  unit : Nat
  vmStart : α → Nat
  vmEnd : α → Nat
  vmPgoff : α → Nat
  /-- The area with another start, end and `vm_pgoff`. -/
  resize : α → Nat → Nat → Nat → α
  /-- `vm_flags & VM_SPECIAL`. -/
  special : α → Bool
  /-- `simple_is_mergeable_vma`, for the flags and the file of the
      second area. -/
  mergeable : α → α → Bool
  vmStart_resize : ∀ v start stop pgoff, vmStart (resize v start stop pgoff) = start
  vmEnd_resize : ∀ v start stop pgoff, vmEnd (resize v start stop pgoff) = stop
  vmPgoff_resize : ∀ v start stop pgoff, vmPgoff (resize v start stop pgoff) = pgoff

attribute [simp] Area.vmStart_resize Area.vmEnd_resize Area.vmPgoff_resize

def pages (α : Type) [Area α] (len : Nat) : Nat := len * Area.unit α / pageSize

/-- The fields `mm_mt` and `map_count` of an `mm_s`, and the areas. -/
structure VmaList (α : Type) where
  order : List VmaId
  area : VmaId → α
  mapCount : Int
  /-- The name of the area that is allocated next. -/
  nextId : VmaId

namespace VmaList

variable {α : Type} [Area α]

section

variable (l : VmaList α)

def start (v : VmaId) : Nat := Area.vmStart (l.area v)

def stop (v : VmaId) : Nat := Area.vmEnd (l.area v)

def pgoff (v : VmaId) : Nat := Area.vmPgoff (l.area v)

def areas : List α := l.order.map l.area

/-- What comes before an area in the list, and what comes behind it. -/
def before (v : VmaId) : List VmaId := l.order.takeWhile (· != v)

def behind (v : VmaId) : List VmaId := (l.order.dropWhile (· != v)).tail

/-! ## Looking for an area -/

/-- `vma_prev_vma` (`mmap.c:70-79`). -/
def vmaPrevVma (v : VmaId) : Option VmaId := (l.before v).getLast?

/-- `vma_next_vma` (`mmap.c:81-90`). -/
def vmaNextVma (v : VmaId) : Option VmaId := (l.behind v).head?

/-- `simple_find_vma` (`vm_map.h:254-262`); `vma_lookup` adds a test that it has made already. -/
def simpleFindVma (addr : Nat) : Option VmaId :=
  l.order.find? fun v => decide (l.start v ≤ addr) && decide (addr < l.stop v)

/-- `find_vma_prev_to_addr` (`vm_map.h:299-307`). -/
def findVmaPrevToAddr (addr : Nat) : Option VmaId :=
  l.order.reverse.find? fun v => decide (l.stop v < addr)

/-- `__vma_intersect_with_range` (`vm_map.h:323-326`). -/
def intersects (v : VmaId) (start stop : Nat) : Bool :=
  !(decide (l.stop v ≤ start) || decide (stop ≤ l.start v))

/-- `find_vma_intersection` (`vm_map.h:328-349`): only the area behind the last one that ends below
the range is looked at. -/
def findVmaIntersection (start stop : Nat) : Option (Option VmaId) :=
  if stop < start then none
  else some do
    let prev ← l.findVmaPrevToAddr start
    let v ← l.vmaNextVma prev
    if l.intersects v start stop then some v else none

/-! ## Changing the list -/

def setArea (v : VmaId) (a : α) : VmaList α :=
  { l with area := Function.update l.area v a }

/-- `__vma_link_to_list` (`util.c:15-28`); it spins when `prev` is not on the list. -/
def vmaLinkToList (v : VmaId) : Option VmaId → Option (VmaList α)
  | none => some { l with order := v :: l.order, mapCount := l.mapCount + 1 }
  | some prev =>
    if prev ∈ l.order then
      some { l with
        order := l.before prev ++ prev :: v :: l.behind prev, mapCount := l.mapCount + 1 }
    else none

/-- The areas behind `v` that end up to `stop`, up to the first that does not. -/
def within (v : VmaId) (stop : Nat) : List VmaId :=
  (l.behind v).takeWhile fun k => decide (l.stop k ≤ stop)

/-- `__vma_unlink_from_list` (`util.c:30-36`). -/
def unlinkWithin (v : VmaId) (stop : Nat) : VmaList α :=
  { l with
    order := l.before v ++ v :: (l.behind v).dropWhile fun k => decide (l.stop k ≤ stop)
    mapCount := l.mapCount - (l.within v stop).length }

end

/-- The new `vm_pgoff` of `__simple_vma_adjust`: the difference is taken between the address in
bytes and the old `vm_pgoff`. -/
def adjustPgoff (pgoff start : Nat) : Nat :=
  (pgoff + (start + 2 ^ 64 - pgoff) % 2 ^ 64 / pageSize) % 2 ^ 64

/-- `__simple_vma_adjust` (`mmap.c:190-220`). -/
def simpleVmaAdjust (l : VmaList α) (v : VmaId) (start stop : Nat) : VmaList α :=
  let l := l.setArea v (Area.resize (l.area v) start stop
    (adjustPgoff (l.pgoff v) (start * Area.unit α)))
  let l := l.unlinkWithin v stop
  match l.vmaNextVma v with
  | none => l
  | some next =>
    if l.start next < stop then
      l.setArea next (Area.resize (l.area next) stop (l.stop next)
        ((l.pgoff next + pages α (stop - l.start next)) % 2 ^ 64))
    else l

/-- `vm_area_alloc` (`mmap.c:30-37`). -/
def vmAreaAlloc (l : VmaList α) (a : α) : VmaList α :=
  { l.setArea l.nextId a with nextId := l.nextId + 1 }

/-- `__split_vma` (`mmap.c:1089-1115`) and `vm_area_creat_dup` (`mmap.c:39-52`). -/
def splitVma (l : VmaList α) (v : VmaId) (addr : Nat) (newBelow alloc : Bool) :
    Option (Int × VmaList α) :=
  let new := l.nextId
  if !alloc then some (-enomem, l)
  else if newBelow then do
    let l := l.vmAreaAlloc (Area.resize (l.area v) (l.start v) addr (l.pgoff v))
    let l := l.simpleVmaAdjust v addr (l.stop v)
    let l ← l.vmaLinkToList new (l.vmaPrevVma v)
    some (0, l)
  else do
    let l := l.vmAreaAlloc (Area.resize (l.area v) addr (l.stop v)
      ((l.pgoff v + pages α (addr - l.start v)) % 2 ^ 64))
    let l := l.simpleVmaAdjust v (l.start v) addr
    let l ← l.vmaLinkToList new (some v)
    some (0, l)

/-! ## Clearing a range -/

/-- Which allocations succeed. -/
structure Allocs where
  first : Bool
  last : Bool
  new : Bool

section

variable (l : VmaList α)

/-- The second half of `simple_do_vma_munmap`, from the first area on that is not cut off below. -/
def detachRange (v : VmaId) (stop : Nat) (alloc : Bool) : Option (Int × VmaList α) := do
  let prev := l.vmaPrevVma v
  let last := l.simpleFindVma stop
  let (err, l) ← match last with
    | some w => if l.start w < stop then l.splitVma w stop true alloc else some (0, l)
    | none => some (0, l)
  if err ≠ 0 then some (err, l)
  else
    -- `vma_next_vma` spins on `NULL`
    let prev ← prev
    if last.any (· ∈ l.within prev stop) then none else some (0, l.unlinkWithin prev stop)

/-- `simple_do_vma_munmap` (`mmap.c:1124-1167`). -/
def simpleDoVmaMunmap (start stop : Nat) (a : Allocs) : Option (Int × VmaList α) := do
  match ← l.findVmaIntersection start stop with
  | none => some (0, l)
  | some v =>
    if l.start v < start then
      let (err, l) ← l.splitVma v start true a.first
      if err ≠ 0 then some (err, l) else l.detachRange v stop a.last
    else l.detachRange v stop a.last

/-! ## Filling a range -/

/-- `simple_vma_merge` (`mmap.c:363-417`): the area that now covers the range. If only the successor
can be merged and there is a predecessor, `adjust_target` is read without having been written. -/
def simpleVmaMerge (prev : Option VmaId) (req : α) : Option (Option VmaId × VmaList α) := do
  let addr := Area.vmStart req
  let stop := Area.vmEnd req
  if Area.special req then some (none, l)
  else
    let curr ← l.findVmaIntersection (prev.elim 0 l.stop) stop
    let next := if curr.all (fun k => l.stop k = stop) then l.simpleFindVma stop else none
    let mergePrev := prev.filter fun p => l.stop p = addr && Area.mergeable (l.area p) req &&
      decide ((l.pgoff p + pages α (l.stop p - l.start p)) % 2 ^ 64 = Area.vmPgoff req)
    let mergeNext := next.filter fun k => Area.mergeable (l.area k) req &&
      decide (l.pgoff k = (Area.vmPgoff req + pages α (stop - addr)) % 2 ^ 64)
    match mergePrev, mergeNext with
    | none, none => some (none, l)
    | some p, none => some (some p, l.simpleVmaAdjust p (l.start p) stop)
    | some p, some k => some (some p, l.simpleVmaAdjust p (l.start p) (l.stop k))
    | none, some k =>
      if prev.isNone then some (some k, l.simpleVmaAdjust k addr (l.stop k)) else none

/-- What `simple_mmap_region` (`mmap.c:653-794`) and `do_brk_flags` do with the list: the range is
cleared, and an area is grown over it or a new one linked behind the area found before. `setup` is
the error of the file. -/
def mapRegion (req : α) (setup : Int) (a : Allocs) : Option (Int × VmaList α) := do
  let prev := l.findVmaPrevToAddr (Area.vmStart req)
  let (err, l) ← l.simpleDoVmaMunmap (Area.vmStart req) (Area.vmEnd req) a
  if err ≠ 0 then some (-enomem, l)
  else
    let (merged, l) ← l.simpleVmaMerge prev req
    if merged.isSome then some (0, l)
    else if !a.new then some (-enomem, l)
    else if setup ≠ 0 then some (setup, l)
    else
      let new := l.nextId
      let l ← (l.vmAreaAlloc req).vmaLinkToList new prev
      some (0, l)

end

end VmaList

end MyOS2.Mmap
