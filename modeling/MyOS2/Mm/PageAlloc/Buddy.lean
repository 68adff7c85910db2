import MyOS2.Lib.DoubleList
import Mathlib.Algebra.Group.Nat.Defs

/-!
# The buddy allocator (`mm/page_alloc/buddy.c`, `buddy.h`)

Pages are named by their frame number. The state holds the free lists of all zones, linked
through `buddy_list`, the other fields of `page_s` that the allocator uses, and the zones' page
counters. The first word of a tail page of a compound page shares its place with
`buddy_list.next`, so a tail mark is a value of that link.

A call is `none` when it does not come back or is undefined: a broken list, a page outside all
zones, an index outside `prefered_zone_list`. The content of the memory is not part of the
state: `myosAllocPagesMem` is an allocation with what `post_alloc_hook` does to it.
-/

namespace MyOS2.Buddy

open DoubleList

/-- `zone_type` (`mmzone_const.h:5-76`). -/
inductive ZoneType
  | dma
  | dma32
  | normal
  | movable
  | device
  deriving DecidableEq

/-- `MAX_ORDER` and `NR_PAGE_ORDERS`. -/
def maxOrder : Nat := 10

@[inherit_doc maxOrder]
def nrPageOrders : Nat := maxOrder + 1

/-- The fields of `page_s` the allocator uses, `buddy_list` apart. -/
structure Page where
  flags : BitVec 64
  private_ : Nat
  pageType : BitVec 32
  refcount : Int
  deriving DecidableEq

/-- The nodes of the free lists: the anchor of `zone->free_area[order]`, and the field `buddy_list`
of a page. -/
inductive Node
  | anchor (zone : ZoneType) (order : Nat)
  | page (pfn : Nat)
  deriving DecidableEq

/-- The free lists and the memory map. -/
structure State where
  maxLowPfn : Nat
  lists : DoubleList.Lists Node
  pages : Nat → Page
  managedPages : ZoneType → Nat

/-! ## Zones -/

/-- `zone_sizes_init` (`mmzone.c:3-18`). -/
def maxZonePfn (maxLowPfn : Nat) : ZoneType → Nat
  | .dma => min 4096 maxLowPfn
  | .dma32 => min (2 ^ 20) maxLowPfn
  | .normal => maxLowPfn
  | .movable | .device => 0

/-- `memmap_init` (`mm_init.c:80-108`). -/
def memmapInit (maxLowPfn : Nat) : List ZoneType → Nat → List (ZoneType × Nat × Nat)
  | [], _ => []
  | zone :: zones, startPfn =>
    let endPfn := max (maxZonePfn maxLowPfn zone) startPfn
    (zone, startPfn, endPfn - startPfn) :: memmapInit maxLowPfn zones endPfn

def nodeZones (maxLowPfn : Nat) : List (ZoneType × Nat × Nat) :=
  memmapInit maxLowPfn [.dma, .dma32, .normal, .movable, .device] 1

/-- `myos_page_zone` (`buddy.h:321-331`); it returns nothing for a page outside all zones. -/
def myosPageZone (maxLowPfn pfn : Nat) : Option ZoneType :=
  ((nodeZones maxLowPfn).find? fun z => z.2.1 ≤ pfn && pfn < z.2.1 + z.2.2).map (·.1)

/-! ## Pages -/

/-- `PAGE_TYPE_BASE` and `PG_buddy`. -/
def pageTypeBase : BitVec 32 := 0xf0000000

@[inherit_doc pageTypeBase]
def pgBuddy : BitVec 32 := 0x00000080

/-- `PageBuddy` (`page-flags.h:459-467`), `__SetPageBuddy` and `__ClearPageBuddy`. -/
def pageBuddy (p : Page) : Bool := p.pageType &&& (pageTypeBase ||| pgBuddy) = pageTypeBase

/-- `__SetPageBuddy` (`page-flags.h:484-487`). -/
def setPageBuddy (p : Page) : Page := { p with pageType := p.pageType &&& ~~~pgBuddy }

/-- `__ClearPageBuddy` (`page-flags.h:489-492`). -/
def clearPageBuddy (p : Page) : Page := { p with pageType := p.pageType ||| pgBuddy }

/-- Bits of `page->flags`. -/
def pgHead : Nat := 6

@[inherit_doc pgHead]
def pgReserved : Nat := 14

@[inherit_doc pgHead]
def pgHwpoison : Nat := 21

def pageFlagsCheckAtPrep : BitVec 64 :=
  BitVec.ofNat 64 (2 ^ 27 - 1) &&& ~~~BitVec.twoPow 64 pgHwpoison

def State.modifyPage (s : State) (pfn : Nat) (f : Page → Page) : State :=
  { s with pages := Function.update s.pages pfn (f (s.pages pfn)) }

/-- The `n` pages from `pfn` on are written, one after the other. -/
def State.modifyPages (f : Page → Page) : Nat → Nat → State → State
  | 0, _, s => s
  | n + 1, pfn, s => modifyPages f n (pfn + 1) (s.modifyPage pfn f)

/-- `set_buddy_order` (`buddy.c:69-73`). -/
def setBuddyOrder (s : State) (pfn order : Nat) : State :=
  s.modifyPage pfn fun p => setPageBuddy { p with private_ := order }

/-! ## The free lists -/

/-- More than there are nodes: `mem_map` has fewer than `MAX_ORDER_NR_PAGES` entries behind the last
page, and there are 55 anchors. -/
def State.nodeBound (s : State) : Nat := s.maxLowPfn + 1024 + 55

section

variable (s : State) (pfn : Nat) (zone : ZoneType) (order : Nat)

/-- `add_to_free_list` (`buddy.c:76-80`). -/
def addToFreeList : Option State := do
  let lists ← listHeaderAddToHead s.lists (.anchor zone order) (.page pfn)
  some { s with lists := lists }

/-- `del_page_from_free_list` (`buddy.c:89-94`). -/
def delPageFromFreeList : Option State := do
  let lists ← listHeaderDeleteNode s.nodeBound s.lists (.anchor zone order) (.page pfn)
  some (({ s with lists := lists } : State).modifyPage pfn fun p =>
    { clearPageBuddy p with private_ := 0 })

end

/-- `get_page_from_free_area` (`buddy.c:101-105`). -/
def getPageFromFreeArea (s : State) (zone : ZoneType) (order : Nat) :
    Option (Option Nat × State) := do
  let (node, lists) ← listHeaderRemoveHead s.lists (.anchor zone order)
  match node with
  | none => some (none, { s with lists := lists })
  | some (.page pfn) => some (some pfn, { s with lists := lists })
  | some (.anchor _ _) => none

/-- `expand` (`buddy.c:122-134`); the argument it recurses on is `high`. -/
def expand (zone : ZoneType) (pfn low : Nat) : Nat → State → Option State
  | 0, s => some s
  | high + 1, s =>
    if low < high + 1 then do
      let p := pfn + 2 ^ high
      let s ← addToFreeList { s with lists := initList s.lists (.page p) } p zone high
      expand zone pfn low high (setBuddyOrder s p high)
    else some s

def rmqueueLoop (zone : ZoneType) (order : Nat) : Nat → Nat → State → Option (Option Nat × State)
  | 0, _, s => some (none, s)
  | n + 1, currentOrder, s => do
    let (page, s) ← getPageFromFreeArea s zone currentOrder
    match page with
    | none => rmqueueLoop zone order n (currentOrder + 1) s
    | some pfn =>
      let s ← delPageFromFreeList s pfn zone currentOrder
      let s ← expand zone pfn order currentOrder s
      some (some pfn,
        State.modifyPages (fun p => { p with refcount := p.refcount + 1 }) (2 ^ order) pfn s)

/-- `__rmqueue_smallest` (`buddy.c:224-245`). -/
def rmqueueSmallest (s : State) (zone : ZoneType) (order : Nat) : Option (Option Nat × State) :=
  rmqueueLoop zone order (nrPageOrders - order) order s

/-! ## Allocating -/

/-- `prep_compound_tail` (`buddy.h:372-379`) and `set_compound_head` (`page-flags.h:149-152`). -/
def prepCompoundTail (s : State) (head pfn : Nat) : State :=
  { s with lists := { s.lists with
      next := Function.update s.lists.next (.page pfn) (.marked (.page head)) } }.modifyPage
    pfn fun p => { p with private_ := 0 }

/-- The loop of `prep_compound_page` over the `n` pages from `pfn` on. -/
def prepTails (head : Nat) : Nat → Nat → State → State
  | 0, _, s => s
  | n + 1, pfn, s => prepTails head n (pfn + 1) (prepCompoundTail s head pfn)

/-- `prep_compound_head` (`buddy.h:355-370`): the order stands in the lowest byte of the flags of
the second page. -/
def prepCompoundHead (s : State) (pfn order : Nat) : State :=
  s.modifyPage (pfn + 1) fun p =>
    { p with flags := (p.flags &&& ~~~BitVec.ofNat 64 0xff) ||| BitVec.ofNat 64 order }

/-- `prep_compound_page` (`buddy.c:57-67`). -/
def prepCompoundPage (s : State) (pfn order : Nat) : State :=
  let s := s.modifyPage pfn fun p => { p with flags := p.flags ||| BitVec.twoPow 64 pgHead }
  prepCompoundHead (prepTails pfn (2 ^ order - 1) (pfn + 1) s) pfn order

/-- `_compound_head` (`page-flags.h:125-131`): the page a tail page points to, or the page itself.
-/
def compoundHead (s : State) (pfn : Nat) : Nat :=
  match s.lists.next (.page pfn) with
  | .marked (.page head) => head
  | _ => pfn

def pageTail (s : State) (pfn : Nat) : Bool :=
  match s.lists.next (.page pfn) with
  | .marked _ => true
  | _ => false

/-- `folio_order` (`buddy.h:143-148`). -/
def folioOrder (s : State) (pfn : Nat) : Nat :=
  if (s.pages pfn).flags.getLsbD pgHead then
    ((s.pages (pfn + 1)).flags &&& BitVec.ofNat 64 0xff).toNat
  else 0

/-- `GFP_DMA`, `GFP_DMA32`, `__GFP_ZERO` and `__GFP_COMP`. -/
def gfpDma : Nat := 0x01

@[inherit_doc gfpDma]
def gfpDma32 : Nat := 0x04

@[inherit_doc gfpDma]
def gfpZero : Nat := 0x100

@[inherit_doc gfpDma]
def gfpComp : Nat := 0x40000

/-- `prep_new_page` (`buddy.c:198-215`). -/
def prepNewPage (s : State) (pfn order gfp : Nat) : State :=
  if order ≠ 0 ∧ gfp &&& gfpComp ≠ 0 then prepCompoundPage s pfn order else s

def preferedZoneList : List ZoneType := [.normal, .dma32, .dma]

def startPreferedIdx (gfp : Nat) : Nat :=
  if gfp &&& gfpDma ≠ 0 then 2 else if gfp &&& gfpDma32 ≠ 0 then 1 else 0

def allocLoop (gfp order : Nat) : Nat → Nat → State → Option (Option Nat × State)
  | 0, _, s => some (none, s)
  | n + 1, i, s => do
    let zone ← preferedZoneList[i]?
    let (page, s) ← rmqueueSmallest s zone order
    match page with
    | some pfn => some (some pfn, prepNewPage s pfn order gfp)
    | none => allocLoop gfp order n (i + 1) s

/-- `nr_zones`, which `calculate_node_totalpages` (`mm_init.c:153-189`) sets to `MAX_NR_ZONES`. -/
def nrZones : Nat := 5

/-- `__myos_alloc_pages` (`buddy.c:444-487`). -/
def myosAllocPages (s : State) (gfp order : Nat) : Option (Option Nat × State) :=
  if maxOrder < order then some (none, s)
  else allocLoop gfp order (nrZones - startPreferedIdx gfp) (startPreferedIdx gfp) s

/-! ## The content of the pages -/

abbrev Memory := Nat → UInt8

def pageSize : Nat := 4096

def clearPage (mem : Memory) (addr : Nat) : Memory := fun a =>
  if addr ≤ a ∧ a < addr + pageSize then 0 else mem a

/-- The loop of `post_alloc_hook` for the first `n` values of `i`, which it adds to the address of
the page as it is. -/
def clearPages (addr : Nat) : Nat → Memory → Memory
  | 0, mem => mem
  | n + 1, mem => clearPage (clearPages addr n mem) (addr + n)

/-- `post_alloc_hook` (`buddy.c:136-196`). -/
def postAllocHook (mem : Memory) (pfn order gfp : Nat) : Memory :=
  if gfp &&& gfpZero ≠ 0 then clearPages (pfn * pageSize) (2 ^ order) mem else mem

/-- `__myos_alloc_pages` (`buddy.c:444-487`) with the bytes of the pages. -/
def myosAllocPagesMem (s : State) (mem : Memory) (gfp order : Nat) :
    Option (Option Nat × State × Memory) := do
  let (page, s) ← myosAllocPages s gfp order
  match page with
  | some pfn => some (some pfn, s, postAllocHook mem pfn order gfp)
  | none => some (none, s, mem)

/-! ## Freeing -/

/-- `__find_buddy_pfn` (`buddy.h:398-401`). -/
def findBuddyPfn (pagePfn order : Nat) : Nat := pagePfn ^^^ 2 ^ order

/-- `page_is_buddy` (`buddy.h:416-425`); `page_is_guard` is always false. -/
def pageIsBuddy (s : State) (page buddy order : Nat) : Option Bool :=
  if ¬ pageBuddy (s.pages buddy) then some false
  else if (s.pages buddy).private_ ≠ order then some false
  else do
    let zone ← myosPageZone s.maxLowPfn page
    let buddyZone ← myosPageZone s.maxLowPfn buddy
    some (zone = buddyZone)

/-- The merging loop of `__myos_free_one_page` for `n = MAX_ORDER - order` more rounds. It looks at
the pages only: no buddy is taken off its list. -/
def mergeBuddies (s : State) : Nat → Nat → Nat → Option (Nat × Nat)
  | 0, pfn, order => some (pfn, order)
  | n + 1, pfn, order => do
    let buddyPfn := findBuddyPfn pfn order
    if ← pageIsBuddy s pfn buddyPfn order then
      mergeBuddies s n (buddyPfn &&& pfn) (order + 1)
    else some (pfn, order)

/-- `__myos_free_one_page` (`buddy.c:274-293`). -/
def myosFreeOnePage (s : State) (pfn : Nat) (zone : ZoneType) (order : Nat) : Option State := do
  let (pfn, order) ← mergeBuddies s (maxOrder - order) pfn order
  addToFreeList (setBuddyOrder s pfn order) pfn zone order

/-- `free_pages_prepare` (`buddy.c:295-395`). -/
def freePagesPrepare (s : State) (pfn : Nat) : State :=
  s.modifyPage pfn fun p => { p with flags := p.flags &&& ~~~pageFlagsCheckAtPrep }

section

variable (s : State) (pfn order : Nat)

/-- `__free_pages_ok` (`buddy.c:397-419`). -/
def freePagesOk : Option State := do
  let zone ← myosPageZone s.maxLowPfn pfn
  myosFreeOnePage (freePagesPrepare s pfn) pfn zone order

/-- `__free_pages` (`buddy.c:511-519`). -/
def freePages : Option State := freePagesOk s pfn order

/-- `memblock_free_pages` (`buddy.c:547-573`). -/
def memblockFreePages : Option State := do
  let s := State.modifyPages
    (fun p => { p with flags := p.flags &&& ~~~BitVec.twoPow 64 pgReserved, refcount := 0 }) (2 ^ order) pfn s
  let zone ← myosPageZone s.maxLowPfn pfn
  let managed := Function.update s.managedPages zone (s.managedPages zone + 2 ^ order)
  freePagesOk { s with managedPages := managed } pfn order

end

/-- The state `free_area_init` (`mm_init.c:349-386`) leaves: every node is linked to itself, every
page with a zone is counted once, and `mem_map` was zeroed. `flags` are the flags of the pages, some
of them reserved by then. -/
def State.init (maxLowPfn : Nat) (flags : Nat → BitVec 64) : State :=
  { maxLowPfn := maxLowPfn
    lists := ⟨⟨.node, .node⟩, fun _ => 0⟩
    pages := fun pfn =>
      { flags := flags pfn
        private_ := 0
        pageType := 0
        refcount := if (myosPageZone maxLowPfn pfn).isSome then 1 else 0 }
    managedPages := fun _ => 0 }

end MyOS2.Buddy
