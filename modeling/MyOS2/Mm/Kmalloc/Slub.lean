import MyOS2.Lib.DoubleList
import Mathlib.Algebra.Group.Nat.Defs

/-!
# The slab allocator (`mm/kmalloc/slub.c`)

A cache hands out objects of one size. A slab is a block of pages cut into objects; its free
objects are chained through their first words, and it is on the list `partial` of the cache as
long as it has one, and on `full` otherwise.

Slabs are named by the frame of their first page. The state holds the lists of
`kmem_cache_node_s`, the fields of `slab_s` and of the pages, and the first word of every
object. What `alloc_pages` answers is an input. A call is `none` when it does not come back or
is undefined.
-/

namespace MyOS2.Slub

open Function DoubleList

abbrev Pfn := Nat
abbrev Addr := Nat

/-! ## Opening a cache -/

/-- The fields of `kmem_cache_s` that are fixed when the cache is opened; the free pointer is at
offset 0. The constructor gives the first word of an object, from its address and what is there. -/
structure Cache where
  objectSize : Nat
  size : Nat
  order : Nat
  objNr : Nat
  minPartial : Nat
  ctor : Option (Addr → Nat → Nat)

def align (x a : BitVec 32) : BitVec 32 := (x + (a - 1)) &&& ~~~(a - 1)

/-- The loop of `calculate_alignment`; it makes at most `fuel` turns. -/
def shrinkAlign (size : Nat) : Nat → Nat → Nat
  | 0, ralign => ralign
  | fuel + 1, ralign => if size ≤ ralign / 2 then shrinkAlign size fuel (ralign / 2) else ralign

/-- `calculate_alignment` (`slab_common.c:20-36`) with cache lines of 64 bytes and
`ARCH_SLAB_MINALIGN` 8; with `hwcache` (`SLAB_HWCACHE_ALIGN`) the loop never ends for the size 0. -/
def calculateAlignment (hwcache : Bool) (alignment size : BitVec 32) : Option (BitVec 32) :=
  if hwcache then
    if size = 0 then none
    else
      let ralign := shrinkAlign size.toNat 6 64
      some (align (BitVec.ofNat 32 (max (max alignment.toNat ralign) 8)) 8)
  else some (align (BitVec.ofNat 32 (max alignment.toNat 8)) 8)

/-- `fls64` (`bitops_arch.h:232-250`). -/
def fls64 (x : Nat) : Nat := if x = 0 then 0 else Nat.log2 x + 1

def getOrder (size : Nat) : Nat := fls64 ((size + 2 ^ 64 - 1) % 2 ^ 64 / 2 ^ 12)

def nrPageOrders : Nat := 11

def calculateOrderLoop (size : Nat) : Nat → Nat → Nat
  | 0, order => order
  | fuel + 1, order =>
    if order < nrPageOrders then
      let slabSize := 4096 * 2 ^ order
      if slabSize % size ≤ slabSize / 64 then order else calculateOrderLoop size fuel (order + 1)
    else order

/-- `simple_calculate_order` (`slub.c:347-366`). -/
def simpleCalculateOrder (size : Nat) : Nat :=
  calculateOrderLoop size nrPageOrders (getOrder (4 * size % 2 ^ 32))

/-- `order_objects` (`slub.c:7-10`), cut to the 16 bits of `obj_nr`; a shift by 32 or more is
undefined. -/
def orderObjects (order size : Nat) : Option Nat :=
  if order < 32 then some (4096 * 2 ^ order % 2 ^ 32 / size % 2 ^ 16) else none

/-- `-EINVAL`. -/
def einval : Int := -22

/-- `create_cache` (`slab_common.c:38-63`) and `kmem_cache_create` (`slab_common.c:90-118`). -/
def simpleKmemCacheOpen (objectSize alignment : BitVec 32) (ctor : Option (Addr → Nat → Nat)) :
    Option (Except Int Cache) := do
  let size := (align (align objectSize 8) alignment).toNat
  -- the loop divides by the size
  if size = 0 then none
  else
    let order := simpleCalculateOrder size
    let objNr ← orderObjects order size
    if objNr = 0 then some (.error einval)
    else some (.ok
      { objectSize := objectSize.toNat, size, order, objNr
        minPartial := max 4 (min 8 (Nat.log2 size / 2)), ctor })

/-! ## States -/

/-- The nodes of the lists: the two anchors, and the field `slab_list` of a slab. -/
inductive Node
  | partialAnchor
  | fullAnchor
  | slab (pfn : Pfn)
  deriving DecidableEq

/-- A cache with its slabs and their memory. -/
structure State where
  lists : DoubleList.Lists Node
  nrSlabs : Int
  totalObjects : Int
  freelist : Pfn → Addr
  inuse : Pfn → Nat
  objects : Pfn → Nat
  /-- `PG_slab`. -/
  pgSlab : Pfn → Bool
  /-- `PG_head`. -/
  pgHead : Pfn → Bool
  compoundHead : Pfn → Pfn
  /-- The first word of an object. -/
  word : Addr → Nat

/-- Pages that `alloc_pages` hands out, with the flag `PG_head`. -/
structure Pages where
  pfn : Pfn
  head : Bool

def kOffset : Addr := 0xffff800000000000

def pageToVirt (pfn : Pfn) : Addr := kOffset + pfn * 4096

def virtToPfn (x : Addr) : Pfn := (x - kOffset) / 4096

namespace State

section

variable (s : State)

def setWord (x : Addr) (v : Nat) : State :=
  { s with word := update s.word x v }

def setInuse (p : Pfn) (n : Nat) : State :=
  { s with inuse := update s.inuse p n }

def setFreelist (p : Pfn) (x : Addr) : State :=
  { s with freelist := update s.freelist p x }

/-- The free pointer is read and written only above the first page: the code spins on other
addresses. -/
def getFreepointer (object : Addr) : Option Nat :=
  if object ≤ 4095 then none else some (s.word object)

/-- `set_freepointer` (`slub.c:31-36`). -/
def setFreepointer (object next : Addr) : Option State :=
  if object ≤ 4095 then none else some (s.setWord object next)

/-- `remove_from_partial` (`slub.c:67-68`), `remove_from_full`: a walk of more nodes than the header
counts is taken for one that does not end. -/
def removeFrom (anchor : Node) (p : Pfn) : Option State := do
  let lists ← listHeaderDeleteNode (s.lists.count anchor + 1) s.lists anchor (.slab p)
  some { s with lists }

def addTo (anchor : Node) (p : Pfn) : Option State := do
  let lists ← listHeaderAddToHead s.lists anchor (.slab p)
  some { s with lists }

end

/-! ## Allocation -/

/-- `setup_object` (`slub.c:73-83`). -/
def setupObject (c : Cache) (s : State) (object : Addr) : State :=
  match c.ctor with
  | none => s
  | some ctor => s.setWord object (ctor object (s.word object))

/-- What `alloc_pages` does to the pages: all name the first one as their head. -/
def handOut (c : Cache) (s : State) (pg : Pages) : State :=
  { s with
    pgHead := update s.pgHead pg.pfn pg.head
    compoundHead := fun q =>
      if pg.pfn ≤ q ∧ q < pg.pfn + 2 ^ c.order then pg.pfn else s.compoundHead q }

/-- `alloc_slab` (`slub.c:102-117`). -/
def allocSlab (c : Cache) (s : State) (pg : Pages) : Option State :=
  if c.order = 0 ∧ pg.head = true then none
  else
    let s := s.handOut c pg
    some { s with pgSlab := update s.pgSlab pg.pfn true }

/-- The loop of `alloc_init_new_slab` that is left with `n` objects to go. -/
def initObjects (c : Cache) : Nat → Addr → State → Option (Addr × State)
  | 0, p, s => some (p, s)
  | n + 1, p, s => do
    let next := p + c.size
    let s := s.setupObject c next
    let s ← s.setFreepointer p next
    initObjects c n next s

/-- The fields that `alloc_init_new_slab` sets; `objects` has 15 bits. -/
def setSlab (c : Cache) (s : State) (p : Pfn) : State :=
  { s with
    objects := update s.objects p (c.objNr % 2 ^ 15)
    inuse := update s.inuse p 0
    freelist := update s.freelist p (pageToVirt p) }

/-- `alloc_init_new_slab` (`slub.c:119-146`). -/
def allocInitNewSlab (c : Cache) (s : State) (pg : Pages) : Option State := do
  let s ← s.allocSlab c pg
  let s := s.setSlab c pg.pfn
  let (p, s) ← initObjects c (s.objects pg.pfn - 1) (pageToVirt pg.pfn) s
  s.setFreepointer p 0

/-- `online_new_empty_slab` (`slub.c:148-160`). -/
def onlineNewEmptySlab (s : State) (p : Pfn) : Option State := do
  let s ← s.addTo .partialAnchor p
  some { s with nrSlabs := s.nrSlabs + 1, totalObjects := s.totalObjects + s.objects p }

/-- `alloc_single_from_partial` (`slub.c:168-174`). -/
def allocSingleFromPartial (s : State) (p : Pfn) : Option (Addr × State) := do
  let object := s.freelist p
  let next ← s.getFreepointer object
  some (object, (s.setFreelist p next).setInuse p ((s.inuse p + 1) % 2 ^ 16))

/-- `get_from_partial_list` (`slub.c:181-201`). The first slab decides: an object that is `NULL`
never leaves `get_freepointer`. -/
def getFromPartialList (s : State) : Option (Addr × State) :=
  match s.lists.next .partialAnchor with
  | .node (.slab p) => do
    let (object, s) ← s.allocSingleFromPartial p
    if s.inuse p = s.objects p then
      let s ← s.removeFrom .partialAnchor p
      let s ← s.addTo .fullAnchor p
      some (object, s)
    else some (object, s)
  | .node .partialAnchor => some (0, s)
  | _ => none

/-- `slab_alloc` (`slub.c:205-225`). -/
def slabAlloc (c : Cache) : List (Option Pages) → State → Option (Addr × State)
  | answers, s => do
    let (object, s) ← s.getFromPartialList
    if object ≠ 0 then some (object, s)
    else
      match answers with
      | [] => none
      | none :: _ => some (0, s)
      | some pg :: rest => do
        let s ← s.allocInitNewSlab c pg
        let s ← s.onlineNewEmptySlab pg.pfn
        slabAlloc c rest s

/-- `slab_post_alloc_hook` (`slub.h:199-249`). -/
def slabPostAllocHook (c : Cache) (s : State) (zero : Bool) (object : Addr) : State :=
  if zero then
    let bits := 8 * min 8 c.objectSize
    s.setWord object (s.word object / 2 ^ bits * 2 ^ bits)
  else s

/-- `kmem_cache_alloc` (`slub.c:227-229`) and `kmem_cache_zalloc` (`slub.h:64-67`). -/
def kmemCacheAlloc (c : Cache) (answers : List (Option Pages)) (zero : Bool) (s : State) :
    Option (Addr × State) := do
  let (object, s) ← s.slabAlloc c answers
  if object = 0 then some (0, s) else some (object, s.slabPostAllocHook c zero object)

/-! ## Freeing -/

/-- `virt_to_slab` (`slub.h:44-50`) and `virt_to_folio` (`buddy.h:85-89`). -/
def virtToSlab (s : State) (x : Addr) : Option Pfn :=
  let head := s.compoundHead (virtToPfn x)
  if s.pgSlab head then some head else none

/-- `free_single_to_partial` (`slub.c:269-275`). -/
def freeSingleToPartial (s : State) (p : Pfn) (object : Addr) : Option State := do
  let s := s.setInuse p ((s.inuse p + 2 ^ 16 - 1) % 2 ^ 16)
  let s ← s.setFreepointer object (s.freelist p)
  some (s.setFreelist p object)

/-- `free_to_partial_list` (`slub.c:277-290`). -/
def freeToPartialList (s : State) (p : Pfn) (object : Addr) : Option State := do
  if s.inuse p = s.objects p then
    let s ← s.removeFrom .fullAnchor p
    let s ← s.addTo .partialAnchor p
    s.freeSingleToPartial p object
  else s.freeSingleToPartial p object

/-- `offline_exceeded_empty_slab` (`slub.c:254-266`). -/
def offlineExceededEmptySlab (s : State) (p : Pfn) : Option State := do
  let s ← s.removeFrom .partialAnchor p
  some { s with nrSlabs := s.nrSlabs - 1, totalObjects := s.totalObjects - s.objects p }

/-- `free_slab` (`slub.c:236-252`). -/
def freeSlab (c : Cache) (s : State) (p : Pfn) : Option (Nat × State) :=
  if c.order = 0 ∧ s.pgHead p = true then none
  else some (if s.pgHead p then c.order else 0,
    { s with pgSlab := update s.pgSlab p false })

/-- `slab_free` (`slub.c:292-308`). -/
def slabFree (c : Cache) (s : State) (p : Pfn) (object : Addr) :
    Option (Option (Pfn × Nat) × State) := do
  let s ← s.freeToPartialList p object
  if s.inuse p = 0 ∨ c.minPartial ≤ s.lists.count .partialAnchor then
    let s ← s.offlineExceededEmptySlab p
    let (order, s) ← s.freeSlab c p
    some (some (p, order), s)
  else some (none, s)

/-- `kmem_cache_free` (`slub.c:310-315`). -/
def kmemCacheFree (c : Cache) (s : State) (x : Addr) : Option (Option (Pfn × Nat) × State) := do
  let p ← s.virtToSlab x
  s.slabFree c p x

end State

/-! ## Users of a cache -/

/-- The cache, and the objects that its users hold. -/
structure Users where
  state : State
  live : List Addr

/-- The calls, and what users do to their objects. -/
inductive Op
  | alloc (answers : List (Option Pages)) (zero : Bool)
  | free (x : Addr)
  /-- A user writes the first word of an object. -/
  | write (x : Addr) (v : Nat)

/-- What comes of a call. -/
inductive Result
  | allocated (x : Addr)
  | freed (pages : Option (Pfn × Nat))
  | written
  deriving DecidableEq

namespace Users
variable (c : Cache)

def step (u : Users) : Op → Option (Result × Users)
  | .alloc answers zero => do
    let (x, s) ← u.state.kmemCacheAlloc c answers zero
    some (.allocated x, ⟨s, if x = 0 then u.live else x :: u.live⟩)
  | .free x => do
    let (pages, s) ← u.state.kmemCacheFree c x
    some (.freed pages, ⟨s, u.live.erase x⟩)
  | .write x v => some (.written, ⟨u.state.setWord x v, u.live⟩)

/-- Pages that no slab of the cache uses; compound pages are marked as such. -/
def PagesOk (s : State) (pg : Pages) : Prop :=
  (∀ q < pg.pfn + 2 ^ c.order, pg.pfn < q + 2 ^ c.order → s.pgSlab q = false) ∧
  pg.head = decide (0 < c.order)

instance (s : State) (pg : Pages) : Decidable (PagesOk c s pg) :=
  inferInstanceAs (Decidable (_ ∧ _))

/-- Users free and write objects they hold, and `alloc_pages` answers with pages that are not in
use. -/
def Ok (u : Users) : Op → Prop
  | .alloc [] _ => False
  | .alloc (none :: _) _ => True
  | .alloc (some pg :: _) _ => PagesOk c u.state pg
  | .free x => x ∈ u.live
  | .write x _ => x ∈ u.live

instance (u : Users) : (op : Op) → Decidable (u.Ok c op)
  | .alloc [] _ => inferInstanceAs (Decidable False)
  | .alloc (none :: _) _ => inferInstanceAs (Decidable True)
  | .alloc (some pg :: _) _ => inferInstanceAs (Decidable (PagesOk c u.state pg))
  | .free x => inferInstanceAs (Decidable (x ∈ u.live))
  | .write x _ => inferInstanceAs (Decidable (x ∈ u.live))

/-- A cache that was just opened: two empty lists, and no slab. -/
structure Start (u : Users) : Prop where
  partialNext : u.state.lists.next .partialAnchor = .node .partialAnchor
  partialPrev : u.state.lists.prev .partialAnchor = .node .partialAnchor
  partialCount : u.state.lists.count .partialAnchor = 0
  fullNext : u.state.lists.next .fullAnchor = .node .fullAnchor
  fullPrev : u.state.lists.prev .fullAnchor = .node .fullAnchor
  fullCount : u.state.lists.count .fullAnchor = 0
  nrSlabs : u.state.nrSlabs = 0
  totalObjects : u.state.totalObjects = 0
  pgSlab : ∀ p, u.state.pgSlab p = false
  live : u.live = []

end Users

/-! ## Constructed objects -/

/-- The objects that the loop of `alloc_init_new_slab` passes to `setup_object`. -/
def setupCalls (c : Cache) : Nat → Addr → List Addr
  | 0, _ => []
  | n + 1, p => (p + c.size) :: setupCalls c n (p + c.size)

def newSlab (u : Users) : Op → Option Pages
  | .alloc (some pg :: _) _ =>
    if u.state.getFromPartialList.map (·.1) = some 0 then some pg else none
  | _ => none

/-- A cache in use, and what happened to its objects since their slabs were created: how often the
constructor ran, which first word it left, and whether the object was handed out. -/
structure Traced where
  users : Users
  made : Addr → Nat
  left : Addr → Nat
  given : Addr → Bool

namespace Traced
variable (c : Cache)

def setUp (t : Traced) (op : Op) : Traced :=
  match newSlab t.users op, c.ctor with
  | some pg, some ctor =>
    let calls := setupCalls c (c.objNr - 1) (pageToVirt pg.pfn)
    let inSlab := fun x => pageToVirt pg.pfn ≤ x ∧ x < pageToVirt (pg.pfn + 2 ^ c.order)
    { t with
      made := fun x => if inSlab x then calls.count x else t.made x
      left := fun x => if x ∈ calls then ctor x (t.users.state.word x) else t.left x
      given := fun x => if inSlab x then false else t.given x }
  | _, _ => t

def step (t : Traced) (op : Op) : Option (Result × Traced) := do
  let (r, u) ← t.users.step c op
  let t := t.setUp c op
  match r with
  | .allocated x => some (r, { t with users := u, given := update t.given x true })
  | _ => some (r, { t with users := u })

end Traced

end MyOS2.Slub
