import MyOS2.Mm.VmMap.Filemap
import Mathlib.Tactic.Simps.Basic

/-!
# Page faults and copy on write (`mm/fault/fault.c`)

Address spaces map their pages to frames; a frame may be mapped many times. A fault installs an
entry for a page that has none, or gives a page that must not be written an own copy; `dup_mmap`
(`sched/forkexec/fork.c`) copies the entries of an address space to a new one.

The page tables are given by the entry of each virtual page. What the allocators answer is an
input. The machine keeps the points at which a reference count or an entry has changed.
-/

namespace MyOS2.Fault

open Function
open Filemap (Byte pageSize)

abbrev Frame := Nat
abbrev Vpn := Nat
abbrev Offset := Fin pageSize

abbrev MmId := Nat

/-- What is fixed at boot, and the bytes `f_op->read` delivers of each file. -/
structure Config where
  zeroPfn : Frame
  highestMemmapPfn : Nat
  nrpages : Nat → Nat
  file : Nat → Nat → Byte

/-- `vm_ops`: `NULL`, or those of a mapped file. -/
inductive Backing
  | anonymous
  | file (id : Nat)
  deriving DecidableEq

/-- `vma_s`, in pages, with the flags that are read here. Every caller that sets `VM_WRITE` for a
private mapping sets `VM_MAYWRITE` too. -/
structure Vma where
  start : Nat
  stop : Nat
  pgoff : Nat
  read : Bool
  write : Bool
  exec : Bool
  shared : Bool
  mayWrite : Bool
  mayShare : Bool
  dontCopy : Bool
  wipeOnFork : Bool
  backing : Backing
  mayWrite_of_write : shared = false → write = true → mayWrite = true
  deriving DecidableEq

/-- A page-table entry that is not empty. -/
structure Pte where
  pfn : Frame
  present : Bool
  write : Bool
  deriving DecidableEq

/-- The counts and entries at one moment; `handed` is the frame `__folio_put` was called for. -/
structure Point where
  pte : MmId → Vpn → Option Pte
  refcount : Frame → Int
  pageArray : Nat → Nat → Option Frame
  handed : Option Frame

/-- Address spaces, page tables, frames and the page cache. -/
structure Machine where
  /-- A process uses the address space. -/
  live : MmId → Bool
  vmas : MmId → List Vma
  pte : MmId → Vpn → Option Pte
  refcount : Frame → Int
  mem : Frame → Offset → Byte
  /-- The page cache, by file and index. -/
  pageArray : Nat → Nat → Option Frame
  points : List Point

/-- The results of the fault handlers. -/
inductive VmFault
  | ok
  | oom
  | sigbus
  | nopage
  deriving DecidableEq

/-- What the allocators answer in a fault. -/
structure Answers where
  /-- The page tables of the address exist or can be allocated. -/
  tables : Bool
  /-- The frame for the process. -/
  folio : Option Frame
  /-- The frame for the page cache. -/
  cachePage : Option Frame

namespace Vma

section

variable (v : Vma)

def contains (vpn : Nat) : Bool := decide (v.start ≤ vpn ∧ vpn < v.stop)

/-- The pages of a mapping, in the order they are copied. -/
def pages : List Vpn := List.range' v.start (v.stop - v.start)

/-- `linear_page_index` (`buddy.h:210-218`), with addresses as page numbers. -/
def pageIndex (vpn : Vpn) : Nat := vpn - v.start + v.pgoff

/-- `is_cow_mapping` (`pgtable.h:150-154`). -/
def isCowMapping : Bool := !v.shared && v.mayWrite

/-- `mk_pte (page, vma->vm_page_prot)`, with the protections of `pgprot.c:9-26`. -/
def mkPte (pfn : Frame) : Pte :=
  ⟨pfn, v.read || v.write || v.exec, v.shared && v.write⟩

/-- `maybe_mkwrite` (`pgtable.h:142-147`). -/
def maybeMkwrite (e : Pte) : Pte := if v.write then { e with write := true } else e

end

end Vma

namespace Machine

/-! ## References, entries and frames -/

def point (s : Machine) (handed : Option Frame) : Machine :=
  { s with points := ⟨s.pte, s.refcount, s.pageArray, handed⟩ :: s.points }

section

variable (s : Machine) (f : Frame)

@[simps -fullyApplied]
def setRefcount (n : Int) : Machine :=
  { s with refcount := update s.refcount f n }

/-- `folio_get` (`buddy.h:159-163`). -/
@[simps! -fullyApplied pte mem vmas live pageArray refcount]
def folioGet : Machine :=
  (s.setRefcount f (s.refcount f + 1)).point none

/-- `folio_put` (`buddy.h:178-183`) and `put_page`; `__folio_put` does nothing. -/
@[simps! -fullyApplied pte mem vmas live pageArray refcount]
def folioPut : Machine :=
  (s.setRefcount f (s.refcount f - 1)).point (if s.refcount f - 1 = 0 then some f else none)

/-- `alloc_page` answered with `f`. The frame is cleared only for `__GFP_ZERO`. -/
@[simps! -fullyApplied pte mem vmas live pageArray refcount]
def allocPage : Machine :=
  (s.setRefcount f (s.refcount f + 1)).point none

end

/-- `set_pte` (`pgtable_arch.h:554-557`). -/
@[simps! -fullyApplied mem vmas live pageArray refcount]
def setPte (s : Machine) (mm : MmId) (vpn : Vpn) (e : Pte) : Machine :=
  { s with pte := update s.pte mm (update (s.pte mm) vpn (some e)) }.point none

/-- The bytes of a frame are replaced. -/
@[simps -fullyApplied]
def setFrame (s : Machine) (f : Frame) (bytes : Offset → Byte) : Machine :=
  { s with mem := update s.mem f bytes }

@[simps -fullyApplied pte mem vmas live refcount points]
def setPageArray (s : Machine) (id index : Nat) (f : Frame) : Machine :=
  { s with pageArray :=
      update s.pageArray id (update (s.pageArray id) index (some f)) }

def vmaAt (s : Machine) (mm : MmId) (vpn : Vpn) : Option Vma :=
  (s.vmas mm).find? (·.contains vpn)

end Machine

/-! ## Faults -/

/-- The fields of a `vm_fault_s` that do not change. -/
structure Vmf where
  mm : MmId
  vma : Vma
  vpn : Vpn
  write : Bool
  answers : Answers

section Handlers
variable (c : Config)

/-- `vm_normal_page` (`fault.c:125-177`): the tests for special entries are commented out. -/
def vmNormalPage (e : Pte) : Option Frame :=
  if e.pfn > c.highestMemmapPfn then none else some e.pfn

section

variable (s : Machine) (vmf : Vmf)

/-- `wp_page_copy` (`fault.c:553-694`): `page` is the frame of the entry, with a reference of the
caller. `folio_alloc` does not survive a failed allocation, and the new frame is not cleared. -/
def wpPageCopy (orig : Pte) (page : Option Frame) : Option (VmFault × Machine) := do
  let new ← vmf.answers.folio
  let s := s.allocPage new
  let s := if orig.pfn = c.zeroPfn then s
    else match page with
      | none => s
      | some old => s.setFrame new (s.mem old)
  let s := s.setPte vmf.mm vmf.vpn (vmf.vma.maybeMkwrite (vmf.vma.mkPte new))
  -- `new_folio` is the old folio here: one reference was the entry's
  match page with
  | none => some (.ok, s)
  | some old => some (.ok, (s.folioPut old).folioPut old)

/-- `do_wp_page` (`fault.c:715-771`); a shared mapping spins. -/
def doWpPage (orig : Pte) : Option (VmFault × Machine) :=
  let page := vmNormalPage c orig
  if vmf.vma.shared || vmf.vma.mayShare then none
  else
    match page with
    | none => wpPageCopy c s vmf orig none
    | some folio => wpPageCopy c (s.folioGet folio) vmf orig (some folio)

/-- `do_anonymous_page` (`fault.c:780-873`). -/
def doAnonymousPage : Option (VmFault × Machine) :=
  if vmf.vma.shared then some (.sigbus, s)
  else if !vmf.write then
    some (.ok, s.setPte vmf.mm vmf.vpn (vmf.vma.mkPte c.zeroPfn))
  else do
    let folio ← vmf.answers.folio
    some (.ok, (s.allocPage folio).setPte vmf.mm vmf.vpn
      (vmf.vma.maybeMkwrite (vmf.vma.mkPte folio)))

end

def filePage (id index : Nat) : Offset → Byte := fun off => c.file id (index * pageSize + off.val)

section

variable (s : Machine) (vmf : Vmf)

/-- `simple_filemap_fault` (`filemap.c:116-136`): the frame, now in the page cache. That the entry
was empty is only asserted. -/
def simpleFilemapFault (id : Nat) : Option (Frame × Machine) := do
  let index := vmf.vma.pageIndex vmf.vpn
  if index < c.nrpages id then
    let page ← vmf.answers.cachePage
    some (page, ((s.allocPage page).setPageArray id index page).setFrame page (filePage c id index))
  else none

/-- `simple_filemap_map_page`, through `do_fault_around` (`fault.c:1041-1078`), which asks for the
page of the fault only. -/
def simpleFilemapMapPage (id : Nat) : Option (VmFault × Machine) :=
  let index := vmf.vma.pageIndex vmf.vpn
  if index < c.nrpages id then
    match s.pageArray id index with
    | some page => some (.ok, s.setPte vmf.mm vmf.vpn ⟨page, true, false⟩)
    | none => some (.nopage, s)
  else none

/-- `__do_fault` (`fault.c:880-918`) and `do_read_fault` (`fault.c:1080-1106`). -/
def doReadFault (id : Nat) : Option (VmFault × Machine) := do
  let (ret, s) ← simpleFilemapMapPage c s vmf id
  if ret = .ok then some (ret, s)
  else
    let (page, s) ← simpleFilemapFault c s vmf id
    some (.ok, s.setPte vmf.mm vmf.vpn (vmf.vma.mkPte page))

/-- `do_cow_fault` (`fault.c:1108-1138`). -/
def doCowFault (id : Nat) : Option (VmFault × Machine) := do
  let folio ← vmf.answers.folio
  let s := s.allocPage folio
  let (page, s) ← simpleFilemapFault c s vmf id
  let s := s.setFrame folio (s.mem page)
  let s := s.setPte vmf.mm vmf.vpn (vmf.vma.mkPte folio)
  some (.ok, s.folioPut page)

/-- `do_fault` (`fault.c:1189-1230`); `do_shared_fault` spins. -/
def doFault (id : Nat) : Option (VmFault × Machine) :=
  if !vmf.write then doReadFault c s vmf id
  else if !vmf.vma.shared then doCowFault c s vmf id
  else none

/-- `do_pte_missing` (`fault.c:1232-1238`) and `handle_pte_fault` (`fault.c:1255-1302`). -/
def handlePteFault : Option (VmFault × Machine) :=
  match s.pte vmf.mm vmf.vpn with
  | none =>
    match vmf.vma.backing with
    | .anonymous => doAnonymousPage c s vmf
    | .file id => doFault c s vmf id
  | some orig =>
    if vmf.write && !orig.write then doWpPage c s vmf orig
    else some (.ok, s)

/-- `myos_handle_mm_fault` (`fault.c:1312-1367`). -/
def handleMmFault : Option (VmFault × Machine) :=
  if vmf.answers.tables then handlePteFault c s vmf else some (.oom, s)

end

end Handlers

/-! ## Copying an address space -/

/-- What the allocators answer in `dup_mmap`. -/
structure ForkAnswers where
  vma : Vma → Bool
  /-- The tables for a page of the new address space. -/
  tables : Vpn → Bool

namespace Machine

/-- The entry that parent and child have after `copy_present_pte`. -/
def protect (v : Vma) (e : Pte) : Pte :=
  if v.isCowMapping && e.write then { e with write := false } else e

/-- `copy_present_pte` (`fault.c:213-240`). No reference is taken. -/
def copyPresentPte (s : Machine) (src dst : MmId) (v : Vma) (vpn : Vpn) (e : Pte) : Machine :=
  if v.isCowMapping && e.write then
    (s.setPte src vpn { e with write := false }).setPte dst vpn { e with write := false }
  else s.setPte dst vpn e

/-- `copy_pte_range` (`fault.c:243-309`) and the loops around it, over the pages that are left;
`false` when a table cannot be allocated. -/
def copyPteRange (src dst : MmId) (v : Vma) (a : ForkAnswers) :
    List Vpn → Machine → Bool × Machine
  | [], s => (true, s)
  | vpn :: rest, s =>
    if a.tables vpn then
      match s.pte src vpn with
      | none => copyPteRange src dst v a rest s
      | some e => copyPteRange src dst v a rest (s.copyPresentPte src dst v vpn e)
    else (false, s)

def enomem : Int := -12

/-- `dup_mmap` (`fork.c:152-241`). -/
def dupMmap (src dst : MmId) (a : ForkAnswers) : List Vma → Machine → Int × Machine
  | [], s => (0, s)
  | v :: rest, s =>
    if v.dontCopy then dupMmap src dst a rest s
    else if !a.vma v then (enomem, s)
    else
      let s := { s with vmas := update s.vmas dst (s.vmas dst ++ [v]) }
      if v.wipeOnFork then dupMmap src dst a rest s
      else
        match copyPteRange src dst v a v.pages s with
        | (true, s) => dupMmap src dst a rest s
        | (false, s) => (enomem, s)

end Machine

/-! ## Processes -/

/-- A load, or a store of a byte. -/
inductive Access
  | load
  | store (v : Byte)

def Access.isStore : Access → Bool
  | .load => false
  | .store _ => true

/-- Accesses and forks of processes, and the reuse of frames. -/
inductive Op
  | access (mm : MmId) (vpn : Vpn) (off : Offset) (acc : Access) (answers : Answers)
  | fork (src dst : MmId) (answers : ForkAnswers)
  /-- A frame that no process maps is freed and used for something else. -/
  | reuse (f : Frame) (bytes : Offset → Byte)

/-- What comes of a step. -/
inductive Result
  | loaded (v : Byte)
  | stored
  | faulted (ret : VmFault)
  | badArea
  | forked (ret : Int)
  | reused
  deriving DecidableEq

namespace Machine
variable (c : Config)

/-- The fault that the access raises; the access is tried again later. -/
def fault (s : Machine) (mm : MmId) (vpn : Vpn) (write : Bool) (a : Answers) :
    Option (Result × Machine) :=
  match s.vmaAt mm vpn with
  | none => some (.badArea, s)
  | some vma => (handleMmFault c s ⟨mm, vma, vpn, write, a⟩).map fun r => (.faulted r.1, r.2)

def storeByte (s : Machine) (f : Frame) (off : Offset) (v : Byte) : Machine :=
  s.setFrame f (update (s.mem f) off v)

def permits (s : Machine) (mm : MmId) (vpn : Vpn) (acc : Access) : Option Frame :=
  match s.pte mm vpn with
  | none => none
  | some e => if e.present && (!acc.isStore || e.write) then some e.pfn else none

def step (s : Machine) : Op → Option (Result × Machine)
  | .access mm vpn off acc a =>
    match s.permits mm vpn acc, acc with
    | some f, .load => some (.loaded (s.mem f off), s)
    | some f, .store v => some (.stored, s.storeByte f off v)
    | none, acc => s.fault c mm vpn acc.isStore a
  | .fork src dst a =>
    let (ret, s) := dupMmap src dst a (s.vmas src) s
    some (.forked ret, if ret = 0 then { s with live := update s.live dst true } else s)
  | .reuse f bytes => some (.reused, s.setFrame f bytes)

/-! ## What the surroundings promise -/

/-- The frame may be handed out. -/
structure Free (s : Machine) (f : Frame) : Prop where
  inRange : f ≤ c.highestMemmapPfn
  notZero : f ≠ c.zeroPfn
  notCached : ∀ id i, s.pageArray id i ≠ some f
  unmapped : ∀ mm vpn e, s.pte mm vpn = some e → e.pfn ≠ f

/-- The frames that are handed out during a fault. -/
structure AnswersOk (s : Machine) (a : Answers) : Prop where
  folio : ∀ f, a.folio = some f → s.Free c f
  cachePage : ∀ f, a.cachePage = some f → s.Free c f
  ne : ∀ f, a.folio = some f → a.cachePage ≠ some f

/-- The address space is not in use. -/
structure Unused (s : Machine) (mm : MmId) : Prop where
  live : s.live mm = false
  vmas : s.vmas mm = []
  pte : ∀ vpn, s.pte mm vpn = none

/-- A process uses its private mappings, and a fork makes a new address space. -/
def Ok (s : Machine) : Op → Prop
  | .access mm vpn _ _ a =>
    s.live mm = true ∧ (∃ v, s.vmaAt mm vpn = some v ∧ v.shared = false) ∧ s.AnswersOk c a
  | .fork src dst _ => src ≠ dst ∧ s.Unused dst
  | .reuse f _ => s.Free c f

end Machine

def Vma.Apart (v w : Vma) : Prop := ∀ vpn, ¬ (v.contains vpn = true ∧ w.contains vpn = true)

/-- The frames that are used are frames of the memory map, and the mappings of an address space do
not overlap. -/
structure Machine.WellFormed (c : Config) (s : Machine) : Prop where
  zero : c.zeroPfn ≤ c.highestMemmapPfn
  pte : ∀ mm vpn e, s.pte mm vpn = some e → e.pfn ≤ c.highestMemmapPfn
  cache : ∀ id i f, s.pageArray id i = some f → f ≤ c.highestMemmapPfn
  apart : ∀ mm, (s.vmas mm).Pairwise Vma.Apart

end MyOS2.Fault
