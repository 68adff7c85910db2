import MyOS2.Misc.Overwrite
import Mathlib.Logic.Function.Basic

/-!
# Reading and writing through the page cache

The page cache of a file (`mm/vm_map/filemap.c`) is an array of pages, filled from the file when
they are first needed. Both transfer functions walk over the pages of the range and copy the
part of each page that lies in it.

A call is given the frames `alloc_page` will answer with, by page index, and `f_op->read` puts
the bytes of the backing file into the new page.
-/

namespace MyOS2.Filemap

def pageSize : Nat := 4096

abbrev Byte := BitVec 8

/-- What both functions read of `addr_spc_s`: the number of entries of `page_array`, the frame of
each cached page, the bytes of all frames, and those `f_op->read` delivers. -/
structure Mapping where
  nrpages : Nat
  pageArray : Nat → Option Nat
  mem : Nat → Nat → Byte
  file : Nat → Byte

/-- What the loops work on: the mapping and the caller's buffer. -/
structure Transfer where
  mapping : Mapping
  buf : Nat → Byte

/-- `alloc_page` answered with `frame`, and `f_op->read` fills it with the bytes of the file from
`pgcache_pos` on. -/
def Mapping.fill (s : Mapping) (frame pgcachePos : Nat) : Mapping :=
  { s with
    pageArray := Function.update s.pageArray (pgcachePos / pageSize) (some frame)
    mem := Function.update s.mem frame (fun i => s.file (pgcachePos + i)) }

/-- The page that a round of `simple_filemap_read` (`filemap.c:204-238`) copies from. -/
def findPage (s : Mapping) (frames : Nat → Nat) (pgcachePos : Nat) : Option (Nat × Mapping) :=
  let idx := pgcachePos / pageSize
  if idx < s.nrpages then
    match s.pageArray idx with
    | some frame => some (frame, s)
    | none => some (frames idx, s.fill (frames idx) pgcachePos)
  else none

/-- Where in the page the round starts. -/
def inpageStart (start pgcachePos : Nat) : Nat := max pgcachePos start % pageSize

/-- How many bytes the round copies. -/
def chunkLen (start end_ pgcachePos : Nat) : Int :=
  if pgcachePos + pageSize < end_ then (pageSize : Int) - inpageStart start pgcachePos
  else ((end_ % pageSize : Nat) : Int) - inpageStart start pgcachePos

/-- The loop of both functions; `copy` gets the frame, the place in it, the place in the buffer and
the length of one page's part. A negative length is a huge `size_t` for `memcpy`, which has no
defined result. The value returned is how far `bufp` got. -/
def pageLoop (memcpy : Nat → Nat → Nat → Nat → Transfer → Transfer) (frames : Nat → Nat)
    (start end_ : Nat) : Nat → Nat → Nat → Transfer → Option (Nat × Transfer)
  | 0, _, _, _ => none
  | fuel + 1, pgcachePos, bufp, x =>
    if pgcachePos < end_ then do
      let (frame, mapping) ← findPage x.mapping frames pgcachePos
      let len := chunkLen start end_ pgcachePos
      if len < 0 then none
      else
        pageLoop memcpy frames start end_ fuel (pgcachePos + pageSize) (bufp + len.toNat)
          (memcpy frame (inpageStart start pgcachePos) bufp len.toNat
            { x with mapping := mapping })
    else some (bufp, x)

def pageAlignDown (a : Nat) : Nat := a / pageSize * pageSize

def Mapping.setPage (s : Mapping) (frame : Nat) (page : Nat → Byte) : Mapping :=
  { s with mem := Function.update s.mem frame page }

def copyOut (frame inpage bufp len : Nat) (x : Transfer) : Transfer :=
  let src := fun i => x.mapping.mem frame (inpage + (i - bufp))
  { x with buf := overwrite x.buf bufp (bufp + len) src }

def copyIn (frame inpage bufp len : Nat) (x : Transfer) : Transfer :=
  let src := fun i => x.buf (bufp + (i - inpage))
  let page := overwrite (x.mapping.mem frame) inpage (inpage + len) src
  { x with mapping := x.mapping.setPage frame page }

section

variable (s : Mapping) (frames : Nat → Nat) (pos n : Nat) (buf : Nat → Byte)

/-- `generic_file_read_iter` (`filemap.c:262-306`) and `simple_filemap_read` (`filemap.c:204-238`).
-/
def simpleFilemapRead : Option (Nat × Transfer) :=
  pageLoop copyOut frames pos (pos + n) (pos + n + 1) (pageAlignDown pos) 0
    { mapping := s, buf := buf }

/-- `generic_file_write_iter` (`filemap.c:360-406`) and `generic_perform_write`
(`filemap.c:310-344`). -/
def genericPerformWrite : Option (Nat × Transfer) :=
  pageLoop copyIn frames pos (pos + n) (pos + n + 1) (pageAlignDown pos) 0
    { mapping := s, buf := buf }

end

/-! ## A file and its users -/

/-- The calls, each with the frames `alloc_page` answers with during it. -/
inductive Op
  | read (frames : Nat → Nat) (pos n : Nat) (buf : Nat → Byte)
  | write (frames : Nat → Nat) (pos n : Nat) (buf : Nat → Byte)

/-- One call: the value returned with the buffer afterwards, and the mapping. -/
def Mapping.step (s : Mapping) : Op → Option ((Nat × (Nat → Byte)) × Mapping)
  | .read frames pos n buf => do
    let (ret, x) ← simpleFilemapRead s frames pos n buf
    some ((ret, x.buf), x.mapping)
  | .write frames pos n buf => do
    let (ret, x) ← genericPerformWrite s frames pos n buf
    some ((ret, x.buf), x.mapping)

/-- A mapping as it is set up for a file: no page is cached yet. -/
def Mapping.Empty (s : Mapping) : Prop := ∀ i, s.pageArray i = none

/-- `alloc_page` answers with frames that are not in use, and with a different one each time. -/
structure Mapping.FreshFrames (s : Mapping) (frames : Nat → Nat) : Prop where
  unused : ∀ i < s.nrpages, s.pageArray i = none → ∀ j, s.pageArray j ≠ some (frames i)
  distinct : ∀ i < s.nrpages, ∀ j < s.nrpages, s.pageArray i = none → s.pageArray j = none →
    frames i = frames j → i = j

/-- The range lies inside the array and is not empty. -/
def Mapping.Ok (s : Mapping) : Op → Prop
  | .read frames pos n _ | .write frames pos n _ =>
    0 < n ∧ pos + n ≤ s.nrpages * pageSize ∧ s.FreshFrames frames

/-- The byte the file logically has at an offset: the one in the cached page if there is one. -/
def Mapping.content (s : Mapping) (off : Nat) : Byte :=
  match s.pageArray (off / pageSize) with
  | some frame => s.mem frame (off % pageSize)
  | none => s.file off

end MyOS2.Filemap
