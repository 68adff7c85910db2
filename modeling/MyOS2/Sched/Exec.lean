import MyOS2.Misc.Bytes
import Mathlib.Algebra.GroupWithZero.Nat

/-!
# The arguments of a new program (`sched/forkexec/exec.c`, `fs/vfs/binfmt_elf.c`)

`execve` copies the name of the program, the environment and the arguments into the area of the
new stack, from its end downwards and page by page. When the program was loaded,
`create_elf_tables` puts the pointers to these strings and the auxiliary vector below them.

Memory is that of the new address space. Inputs are the answer of the page allocator, what the
loader finds in the file, and two values that the source never sets: the result of
`myos_get_user_pages`, which has no `return`, and the variable `vma` of `create_elf_tables`.
-/

namespace MyOS2.Exec

abbrev Memory := Nat → UInt8

def pageSize : Nat := 4096

def stackTopMax : Nat := 2 ^ 47 - 4096

def maxArgStrlen : Nat := pageSize * 32

def maxArgStrings : Nat := 0x7fffffff

/-- `max(_STK_LIM / 4 * 3, ARG_MAX)`. -/
def stackLimit : Nat := max (8 * 1024 * 1024 / 4 * 3) 131072

def e2big : Int := 7

def efault : Int := 14

def einval : Int := 22

/-- The bytes of a C string, without the NUL that ends it. -/
structure CString where
  bytes : List UInt8
  nonzero : ∀ b ∈ bytes, b ≠ 0

namespace CString

def empty : CString := ⟨[], nofun⟩

def stored (s : CString) : List UInt8 := s.bytes ++ [0]

def size (s : CString) : Nat := s.bytes.length + 1

end CString

/-- Why a call does not go on: it returns an error, or it uses a pointer that was never written. -/
inductive Stop where
  | errno (e : Int)
  | undefined
  deriving DecidableEq, Repr

/-- What the loader tells `create_elf_tables`. -/
structure Elf where
  hwcap : Nat
  phdrAddr : Nat
  ePhnum : Nat
  interpLoadAddr : Nat
  preserveArgv0 : Bool
  eEntry : Nat
  secureexec : Nat
  execfd : Option Nat

/-- What the rest of the kernel answers. -/
structure Answers where
  /-- What `myos_get_user_pages` leaves in the register of its result. -/
  gup : Int
  /-- `alloc_page`, for the page with this number. -/
  allocPage : Nat → Bool
  /-- The file, or the error of the loader. -/
  elf : Except Int Elf
  /-- Whether the variable `vma` of `create_elf_tables` is not `NULL`. -/
  vma : Bool

/-- The fields of `linux_bprm_s` and of its stack area that stay while the strings are copied. -/
structure Area where
  vmStart : Nat
  vmEnd : Nat
  argmin : Nat

/-- The new stack, while it is filled. -/
structure Stack where
  p : Nat
  mem : Memory

/-- `get_arg_page` (`exec.c:67-88`). Outside the area, `myos_get_user_pages` does not write the
pointer that is returned. -/
def getArgPage (a : Answers) (v : Area) (pos : Nat) : Except Stop Bool :=
  if a.gup ≤ 0 then
    .ok false
  else if v.vmStart ≤ pos ∧ pos < v.vmEnd then
    .ok (a.allocPage (pos / pageSize))
  else
    .error .undefined

/-- The bytes from the start of the page up to `pos`, which a round of the copy loop can store. -/
def chunk (pos len : Nat) : Nat :=
  min len (if pos % pageSize = 0 then pageSize else pos % pageSize)

/-- The inner loop of `copy_strings` (`exec.c:304-394`) and `copy_string_kernel`: `len` bytes are
copied to the addresses below `pos`, at least one in every round. -/
def copyLoop (a : Answers) (v : Area) (bytes : List UInt8) :
    Nat → Memory → Nat → Nat → Except Stop Memory
  | 0, mem, _, _ => .ok mem
  | fuel + 1, mem, pos, len =>
    if len = 0 then
      .ok mem
    else
      match getArgPage a v (pos - chunk pos len) with
      | .error stop => .error stop
      | .ok false => .error (.errno (-e2big))
      | .ok true =>
        copyLoop a v bytes fuel
          (putBytes mem (pos - chunk pos len) ((bytes.take len).drop (len - chunk pos len)))
          (pos - chunk pos len) (len - chunk pos len)

/-- `bprm_hit_stack_limit` (`exec.c:251-254`) and `copy_string_kernel` (`exec.c:399-433`). -/
def copyString (a : Answers) (v : Area) (s : CString) (st : Stack) : Except Stop Stack :=
  let len := min s.bytes.length maxArgStrlen + 1
  if maxArgStrlen < len then
    .error (.errno (-e2big))
  else if st.p - len < v.argmin then
    .error (.errno (-e2big))
  else do
    let mem ← copyLoop a v s.stored len st.mem st.p len
    return ⟨st.p - len, mem⟩

/-- `copy_strings` (`exec.c:304-394`): the last string is copied first. -/
def copyStrings (a : Answers) (v : Area) : List CString → Stack → Except Stop Stack
  | [], st => .ok st
  | s :: rest, st => do
    let st ← copyStrings a v rest st
    copyString a v s st

/-- The pointers that the table will hold, in bytes. -/
def ptrSize (argv envp : List CString) : Nat := (max argv.length 1 + envp.length) * 8

/-- `bprm_set_stack_limit` (`exec.c:243-250`) and `bprm_stack_limits` (`exec.c:256-297`). -/
def bprmStackLimits (argv envp : List CString) (p : Nat) : Except Stop Nat :=
  if stackLimit ≤ ptrSize argv envp then
    .error (.errno (-e2big))
  else if p < stackLimit - ptrSize argv envp then
    .error (.errno (-e2big))
  else
    .ok (p - (stackLimit - ptrSize argv envp))

/-- `count` (`exec.c:197-224`). -/
def count (strs : List CString) : Except Stop Nat :=
  if maxArgStrings < strs.length then .error (.errno (-e2big)) else .ok strs.length

/-- A `linux_bprm_s` with the fields that `load_elf_binary` reads. -/
structure Bprm where
  p : Nat
  argc : Nat
  envc : Nat
  exec : Nat
  vmStart : Nat
  vmEnd : Nat
  mem : Memory

/-- `do_execveat_common` (`exec.c:1290-1372`) up to `bprm_execve`, on the stack area of one page
that `__bprm_mm_init` made. -/
def copyArguments (a : Answers) (filename : CString) (argv envp : List CString)
    (mem : Memory) : Except Stop Bprm := do
  let p := stackTopMax - 8
  let argc ← count argv
  let envc ← count envp
  let argmin ← bprmStackLimits argv envp p
  let v : Area := ⟨stackTopMax - pageSize, stackTopMax, argmin⟩
  let named ← copyString a v filename ⟨p, mem⟩
  let st ← copyStrings a v envp named
  let st ← copyStrings a v argv st
  if argc = 0 then
    let st ← copyString a v .empty st
    return ⟨st.p, 1, envc, named.p, v.vmStart, v.vmEnd, st.mem⟩
  else
    return ⟨st.p, argc, envc, named.p, v.vmStart, v.vmEnd, st.mem⟩

/-- `arch_align_stack` (`process_arch.c:168-174`), and the rounding of `STACK_ROUND`. -/
def align16 (sp : Nat) : Nat := sp / 16 * 16

/-- `setup_arg_pages` (`exec.c:457-547`): the area grows to 32 pages. -/
def setupArgPages (b : Bprm) : Bprm :=
  let stackShift := b.vmEnd - align16 stackTopMax
  { b with
    p := b.p - stackShift
    exec := b.exec - stackShift
    vmStart := min b.vmStart (b.vmEnd - 32 * pageSize) }

def wordBytes (w : Nat) : List UInt8 := (List.range 8).map fun i => UInt8.ofNat (w / 256 ^ i)

def tableBytes (ws : List Nat) : List UInt8 := ws.flatMap wordBytes

/-- `copy_to_user` (`uaccess.h:196-205`) and `put_user`: a fault in the stack area brings the page.
-/
def copyToUser (b : Bprm) (dst : Nat) (bytes : List UInt8) (mem : Memory) :
    Except Stop Memory :=
  if b.vmStart ≤ dst ∧ dst + bytes.length ≤ b.vmEnd then
    .ok (putBytes mem dst bytes)
  else
    .error (.errno (-efault))

/-- `strnlen`: the bytes before the first NUL, `fuel` at most. -/
def strnlen (mem : Memory) : Nat → Nat → Nat
  | 0, _ => 0
  | fuel + 1, p => if mem p = 0 then 0 else strnlen mem fuel (p + 1) + 1

/-- `strnlen_user` (`strnlen_user.c:92-121`). -/
def strnlenUser (mem : Memory) (p : Nat) : Nat := strnlen mem maxArgStrlen p + 1

/-- The loops for `argv` and for `envp`: `n` pointers are stored from `sp` on, the first to the
string at `p`. -/
def putPointers (b : Bprm) : Nat → Memory → Nat → Nat → Except Stop (Memory × Nat × Nat)
  | 0, mem, p, sp => .ok (mem, p, sp)
  | n + 1, mem, p, sp => do
    let mem ← copyToUser b sp (wordBytes p) mem
    if maxArgStrlen < strnlenUser mem p then
      .error (.errno (-einval))
    else
      putPointers b n mem (p + strnlenUser mem p) (sp + 8)

def elfPlatform : List UInt8 := [120, 56, 54, 95, 54, 52, 0]

/-- The entries of `saved_auxv` up to `AT_NULL`. -/
def auxEntries (e : Elf) (exec platform : Nat) : List (Nat × Nat) :=
  [(16, e.hwcap), (6, pageSize), (17, 100), (3, e.phdrAddr), (4, 56), (5, e.ePhnum),
    (7, e.interpLoadAddr), (8, if e.preserveArgv0 then 1 else 0), (9, e.eEntry),
    (23, e.secureexec), (31, exec), (15, platform)]
    ++ (e.execfd.toList.map fun fd => (2, fd)) ++ [(0, 0)]

def auxv (e : Elf) (exec platform : Nat) : List Nat :=
  (auxEntries e exec platform).flatMap fun entry => [entry.1, entry.2]

/-- The program at its start. -/
structure Image where
  sp : Nat
  vmStart : Nat
  vmEnd : Nat
  mem : Memory

/-- `create_elf_tables` (`binfmt_elf.c:125-311`). -/
def createElfTables (a : Answers) (e : Elf) (b : Bprm) : Except Stop Image := do
  let platform := align16 b.p - elfPlatform.length
  let mem ← copyToUser b platform elfPlatform b.mem
  let info := auxv e b.exec platform
  let items := (b.argc + 1) + (b.envc + 1) + 1
  let sp := align16 (platform - 8 * info.length - 8 * items)
  if a.vma then
    let mem ← copyToUser b sp (wordBytes b.argc) mem
    let (mem, p, top) ← putPointers b b.argc mem b.p (sp + 8)
    let mem ← copyToUser b top (wordBytes 0) mem
    let (mem, _, top) ← putPointers b b.envc mem p (top + 8)
    let mem ← copyToUser b top (wordBytes 0) mem
    let mem ← copyToUser b (top + 8) (tableBytes info) mem
    return ⟨sp, b.vmStart, b.vmEnd, mem⟩
  else
    .error (.errno (-efault))

/-- `execve`: the strings are copied, the file is loaded, the table is made. -/
def execve (a : Answers) (filename : CString) (argv envp : List CString) (mem : Memory) :
    Except Stop Image := do
  let b ← copyArguments a filename argv envp mem
  match a.elf with
  | .error err => .error (.errno err)
  | .ok e => createElfTables a e (setupArgPages b)

/-! ## What `execve` is to do -/

/-- The arguments that the program is to find: an empty `argv` becomes one empty string. -/
def passedArgv (argv : List CString) : List CString := if argv = [] then [.empty] else argv

/-- All strings of a call, from the bottom of the stack up. -/
def passed (filename : CString) (argv envp : List CString) : List CString :=
  passedArgv argv ++ envp ++ [filename]

def totalSize (strs : List CString) : Nat := (strs.map CString.size).sum

def Answers.givePage (a : Answers) : Bool :=
  decide (0 < a.gup) && a.allocPage ((stackTopMax - 1) / pageSize)

/-- The strings, in the order of copying, find `room` bytes of the page, or one of them is refused
before: it is too long or exceeds what is `left`. -/
def Clear : Nat → Nat → List CString → Prop
  | _, _, [] => True
  | room, left, s :: rest =>
    maxArgStrlen < s.size ∨ left < s.size ∨
      (s.size ≤ room ∧ Clear (room - s.size) (left - s.size) rest)

instance : (room left : Nat) → (strs : List CString) → Decidable (Clear room left strs)
  | _, _, [] => .isTrue trivial
  | room, left, s :: rest =>
    have := instDecidableClear (room - s.size) (left - s.size) rest
    inferInstanceAs (Decidable (_ ∨ _ ∨ (_ ∧ _)))

/-- The calls that `execve` can carry out or refuse: no page is given, so that every string is
refused, or the pointers are too many, or the strings are clear. -/
def Fits (a : Answers) (filename : CString) (argv envp : List CString) : Prop :=
  a.givePage = false ∨ stackLimit ≤ ptrSize argv envp ∨
    Clear (pageSize - 8) (stackLimit - ptrSize argv envp) (passed filename argv envp).reverse

instance (a : Answers) (filename : CString) (argv envp : List CString) :
    Decidable (Fits a filename argv envp) :=
  inferInstanceAs (Decidable (_ ∨ _ ∨ _))

end MyOS2.Exec
