import MyOS2.LockIPC.Signal
import MyOS2.Misc.LittleEndian

/-!
# Signal frames

Delivery of a signal to a handler and the return from it
(`arch/x86_64/lock_IPC/signal/signal.c`, `signal_64.c`). `handle_signal` saves the user's
registers and the blocked mask in a frame on the user's stack and makes the registers enter the
handler; `sys_rt_sigreturn` finds the frame again from the stack pointer.

User memory is a byte for every address below `2 ^ 63`, the addresses `access_ok` lets through;
its pages are taken to be there. A delivery that stores anywhere else is `none`.
-/

namespace MyOS2.SigFrame

open MyOS2.Signal (Sigset sigmask sigkill)

abbrev Word := BitVec 64

/-- The registers of `pt_regs_s` that `sigctx_s` saves and restores as they are. -/
@[ext]
structure Gprs where
  r8 : Word
  r9 : Word
  r10 : Word
  r11 : Word
  r12 : Word
  r13 : Word
  r14 : Word
  r15 : Word
  di : Word
  si : Word
  bp : Word
  bx : Word
  dx : Word
  ax : Word
  cx : Word
  sp : Word
  ip : Word
  deriving DecidableEq

/-- `pt_regs_s` (`ptrace.h:9-45`). -/
structure PtRegs extends Gprs where
  origAx : Word
  cs : Word
  flags : Word
  ss : Word
  deriving DecidableEq

/-- `sas_ss_sp`, `sas_ss_size` and `sas_ss_flags` of a task. -/
structure AltStack where
  sp : Word
  size : Word
  flags : BitVec 32
  deriving DecidableEq

/-- `sigaction_s`, without the mask that nothing here reads. -/
structure Sigaction where
  handler : Word
  flags : Word
  restorer : Word

/-- `ksignal_s`; `info` is the `kernel_siginfo_t` as it lies in memory. -/
structure Ksignal where
  ka : Sigaction
  info : BitVec 384
  sig : BitVec 32

/-- What a delivery reads besides the signal: `current->thread`, the local `uc_flags`, which nothing
has set, and the access rights that `lar` finds for a selector (zero if invalid). -/
structure Context where
  trapNr : Word
  errorCode : Word
  cr2 : Word
  ucFlags : Word
  lar : BitVec 16 → BitVec 32

def saSiginfo : Word := 0x00000004

def saRestorer : Word := 0x04000000

def saOnstack : Word := 0x08000000

def saRestart : Word := 0x10000000

/-- `SS_ONSTACK`, `SS_DISABLE` and `SS_AUTODISARM`. -/
def ssOnstack : BitVec 32 := 1

@[inherit_doc ssOnstack]
def ssDisable : BitVec 32 := 2

@[inherit_doc ssOnstack]
def ssAutodisarm : BitVec 32 := 1 <<< 31

/-- `__USER_DS` and `__USER_CS`. -/
def userDs : Word := 5 * 8 + 3

@[inherit_doc userDs]
def userCs : Word := 6 * 8 + 3

def sigstop : Nat := 19

def flag (bit : Nat) : Word := 1 <<< bit

/-- `FIX_EFLAGS` (`signal_64.c:11-16`): AC, OF, DF, TF, SF, ZF, AF, PF, CF and RF. -/
def fixEflags : Word :=
  flag 18 ||| flag 11 ||| flag 10 ||| flag 8 ||| flag 7 ||| flag 6 ||| flag 4 ||| flag 2 |||
    flag 0 ||| flag 16

/-- The flags a handler starts without: DF, RF and TF. -/
def entryFlags : Word := flag 10 ||| flag 16 ||| flag 8

section

variable (alt : AltStack) (sp : Word)

/-- `__on_sig_stack` (`signal.h:405-410`). -/
def AltStack.covers : Bool :=
  alt.sp < sp && sp - alt.sp ≤ alt.size

/-- `on_sig_stack` (`signal.h:416-431`). -/
def AltStack.onSigStack : Bool :=
  if alt.flags &&& ssAutodisarm ≠ 0 then false else alt.covers sp

/-- `sas_ss_flags` (`signal.h:434-440`). -/
def AltStack.sasSsFlags : BitVec 32 :=
  if alt.size = 0 then ssDisable else if alt.onSigStack sp then ssOnstack else 0

end

/-- `sizeof(rt_sigframe_s)`. -/
def frameSize : Nat := 440

/-- `get_sigframe` (`signal.c:34-106`): where the frame goes, and the value left in `fpstate`. -/
def getSigframe (alt : AltStack) (ka : Sigaction) (regs : PtRegs) (size : Nat) : Word × Word :=
  let nestedAltstack := alt.onSigStack regs.sp
  let sp := regs.sp - 128
  let (sp, enteringAltstack) :=
    if ka.flags &&& saOnstack ≠ 0 then
      if alt.sasSsFlags sp = 0 then (alt.sp + alt.size, true) else (sp, false)
    else if !nestedAltstack && regs.ss != userDs && ka.flags &&& saRestorer == 0 &&
        ka.restorer != 0 then (ka.restorer, true)
    else (sp, false)
  let fpstate := sp
  let sp := ((sp - BitVec.ofNat 64 size) &&& ~~~15#64) - 8
  -- the address that is meant to be bogus is not looked at by the caller
  if (nestedAltstack || enteringAltstack) && !alt.covers sp then (-1, fpstate) else (sp, fpstate)

def word (offset : Nat) (v : Word) : Field := ⟨offset, 8, v.toNat⟩

/-- `__unsafe_setup_sigcontext` (`signal_64.c:97-135`), at the place of `uc.uc_mcontext` in
`rt_sigframe_s`. -/
def setupSigcontext (ctx : Context) (fpstate : Word) (regs : PtRegs) (mask : Sigset) :
    List Field :=
  [word 112 regs.di, word 120 regs.si, word 128 regs.bp, word 168 regs.sp, word 136 regs.bx,
    word 144 regs.dx, word 160 regs.cx, word 152 regs.ax, word 48 regs.r8, word 56 regs.r9,
    word 64 regs.r10, word 72 regs.r11, word 80 regs.r12, word 88 regs.r13, word 96 regs.r14,
    word 104 regs.r15, word 208 ctx.trapNr, word 200 ctx.errorCode, word 176 regs.ip,
    word 184 regs.flags, ⟨192, 2, regs.cs.toNat⟩, ⟨194, 2, 0⟩, ⟨196, 2, 0⟩,
    ⟨198, 2, regs.ss.toNat⟩, word 232 fpstate, word 216 mask, word 224 ctx.cr2]

/-- `copy_siginfo_to_user` (`signal.c:1060-1068`). -/
def copySiginfoToUser (info : BitVec 384) : List Field :=
  [⟨312, 48, info.toNat⟩, ⟨360, 80, 0⟩]

/-- The stores of `x64_setup_rt_frame`, in their order. -/
def frameFields (alt : AltStack) (ksig : Ksignal) (ctx : Context) (fpstate : Word)
    (regs : PtRegs) (mask : Sigset) : List Field :=
  [word 8 ctx.ucFlags, word 16 0, word 24 alt.sp, ⟨32, 4, alt.flags.toNat⟩, word 40 alt.size,
    word 0 ksig.ka.restorer] ++ setupSigcontext ctx fpstate regs mask ++ [word 304 mask] ++
    if ksig.ka.flags &&& saSiginfo ≠ 0 then copySiginfoToUser ksig.info else []

/-- `force_valid_ss` (`signal_64.c:23-45`): the selector stays if it is one of a writable data
segment of the user. -/
def forceValidSs (ctx : Context) (ss : Word) : Word :=
  let ar := ctx.lar (ss.setWidth 16) &&& (3 <<< 13 ||| 1 <<< 12 ||| 1 <<< 15 ||| 7 <<< 9)
  if ar ≠ 3 <<< 13 ||| 1 <<< 12 ||| 1 <<< 15 ||| 1 <<< 9 ∧
      ar ≠ 3 <<< 13 ||| 1 <<< 12 ||| 1 <<< 15 ||| 3 <<< 9 then userDs else ss

def handlerRegs (ksig : Ksignal) (ctx : Context) (regs : PtRegs) (frame : Word) : PtRegs :=
  { regs with
    di := ksig.sig.signExtend 64
    ax := 0
    si := frame + 312
    dx := frame + 8
    ip := ksig.ka.handler
    sp := frame
    cs := userCs
    ss := if regs.ss ≠ userDs then forceValidSs ctx regs.ss else regs.ss }

/-- `x64_setup_rt_frame` (`signal_64.c:160-237`). -/
def x64SetupRtFrame (alt : AltStack) (ksig : Ksignal) (ctx : Context) (regs : PtRegs)
    (mask : Sigset) (mem : Nat → UInt8) : Option (Int × PtRegs × (Nat → UInt8)) :=
  if ksig.ka.flags &&& saRestorer = 0 then some (-14, regs, mem)
  else
    let (frame, fpstate) := getSigframe alt ksig.ka regs frameSize
    -- `user_access_begin` is commented out: the stores go wherever the frame is
    if 2 ^ 63 < frame.toNat + frameSize then none
    else
      some (0, handlerRegs ksig ctx regs frame,
        Field.putAll mem frame.toNat (frameFields alt ksig ctx fpstate regs mask))

/-- `syscall_get_error` (`syscall.h:57-73`). -/
def syscallGetError (regs : PtRegs) : Word := if -4095 ≤ regs.ax then regs.ax else 0

/-- The first part of `handle_signal`: a system call that the signal has interrupted ends with
`-EINTR` or is made again. -/
def restartSyscall (ka : Sigaction) (regs : PtRegs) : PtRegs :=
  if regs.origAx.setWidth 32 = -1#32 then regs
  else
    let error := syscallGetError regs
    if error = -516 ∨ error = -514 then { regs with ax := -4 }
    else if error = -512 ∧ ka.flags &&& saRestart = 0 then { regs with ax := -4 }
    else if error = -512 ∨ error = -513 then
      { regs with ax := regs.origAx, ip := regs.ip - 2 }
    else regs

/-- `handle_signal` (`signal.c:165-223`) and `setup_rt_frame` (`signal.c:146-163`). -/
def handleSignal (alt : AltStack) (ksig : Ksignal) (ctx : Context) (regs : PtRegs)
    (mask : Sigset) (mem : Nat → UInt8) : Option (Bool × PtRegs × (Nat → UInt8)) :=
  (x64SetupRtFrame alt ksig ctx (restartSyscall ksig.ka regs) mask mem).map
    fun (error, regs, mem) =>
      if error < 0 then (false, regs, mem)
      else (true, { regs with flags := regs.flags &&& ~~~entryFlags }, mem)

section

variable (mem : Nat → UInt8) (a : Nat)

def loadWord : Word := BitVec.ofNat 64 (readLe mem a 8)

/-- The general registers in the frame at an address. -/
def loadGprs : Gprs where
  r8 := loadWord mem (a + 48)
  r9 := loadWord mem (a + 56)
  r10 := loadWord mem (a + 64)
  r11 := loadWord mem (a + 72)
  r12 := loadWord mem (a + 80)
  r13 := loadWord mem (a + 88)
  r14 := loadWord mem (a + 96)
  r15 := loadWord mem (a + 104)
  di := loadWord mem (a + 112)
  si := loadWord mem (a + 120)
  bp := loadWord mem (a + 128)
  bx := loadWord mem (a + 136)
  dx := loadWord mem (a + 144)
  ax := loadWord mem (a + 152)
  cx := loadWord mem (a + 160)
  sp := loadWord mem (a + 168)
  ip := loadWord mem (a + 176)

/-- `restore_sigcontext` (`signal_64.c:47-94`). -/
def restoreSigcontext (regs : PtRegs) : PtRegs where
  toGprs := loadGprs mem a
  cs := BitVec.ofNat 64 (readLe mem (a + 192) 2) ||| 3
  ss := BitVec.ofNat 64 (readLe mem (a + 198) 2) ||| 3
  flags := (regs.flags &&& ~~~fixEflags) ||| (loadWord mem (a + 184) &&& fixEflags)
  origAx := -1

end

/-- `__set_current_blocked` (`signal.c:1097-1111`) and `set_current_blocked` (`signal.c:1120-1124`).
-/
def setCurrentBlocked (set : Sigset) : Sigset := set &&& ~~~(sigmask sigkill ||| sigmask sigstop)

def sysRtSigreturn (regs : PtRegs) (blocked : Sigset) (mem : Nat → UInt8) : PtRegs × Sigset :=
  let frame := (regs.sp - 8).toNat
  if frame < 2 ^ 63 then
    (restoreSigcontext mem frame regs, setCurrentBlocked (loadWord mem (frame + 304)))
  else ({ regs with ax := 0 }, blocked)

end MyOS2.SigFrame
