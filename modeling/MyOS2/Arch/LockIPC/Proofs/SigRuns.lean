import MyOS2.Arch.LockIPC.Proofs.SigFrame
import MyOS2.Misc.Runs

/-!
# Nested signal handlers

A run of a task: user code, deliveries and returns in any order. A state also remembers the
frames still to be returned from, with what each was made from; the kernel has no such list. As
long as every delivery finds room (`Room`), each frame lies apart from the others and from the
red zone, and the return from it restores what was in force when it was made
(`restored_of_room`).
-/

namespace MyOS2.SigFrame

open MyOS2.Signal (Sigset)

/-- A frame to be returned from: its place, and the registers and the mask of the delivery. -/
structure Saved where
  addr : Nat
  regs : PtRegs
  blocked : Sigset

/-- The task at its return to user mode, with the frames still to be returned from. -/
structure State where
  regs : PtRegs
  blocked : Sigset
  mem : Nat → UInt8
  frames : List Saved

inductive Op where
  /-- User code runs and leaves these registers, this mask and this memory. -/
  | user (regs : PtRegs) (blocked : Sigset) (mem : Nat → UInt8)
  | deliver (ksig : Ksignal) (ctx : Context)
  | sigreturn

/-- A return with the stack pointer of the innermost frame is the return from it; after any other
one the frames there were no longer count. -/
def returned (sp : Nat) : List Saved → List Saved
  | [] => []
  | f :: fs => if sp = f.addr + 8 then fs else []

def step (alt : AltStack) (s : State) : Op → Option (Unit × State)
  | .user regs blocked mem => some ((), { s with regs, blocked, mem })
  | .deliver ksig ctx =>
    (handleSignal alt ksig ctx s.regs s.blocked s.mem).map fun (entered, regs, mem) =>
      let saved := ⟨regs.sp.toNat, restartSyscall ksig.ka s.regs, s.blocked⟩
      ((), { s with regs, mem, frames := if entered then saved :: s.frames else s.frames })
  | .sigreturn =>
    let (regs, blocked) := sysRtSigreturn s.regs s.blocked s.mem
    some ((), { s with regs, blocked, frames := returned s.regs.sp.toNat s.frames })

/-- The selectors request privilege 3. -/
def UserMode (regs : PtRegs) : Prop := regs.cs &&& 3 = 3 ∧ regs.ss &&& 3 = 3

instance (regs : PtRegs) : Decidable (UserMode regs) := inferInstanceAs (Decidable (_ ∧ _))

/-- Code with the stack pointer `sp` runs inside the handler of the frame at `a`: below it on the
same stack, or on the alternate stack while the frame is on the normal one. -/
def Inside (alt : AltStack) (sp a : Nat) : Prop :=
  (alt.Spans sp ∧ ¬ alt.Spans a) ∨ ((alt.Spans sp ↔ alt.Spans a) ∧ sp ≤ a + 8)

/-- User code leaves the frames unmodified and keeps to its stack. -/
def Allowed (alt : AltStack) (s : State) : Op → Prop
  | .user regs _ mem =>
    UserMode regs ∧
    (∀ f ∈ s.frames, ∀ x, f.addr ≤ x → x < f.addr + frameSize → mem x = s.mem x) ∧
    ∀ f ∈ s.frames.head?, Inside alt regs.sp.toNat f.addr
  | _ => True

/-- A delivery that enters the handler finds room for its frame. -/
def HasRoom (alt : AltStack) (s : State) : Op → Prop
  | .deliver ksig _ => ksig.ka.flags &&& saRestorer ≠ 0 → Room alt ksig.ka s.regs.sp
  | _ => True

/-- The bytes `[a, a + n)` and `[b, b + m)` have nothing in common. -/
def Apart (a n b m : Nat) : Prop := a + n ≤ b ∨ b + m ≤ a

def Right (s s' : State) : Op → Prop
  | .user .. => True
  | .deliver ksig _ =>
    ksig.ka.flags &&& saRestorer ≠ 0 →
      s'.regs.sp.toNat % 16 = 8 ∧
      Apart s'.regs.sp.toNat frameSize (s.regs.sp.toNat - 128) 128 ∧
      ∀ f ∈ s.frames, Apart s'.regs.sp.toNat frameSize f.addr frameSize
  | .sigreturn =>
    UserMode s'.regs ∧
    s'.regs.flags &&& ~~~fixEflags = s.regs.flags &&& ~~~fixEflags ∧
    ∀ f ∈ s.frames.head?, s.regs.sp.toNat = f.addr + 8 →
      s'.regs.toGprs = f.regs.toGprs ∧
      s'.regs.flags &&& fixEflags = f.regs.flags &&& fixEflags ∧
      s'.blocked = setCurrentBlocked f.blocked

def Start (s : State) : Prop := UserMode s.regs ∧ s.frames = []

variable {alt : AltStack} {ka : Sigaction} {ksig : Ksignal} {ctx : Context} {regs : PtRegs}
  {mask : Sigset} {mem : Nat → UInt8} {a b : Nat} {sp : Word} {s s' : State} {op : Op}
  {f : Saved} {fs : List Saved}

/-! ## Places of frames -/

/-- A frame in user memory, on the alternate stack or clear of it. -/
structure Placed (alt : AltStack) (a : Nat) : Prop where
  user : a + frameSize ≤ 2 ^ 63
  within : alt.Spans a → a + frameSize ≤ alt.hi
  clear : ¬ alt.Spans a → alt.size = 0 ∨ a + frameSize ≤ alt.lo ∨ alt.hi < a

def Over (alt : AltStack) (a b : Nat) : Prop :=
  (alt.Spans a ∧ ¬ alt.Spans b) ∨ ((alt.Spans a ↔ alt.Spans b) ∧ a + frameSize ≤ b)

theorem AltStack.not_spans_of_size (h : alt.size = 0) : ¬ alt.Spans a := by
  rintro ⟨hlo, hhi⟩
  rw [AltStack.hi, h] at hhi
  exact absurd hhi (Nat.not_le.2 hlo)

theorem Over.apart (h : Over alt a b) (ha : Placed alt a) (hb : Placed alt b) :
    Apart a frameSize b frameSize := by
  rcases h with ⟨hon, hoff⟩ | ⟨-, hle⟩
  · have hin := ha.within hon
    have hlo := hon.1
    rcases hb.clear hoff with hz | hle | hlt
    · exact absurd hon (AltStack.not_spans_of_size hz)
    · exact .inr (by omega)
    · exact .inl (by omega)
  · exact .inl hle

theorem Over.inside (h : Over alt a b) : Inside alt a b := by
  rcases h with h | ⟨hiff, hle⟩
  · exact .inl h
  · exact .inr ⟨hiff, by omega⟩

theorem Inside.trans_over {p : Nat} (h : Inside alt p a) (hover : Over alt a b) : Inside alt p b := by
  rcases h with ⟨hp, ha⟩ | ⟨hpa, hle⟩
  · rcases hover with ⟨ha', -⟩ | ⟨hab, -⟩
    · exact absurd ha' ha
    · exact .inl ⟨hp, fun hb => ha (hab.2 hb)⟩
  · rcases hover with ⟨ha, hb⟩ | ⟨hab, hle'⟩
    · exact .inl ⟨hpa.2 ha, hb⟩
    · exact .inr ⟨hpa.trans hab, by omega⟩

namespace Room

variable (h : Room alt ka sp)

include h

theorem not_spans_frame (hsw : ¬ Switches alt ka sp) (hon : ¬ alt.Spans sp.toNat) :
    ¬ alt.Spans (frameBelow (frameTop alt ka sp)) := by
  rintro ⟨hlo, hhi⟩
  have hle := frameBelow_add_le h.frameBelow_pos
  rw [frameTop, if_neg hsw] at hlo hhi hle
  rcases (h.normal hsw hon).2 with hz | hbelow | habove
  · rw [AltStack.hi, hz] at hhi
    exact absurd hhi (Nat.not_le.2 hlo)
  · omega
  · omega

theorem placed : Placed alt (frameBelow (frameTop alt ka sp)) := by
  have hle := frameBelow_add_le h.frameBelow_pos
  refine ⟨h.frame_le, fun hspans => ?_, fun hoff => ?_⟩
  · by_cases hsw : Switches alt ka sp
    · rw [frameTop, if_pos hsw] at hle ⊢
      omega
    · have hon : alt.Spans sp.toNat := by
        by_contra hoff
        exact h.not_spans_frame hsw hoff hspans
      rw [frameTop, if_neg hsw] at hle ⊢
      have := hon.2
      omega
  · have hsw : ¬ Switches alt ka sp := fun hsw => hoff (h.spans_frame (.inl hsw))
    have hon : ¬ alt.Spans sp.toNat := fun hon => hoff (h.spans_frame (.inr hon))
    rw [frameTop, if_neg hsw] at hle ⊢
    rcases (h.normal hsw hon).2 with hz | hbelow | habove
    · exact .inl hz
    · exact .inr (.inl (by omega))
    · exact .inr (.inr habove)

theorem isOver (hin : Inside alt sp.toNat a) : Over alt (frameBelow (frameTop alt ka sp)) a := by
  have hle := frameBelow_add_le h.frameBelow_pos
  rcases hin with ⟨hsp, ha⟩ | ⟨hiff, hspa⟩
  · exact .inl ⟨h.spans_frame (.inr hsp), ha⟩
  · by_cases hsw : Switches alt ka sp
    · exact .inl ⟨h.spans_frame (.inl hsw), fun ha => h.not_spans_of_switches hsw (hiff.2 ha)⟩
    · have hsame : alt.Spans (frameBelow (frameTop alt ka sp)) ↔ alt.Spans a := by
        refine Iff.trans ⟨fun hf => ?_, fun hsp => h.spans_frame (.inr hsp)⟩ hiff
        by_contra hsp
        exact h.not_spans_frame hsw hsp hf
      rw [frameTop, if_neg hsw] at hle hsame ⊢
      exact .inr ⟨hsame, by omega⟩

theorem apart_redZone : Apart (frameBelow (frameTop alt ka sp)) frameSize (sp.toNat - 128) 128 := by
  have hle := frameBelow_add_le h.frameBelow_pos
  by_cases hsw : Switches alt ka sp
  · obtain ⟨hoff, -, hlo⟩ := h.switch hsw
    have := h.redZone
    rw [frameTop, if_pos hsw] at hle ⊢
    rcases hoff with hbelow | habove
    · exact .inr (by omega)
    · exact .inl (by omega)
  · rw [frameTop, if_neg hsw] at hle ⊢
    exact .inl (by omega)

end Room

/-! ## One step -/

theorem restartSyscall_sp : (restartSyscall ka regs).sp = regs.sp := by
  simp only [restartSyscall]
  split
  · rfl
  · repeat' split
    all_goals rfl

theorem restartSyscall_userMode (ka : Sigaction) (h : UserMode regs) : UserMode (restartSyscall ka regs) := by
  simp only [restartSyscall]
  split
  · exact h
  · repeat' split
    all_goals exact h

theorem forceValidSs_and {ss : Word} (h : ss &&& 3 = 3) : forceValidSs ctx ss &&& 3 = 3 := by
  simp only [forceValidSs]
  split
  · decide
  · exact h

theorem handlerRegs_userMode (ksig : Ksignal) (frame : Word) (h : UserMode regs) :
    UserMode (handlerRegs ksig ctx regs frame) := by
  refine ⟨show userCs &&& 3 = 3 by decide, ?_⟩
  simp only [handlerRegs]
  split
  · exact forceValidSs_and h.2
  · exact h.2

/-- Delivery with room: the handler starts at the frame, which holds the registers. -/
theorem handleSignal_of_room (ctx : Context) (mask : Sigset) (mem : Nat → UInt8)
    (hka : ksig.ka.flags &&& saRestorer ≠ 0)
    (h : Room alt ksig.ka regs.sp) (huser : UserMode regs) :
    ∃ regs' fpstate, handleSignal alt ksig ctx regs mask mem =
        some (true, regs', Field.putAll mem (frameBelow (frameTop alt ksig.ka regs.sp))
          (frameFields alt ksig ctx fpstate (restartSyscall ksig.ka regs) mask)) ∧
      regs'.sp.toNat = frameBelow (frameTop alt ksig.ka regs.sp) ∧ UserMode regs' := by
  have hsp : (restartSyscall ksig.ka regs).sp = regs.sp := restartSyscall_sp
  have huser' := restartSyscall_userMode ksig.ka huser
  have hframe := getSigframe_toNat (restartSyscall ksig.ka regs) hka (by rwa [hsp])
  rw [hsp] at hframe
  generalize hget : getSigframe alt ksig.ka (restartSyscall ksig.ka regs) frameSize = place at hframe
  obtain ⟨frame, fpstate⟩ := place
  have hfits : ¬ 2 ^ 63 < frame.toNat + frameSize := by
    rw [show frame.toNat = _ from hframe]
    exact Nat.not_lt.2 h.frame_le
  refine ⟨{ handlerRegs ksig ctx (restartSyscall ksig.ka regs) frame with
    flags := (handlerRegs ksig ctx (restartSyscall ksig.ka regs) frame).flags &&& ~~~entryFlags },
    fpstate, ?_, hframe, handlerRegs_userMode ksig frame huser'⟩
  rw [← show frame.toNat = _ from hframe, handleSignal, x64SetupRtFrame, if_neg hka, hget]
  simp only [if_neg hfits, Option.map_some, Int.lt_irrefl, if_false]

theorem handleSignal_of_not_restorer (hka : ksig.ka.flags &&& saRestorer = 0) :
    handleSignal alt ksig ctx regs mask mem = some (false, restartSyscall ksig.ka regs, mem) := by
  simp only [handleSignal, x64SetupRtFrame, if_pos hka, Option.map_some]
  rw [if_pos (by decide)]

/-! ## The invariant -/

/-- The frames are where they were put, apart from each other, and unmodified. -/
structure Inv (alt : AltStack) (s : State) : Prop where
  user : UserMode s.regs
  inside : ∀ f ∈ s.frames, Inside alt s.regs.sp.toNat f.addr
  placed : ∀ f ∈ s.frames, Placed alt f.addr
  recorded : ∀ f ∈ s.frames, Recorded s.mem f.addr f.regs f.blocked
  nested : s.frames.Pairwise fun f g => Over alt f.addr g.addr ∧ Inside alt f.regs.sp.toNat g.addr

theorem inv_start (h : Start s) : Inv alt s := by
  obtain ⟨huser, hnil⟩ := h
  constructor
  case user => exact huser
  case nested =>
    rw [hnil]
    exact .nil
  all_goals
    rw [hnil]
    nofun

def State.entered (s : State) (regs : PtRegs) (ka : Sigaction) (fields : List Field) : State where
  regs := regs
  blocked := s.blocked
  mem := Field.putAll s.mem regs.sp.toNat fields
  frames := ⟨regs.sp.toNat, restartSyscall ka s.regs, s.blocked⟩ :: s.frames

theorem Inv.step_deliver (hinv : Inv alt s) (hka : ksig.ka.flags &&& saRestorer ≠ 0)
    (hroom : Room alt ksig.ka s.regs.sp) :
    ∃ regs' fpstate, step alt s (.deliver ksig ctx) =
        some ((), s.entered regs' ksig.ka
          (frameFields alt ksig ctx fpstate (restartSyscall ksig.ka s.regs) s.blocked)) ∧
      regs'.sp.toNat = frameBelow (frameTop alt ksig.ka s.regs.sp) ∧ UserMode regs' := by
  obtain ⟨regs', fpstate, hgo, hsp, huser⟩ :=
    handleSignal_of_room ctx s.blocked s.mem hka hroom hinv.user
  refine ⟨regs', fpstate, ?_, hsp, huser⟩
  rw [step, hgo, ← hsp]
  rfl

theorem Inv.entered (hinv : Inv alt s) (hroom : Room alt ka s.regs.sp)
    (hsp : regs.sp.toNat = frameBelow (frameTop alt ka s.regs.sp)) (huser : UserMode regs)
    {fields : List Field} (hwithin : ∀ g ∈ fields, g.offset + g.width ≤ frameSize)
    (hrec : Recorded (Field.putAll s.mem regs.sp.toNat fields) regs.sp.toNat
      (restartSyscall ka s.regs) s.blocked) : Inv alt (s.entered regs ka fields) := by
  have hover : ∀ g ∈ s.frames, Over alt regs.sp.toNat g.addr := by
    rw [hsp]
    exact fun g hg => hroom.isOver (hinv.inside g hg)
  have hplaced : Placed alt regs.sp.toNat := hsp ▸ hroom.placed
  constructor
  case user => exact huser
  case inside =>
    intro f hf
    rcases List.mem_cons.1 hf with rfl | hf
    · exact .inr ⟨Iff.rfl, Nat.le_add_right ..⟩
    · exact (hover f hf).inside
  case placed =>
    intro f hf
    rcases List.mem_cons.1 hf with rfl | hf
    · exact hplaced
    · exact hinv.placed f hf
  case recorded =>
    intro f hf
    rcases List.mem_cons.1 hf with rfl | hf
    · exact hrec
    · -- the stores stay in the new frame
      have hapart := (hover f hf).apart hplaced (hinv.placed f hf)
      refine (hinv.recorded f hf).congr fun x hlo hhi => ?_
      refine Field.putAll_of_outside hwithin ?_
      rcases hapart with hle | hle <;> omega
  case nested =>
    refine List.pairwise_cons.2 ⟨fun g hg => ⟨hover g hg, ?_⟩, hinv.nested⟩
    rw [restartSyscall_sp]
    exact hinv.inside g hg

theorem Inv.user_step (hinv : Inv alt s) {blocked : Sigset}
    (hok : Allowed alt s (.user regs blocked mem)) : Inv alt { s with regs, blocked, mem } := by
  obtain ⟨huser, hsame, hin⟩ := hok
  constructor
  case user => exact huser
  case inside =>
    intro g hg
    -- what is asked below the innermost frame follows for the others
    cases hfs : s.frames with
    | nil =>
      rw [hfs] at hg
      contradiction
    | cons f fs =>
      have hf : Inside alt regs.sp.toNat f.addr := hin f (by rw [hfs]; rfl)
      have hnest := hinv.nested
      rw [hfs] at hg hnest
      rcases List.mem_cons.1 hg with rfl | hg
      · exact hf
      · exact hf.trans_over ((List.pairwise_cons.1 hnest).1 g hg).1
  case placed => exact hinv.placed
  case recorded => exact fun f hf => (hinv.recorded f hf).congr (hsame f hf)
  case nested => exact hinv.nested

theorem sysRtSigreturn_userMode {blocked : Sigset} (h : UserMode regs) :
    UserMode (sysRtSigreturn regs blocked mem).1 := by
  simp only [sysRtSigreturn]
  split
  · exact ⟨restoreSigcontext_cs, restoreSigcontext_ss⟩
  · exact h

theorem sysRtSigreturn_flags {blocked : Sigset} :
    (sysRtSigreturn regs blocked mem).1.flags &&& ~~~fixEflags = regs.flags &&& ~~~fixEflags := by
  simp only [sysRtSigreturn]
  split
  · exact restoreSigcontext_flags_other
  · rfl

theorem Inv.sysRtSigreturn_eq (hinv : Inv alt s) (hfs : s.frames = f :: fs)
    (hsp : s.regs.sp.toNat = f.addr + 8) :
    sysRtSigreturn s.regs s.blocked s.mem =
      (restoreSigcontext s.mem f.addr s.regs, setCurrentBlocked f.blocked) := by
  have hmem : f ∈ s.frames := hfs ▸ List.mem_cons_self
  have hlt := (hinv.placed f hmem).user
  rw [SigFrame.sysRtSigreturn_eq hsp (by rw [frameSize] at hlt; omega),
    (hinv.recorded f hmem).blocked]

def State.left (s : State) : State where
  regs := (sysRtSigreturn s.regs s.blocked s.mem).1
  blocked := (sysRtSigreturn s.regs s.blocked s.mem).2
  mem := s.mem
  frames := returned s.regs.sp.toNat s.frames

theorem Inv.left (hinv : Inv alt s) : Inv alt s.left := by
  have huser : UserMode s.left.regs := sysRtSigreturn_userMode hinv.user
  cases hfs : s.frames with
  | nil => exact inv_start ⟨huser, by rw [State.left, hfs, returned]⟩
  | cons f fs =>
    by_cases hsp : s.regs.sp.toNat = f.addr + 8
    · have hnest := hinv.nested
      rw [hfs, List.pairwise_cons] at hnest
      have hframes : s.left.frames = fs := by
        rw [State.left, hfs, returned, if_pos hsp]
      have hsub : ∀ g ∈ s.left.frames, g ∈ s.frames := by
        rw [hframes, hfs]
        exact fun g hg => List.mem_cons_of_mem _ hg
      have hregs : s.left.regs.sp = f.regs.sp := by
        rw [State.left, hinv.sysRtSigreturn_eq hfs hsp]
        exact congrArg Gprs.sp (hinv.recorded f (hfs ▸ List.mem_cons_self)).gprs
      refine ⟨huser, ?_, fun g hg => hinv.placed g (hsub g hg),
        fun g hg => hinv.recorded g (hsub g hg), by rw [hframes]; exact hnest.2⟩
      rw [hframes, hregs]
      exact fun g hg => (hnest.1 g hg).2
    · exact inv_start ⟨huser, by rw [State.left, hfs, returned, if_neg hsp]⟩

theorem Inv.right_left (hinv : Inv alt s) : Right s s.left .sigreturn := by
  refine ⟨sysRtSigreturn_userMode hinv.user, sysRtSigreturn_flags, fun f hf hsp => ?_⟩
  obtain ⟨fs, hfs⟩ := List.head?_eq_some_iff.1 hf
  have hrec := hinv.recorded f (hfs ▸ List.mem_cons_self)
  rw [State.left, hinv.sysRtSigreturn_eq hfs hsp]
  exact ⟨hrec.gprs, restoreSigcontext_flags_fix.trans (by rw [hrec.flags]), rfl⟩

theorem Inv.step (hinv : Inv alt s) (hok : Allowed alt s op) (hroom : HasRoom alt s op) :
    ∃ s', SigFrame.step alt s op = some ((), s') ∧ Inv alt s' ∧ Right s s' op := by
  cases op with
  | user regs blocked mem => exact ⟨_, rfl, hinv.user_step hok, trivial⟩
  | sigreturn => exact ⟨s.left, rfl, hinv.left, hinv.right_left⟩
  | deliver ksig ctx =>
    by_cases hka : ksig.ka.flags &&& saRestorer = 0
    · refine ⟨_, by rw [SigFrame.step, handleSignal_of_not_restorer hka]; rfl, ?_,
        fun h => absurd hka h⟩
      refine ⟨restartSyscall_userMode ksig.ka hinv.user, ?_, hinv.placed, hinv.recorded, hinv.nested⟩
      rw [restartSyscall_sp]
      exact hinv.inside
    · have hr := hroom hka
      obtain ⟨regs', fpstate, hstep, hsp, huser⟩ := hinv.step_deliver hka hr
      refine ⟨_, hstep, hinv.entered hr hsp huser (fun g hg => frameFields_within hg)
        recorded_putAll, fun _ => ?_⟩
      rw [show (s.entered regs' ksig.ka _).regs = regs' from rfl, hsp]
      exact ⟨frameBelow_mod hr.frameBelow_pos, hr.apart_redZone, fun f hf =>
        (hr.isOver (hinv.inside f hf)).apart hr.placed (hinv.placed f hf)⟩

/-! ## Runs -/

/-- In every run in which the deliveries find room, each step is right: frames are apart and
aligned, a return restores what its delivery saved, and none raises privilege. -/
theorem restored_of_room
    (hs : Reachable (step alt) (fun s op => Allowed alt s op ∧ HasRoom alt s op) Start s)
    (hok : Allowed alt s op) (hroom : HasRoom alt s op) :
    ∃ s', step alt s op = some ((), s') ∧ Right s s' op := by
  have hinv : Inv alt s := by
    refine hs.invariant_of_returns (fun s h => inv_start h) fun s op hinv hop => ?_
    obtain ⟨s', hstep, hinv', -⟩ := hinv.step hop.1 hop.2
    exact ⟨(), s', hstep, hinv'⟩
  obtain ⟨s', hstep, -, hright⟩ := hinv.step hok hroom
  exact ⟨s', hstep, hright⟩

/-- A register file with a stack pointer and nothing else. -/
def regsAt (sp : Word) : PtRegs where
  r8 := 0
  r9 := 0
  r10 := 0
  r11 := 0
  r12 := 0
  r13 := 0
  r14 := 0
  r15 := 0
  di := 0
  si := 0
  bp := 0
  bx := 0
  dx := 0
  ax := 0
  cx := 0
  sp := sp
  ip := 0x401000
  origAx := -1
  cs := userCs
  flags := 0x202
  ss := userDs

def stateAt (sp : Word) : State := ⟨regsAt sp, 0, fun _ => 0, []⟩

def signalWith (flags : Word) : Ksignal := ⟨⟨0x402000, saRestorer ||| flags, 0x403000⟩, 0, 10⟩

def noFault : Context := ⟨0, 0, 0, 0, fun _ => 0⟩

def altAt : AltStack := ⟨0x10000, 0x4000, 0⟩

/-- A signal is delivered on the alternate stack, and its handler returns. -/
theorem restored_of_room_altAt : ∃ s₁ s₂,
    step altAt (stateAt 0x7fff0000) (.deliver (signalWith saOnstack) noFault) = some ((), s₁) ∧
      step altAt s₁ .sigreturn = some ((), s₂) ∧ Right s₁ s₂ .sigreturn := by
  have hstart : Reachable (step altAt) (fun s op => Allowed altAt s op ∧ HasRoom altAt s op) Start
      (stateAt 0x7fff0000) := .start ⟨by decide, rfl⟩
  have hdel : Allowed altAt (stateAt 0x7fff0000) (.deliver (signalWith saOnstack) noFault) := trivial
  have hroom : HasRoom altAt (stateAt 0x7fff0000) (.deliver (signalWith saOnstack) noFault) :=
    fun _ => ⟨by decide, by decide, by decide, by decide, by decide⟩
  obtain ⟨s₁, hdeliver, -⟩ := restored_of_room hstart hdel hroom
  obtain ⟨s₂, hreturn, hright⟩ := restored_of_room (hstart.call ⟨hdel, hroom⟩ hdeliver)
    (show Allowed altAt s₁ .sigreturn from trivial) trivial
  exact ⟨s₁, s₂, hdeliver, hreturn, hright⟩

/-- With the stack pointer at 64 the frame wraps around to the kernel's half of the address space,
and the kernel stores there. -/
theorem low_stack_not_restored :
    ¬ ∀ (alt : AltStack) (s : State) (op : Op), Reachable (step alt) (Allowed alt) Start s →
      Allowed alt s op → ∃ s', step alt s op = some ((), s') ∧ Right s s' op := by
  intro h
  obtain ⟨s', hstep, -⟩ := h altAt (stateAt 64) (.deliver (signalWith 0) noFault)
    (.start ⟨by decide, rfl⟩) trivial
  contradiction

end MyOS2.SigFrame
