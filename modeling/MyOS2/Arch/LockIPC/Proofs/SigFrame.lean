import MyOS2.Arch.LockIPC.SigFrame

/-!
# Where a signal frame lies and what is read back from it

`getSigframe_toNat` gives the place of a frame as a number, for a stack pointer with room
below it (`Room`). `recorded_putAll` says that the frame then holds the registers and the
mask it was made from, and `sysRtSigreturn_of_recorded` that the return from it restores them.
-/

namespace MyOS2.SigFrame

open BitVec

open MyOS2.Signal (Sigset)

variable {alt : AltStack} {ka : Sigaction} {ksig : Ksignal} {ctx : Context} {regs : PtRegs}
  {mask blocked : Sigset} {mem mem' : Nat → UInt8} {a top : Nat} {sp fpstate : Word}

/-! ## Numbers for addresses -/

/-- The highest place below `top` for a frame, eight bytes off a multiple of 16. -/
def frameBelow (top : Nat) : Nat := (top - frameSize) / 16 * 16 - 8

theorem frameBelow_mod (h : 0 < frameBelow top) : frameBelow top % 16 = 8 := by
  simp only [frameBelow, frameSize] at h ⊢
  omega

theorem frameBelow_add_le (h : 0 < frameBelow top) : frameBelow top + frameSize ≤ top - 8 := by
  simp only [frameBelow, frameSize] at h ⊢
  omega

theorem getElem_fifteen {i : Nat} (hi : i < 64) : (15#64)[i] = decide (i < 4) := by
  revert i
  decide

theorem toNat_and_not_fifteen (x : Word) : (x &&& ~~~15#64).toNat = x.toNat / 16 * 16 := by
  have hshift : x &&& ~~~15#64 = (x >>> 4) <<< 4 := by
    ext i hi
    rw [getElem_and, getElem_not, getElem_fifteen, getElem_shiftLeft]
    by_cases h : i < 4
    · simp [h]
    · simp only [h, decide_false, Bool.not_false, Bool.and_true, Bool.true_and,
        getElem_ushiftRight]
      rw [Nat.add_sub_cancel' (Nat.le_of_not_lt h), getLsbD_eq_getElem hi]
  rw [hshift]
  simp only [toNat_shiftLeft, toNat_ushiftRight, Nat.shiftLeft_eq, Nat.shiftRight_eq_div_pow]
  omega

theorem toNat_frameBelow (x : Word) (h : 0 < frameBelow x.toNat) :
    (((x - BitVec.ofNat 64 frameSize) &&& ~~~15#64) - 8).toNat = frameBelow x.toNat := by
  simp only [frameBelow, frameSize] at h ⊢
  have hsub : (x - BitVec.ofNat 64 440).toNat = x.toNat - 440 := by
    rw [BitVec.toNat_sub_of_le (by rw [BitVec.le_def, BitVec.toNat_ofNat]; omega)]
    rfl
  rw [BitVec.toNat_sub_of_le (by rw [BitVec.le_def, toNat_and_not_fifteen, hsub]; change 8 ≤ _; omega),
    toNat_and_not_fifteen, hsub]
  rfl

/-! ## The alternate stack -/

namespace AltStack

/-- The ends of the alternate stack. -/
def lo (alt : AltStack) : Nat := alt.sp.toNat

@[inherit_doc lo]
def hi (alt : AltStack) : Nat := alt.sp.toNat + alt.size.toNat

def Spans (alt : AltStack) (a : Nat) : Prop := alt.lo < a ∧ a ≤ alt.hi

instance (alt : AltStack) (a : Nat) : Decidable (alt.Spans a) := inferInstanceAs (Decidable (_ ∧ _))

theorem covers_iff : alt.covers sp = true ↔ alt.Spans sp.toNat := by
  simp only [covers, Spans, lo, hi, Bool.and_eq_true, decide_eq_true_eq, lt_def]
  refine and_congr_right fun hlt => ?_
  rw [le_def, toNat_sub_of_le (by rw [le_def]; omega)]
  omega

theorem spans_of_onSigStack (h : alt.onSigStack sp = true) : alt.Spans sp.toNat := by
  rw [onSigStack] at h
  split at h
  · contradiction
  · exact covers_iff.1 h

end AltStack

/-- The delivery leaves the stack it finds for the alternate one. -/
def Switches (alt : AltStack) (ka : Sigaction) (sp : Word) : Prop :=
  ka.flags &&& saOnstack ≠ 0 ∧ alt.sasSsFlags (sp - 128) = 0

instance : Decidable (Switches alt ka sp) := inferInstanceAs (Decidable (_ ∧ _))

/-- Where the frame begins to be cut off: the end of the alternate stack, or the end of the red
zone. -/
def frameTop (alt : AltStack) (ka : Sigaction) (sp : Word) : Nat :=
  if Switches alt ka sp then alt.hi else sp.toNat - 128

/-- There is room for a frame in user memory. A delivery that switches comes from off the alternate
stack, red zone included; one on it leaves it neither at its end nor for its beginning; any other
stays clear of it. -/
structure Room (alt : AltStack) (ka : Sigaction) (sp : Word) : Prop where
  redZone : 128 ≤ sp.toNat
  user : sp.toNat ≤ 2 ^ 63
  switch : Switches alt ka sp →
    (sp.toNat ≤ alt.lo ∨ alt.hi ≤ sp.toNat - 128) ∧ alt.hi ≤ 2 ^ 63 ∧ alt.lo < frameBelow alt.hi
  nested : ¬ Switches alt ka sp → alt.Spans sp.toNat → alt.lo < frameBelow (sp.toNat - 128)
  normal : ¬ Switches alt ka sp → ¬ alt.Spans sp.toNat →
    0 < frameBelow (sp.toNat - 128) ∧
      (alt.size = 0 ∨ sp.toNat ≤ alt.lo ∨ alt.hi < frameBelow (sp.toNat - 128))

namespace Room

variable (h : Room alt ka sp)

include h

theorem frameBelow_pos : 0 < frameBelow (frameTop alt ka sp) := by
  rw [frameTop]
  split
  · next hsw => exact Nat.zero_lt_of_lt (h.switch hsw).2.2
  · next hsw =>
      by_cases hon : alt.Spans sp.toNat
      · exact Nat.zero_lt_of_lt (h.nested hsw hon)
      · exact (h.normal hsw hon).1

theorem frameTop_le : frameTop alt ka sp ≤ 2 ^ 63 := by
  rw [frameTop]
  split
  · next hsw => exact (h.switch hsw).2.1
  · exact Nat.le_trans (Nat.sub_le ..) h.user

theorem frame_le : frameBelow (frameTop alt ka sp) + frameSize ≤ 2 ^ 63 :=
  Nat.le_trans (frameBelow_add_le h.frameBelow_pos) (Nat.le_trans (Nat.sub_le ..) h.frameTop_le)

theorem not_spans_of_switches (hsw : Switches alt ka sp) : ¬ alt.Spans sp.toNat := by
  rintro ⟨hlo, hhi⟩
  rcases (h.switch hsw).1 with hle | hle <;> omega

end Room

theorem Room.spans_frame (h : Room alt ka sp) (hon : Switches alt ka sp ∨ alt.Spans sp.toNat) :
    alt.Spans (frameBelow (frameTop alt ka sp)) := by
  have hle := frameBelow_add_le h.frameBelow_pos
  by_cases hsw : Switches alt ka sp
  · rw [frameTop, if_pos hsw] at hle ⊢
    exact ⟨(h.switch hsw).2.2, by omega⟩
  · have hsp := hon.resolve_left hsw
    rw [frameTop, if_neg hsw] at hle ⊢
    exact ⟨h.nested hsw hsp, by have := hsp.2; omega⟩

theorem getSigframe_toNat (regs : PtRegs) (hka : ka.flags &&& saRestorer ≠ 0) (h : Room alt ka regs.sp) :
    (getSigframe alt ka regs frameSize).1.toNat = frameBelow (frameTop alt ka regs.sp) := by
  have hpos := h.frameBelow_pos
  have hsub : (regs.sp - 128).toNat = regs.sp.toNat - 128 := by
    rw [toNat_sub_of_le (by rw [le_def]; exact h.redZone)]
    rfl
  by_cases hsw : Switches alt ka regs.sp
  · have hspans := h.spans_frame (.inl hsw)
    have htop : (alt.sp + alt.size).toNat = alt.hi := by
      have := (h.switch hsw).2.1
      rw [toNat_add, AltStack.hi] at *
      exact Nat.mod_eq_of_lt (by omega)
    rw [frameTop, if_pos hsw, ← htop] at hpos hspans ⊢
    have hframe := toNat_frameBelow _ hpos
    rw [← hframe] at hspans
    simp only [getSigframe, hsw.1, hsw.2, if_pos, ne_eq, not_false_eq_true]
    rw [AltStack.covers_iff.2 hspans]
    simpa using hframe
  · rw [frameTop, if_neg hsw, ← hsub] at hpos ⊢
    have hframe := toNat_frameBelow _ hpos
    -- without a switch the check of the alternate stack is made only where the user is on it
    have hcheck : alt.onSigStack regs.sp = true →
        alt.covers (((regs.sp - 128 - BitVec.ofNat 64 frameSize) &&& ~~~15#64) - 8) = true := by
      intro hon
      have hspans := h.spans_frame (.inr (AltStack.spans_of_onSigStack hon))
      rw [frameTop, if_neg hsw, ← hsub, ← hframe] at hspans
      exact AltStack.covers_iff.2 hspans
    have hpair : (if ka.flags &&& saOnstack ≠ 0 then
          if alt.sasSsFlags (regs.sp - 128) = 0 then (alt.sp + alt.size, true)
          else (regs.sp - 128, false)
        else if !alt.onSigStack regs.sp && regs.ss != userDs && ka.flags &&& saRestorer == 0 &&
            ka.restorer != 0 then (ka.restorer, true)
        else (regs.sp - 128, false)) = (regs.sp - 128, false) := by
      by_cases hon : ka.flags &&& saOnstack ≠ 0
      · rw [if_pos hon, if_neg fun hz => hsw ⟨hon, hz⟩]
      · rw [if_neg hon, beq_eq_false_iff_ne.2 hka, Bool.and_false, Bool.false_and, if_neg nofun]
    simp only [getSigframe, hpair, Bool.or_false]
    rw [if_neg]
    · exact hframe
    · rw [Bool.and_eq_true, Bool.not_eq_true']
      rintro ⟨hon, hno⟩
      rw [hcheck hon] at hno
      contradiction

/-! ## The contents of a frame -/

def framePlaces : List (Nat × Nat) :=
  [(8, 8), (16, 8), (24, 8), (32, 4), (40, 8), (0, 8), (112, 8), (120, 8), (128, 8), (168, 8),
    (136, 8), (144, 8), (160, 8), (152, 8), (48, 8), (56, 8), (64, 8), (72, 8), (80, 8), (88, 8),
    (96, 8), (104, 8), (208, 8), (200, 8), (176, 8), (184, 8), (192, 2), (194, 2), (196, 2),
    (198, 2), (232, 8), (216, 8), (224, 8), (304, 8), (312, 48), (360, 80)]

theorem map_place_frameFields :
    ((frameFields alt ksig ctx fpstate regs mask).map Field.place).Sublist framePlaces := by
  simp only [frameFields, setupSigcontext, word, List.map_cons, Field.place, List.cons_append,
    List.nil_append]
  split
  · exact .refl framePlaces
  · exact List.take_sublist 34 framePlaces

theorem frameFields_apart :
    ((frameFields alt ksig ctx fpstate regs mask).map Field.place).Pairwise Field.Apart :=
  List.Pairwise.sublist map_place_frameFields (by decide)

theorem frameFields_within {f : Field} (hf : f ∈ frameFields alt ksig ctx fpstate regs mask) :
    f.offset + f.width ≤ frameSize := by
  have hall : ∀ p ∈ framePlaces, p.1 + p.2 ≤ frameSize := by decide
  exact hall f.place (map_place_frameFields.subset (List.mem_map_of_mem hf))

theorem loadWord_putAll {o : Nat} {v : Word} {fs : List Field}
    (hapart : (fs.map Field.place).Pairwise Field.Apart) (hf : word o v ∈ fs) :
    loadWord (Field.putAll mem a fs) (a + o) = v := by
  have h : readLe (Field.putAll mem a fs) (a + (word o v).offset) (word o v).width = _ :=
    Field.readLe_putAll hapart hf
  simp only [word] at h
  rw [loadWord]
  apply eq_of_toNat_eq
  rw [h, toNat_ofNat]
  omega

/-- The frame at `a` holds the registers and the mask. -/
structure Recorded (mem : Nat → UInt8) (a : Nat) (regs : PtRegs) (blocked : Sigset) : Prop where
  gprs : loadGprs mem a = regs.toGprs
  flags : loadWord mem (a + 184) = regs.flags
  blocked : loadWord mem (a + 304) = blocked

theorem recorded_putAll :
    Recorded (Field.putAll mem a (frameFields alt ksig ctx fpstate regs mask)) a regs mask := by
  have hload : ∀ o v, word o v ∈ frameFields alt ksig ctx fpstate regs mask →
      loadWord (Field.putAll mem a (frameFields alt ksig ctx fpstate regs mask)) (a + o) = v :=
    fun o v hf => loadWord_putAll frameFields_apart hf
  have hmem : ∀ f ∈ setupSigcontext ctx fpstate regs mask,
      f ∈ frameFields alt ksig ctx fpstate regs mask := by
    intro f hf
    simp [frameFields, hf]
  refine ⟨?_, hload 184 regs.flags (hmem _ (by simp [setupSigcontext])),
    hload 304 mask (by simp [frameFields])⟩
  have hgpr : ∀ o v, word o v ∈ setupSigcontext ctx fpstate regs mask →
      loadWord (Field.putAll mem a (frameFields alt ksig ctx fpstate regs mask)) (a + o) = v :=
    fun o v hf => hload o v (hmem _ hf)
  -- every register is read from where it was stored
  apply Gprs.ext <;> exact hgpr _ _ (by simp [setupSigcontext])

theorem loadWord_congr {o : Nat} (ho : o + 8 ≤ frameSize)
    (h : ∀ x, a ≤ x → x < a + frameSize → mem' x = mem x) :
    loadWord mem' (a + o) = loadWord mem (a + o) := by
  rw [loadWord, loadWord, readLe_congr fun i hi => h (a + o + i) (by omega) (by omega)]

theorem Recorded.congr (hr : Recorded mem a regs blocked)
    (h : ∀ x, a ≤ x → x < a + frameSize → mem' x = mem x) : Recorded mem' a regs blocked := by
  have hload : ∀ o, o + 8 ≤ frameSize → loadWord mem' (a + o) = loadWord mem (a + o) :=
    fun o ho => loadWord_congr ho h
  refine ⟨?_, (hload 184 (by decide)).trans hr.flags, (hload 304 (by decide)).trans hr.blocked⟩
  refine Eq.trans ?_ hr.gprs
  simp only [loadGprs]
  simp (disch := decide) only [hload]

/-! ## The return -/

theorem or_and_self (x y : Word) : (x ||| y) &&& y = y := by
  ext i hi
  simp [Bool.and_or_distrib_right]

theorem restoreSigcontext_cs : (restoreSigcontext mem a regs).cs &&& 3 = 3 := or_and_self ..

theorem restoreSigcontext_ss : (restoreSigcontext mem a regs).ss &&& 3 = 3 := or_and_self ..

theorem restoreSigcontext_flags_fix :
    (restoreSigcontext mem a regs).flags &&& fixEflags = loadWord mem (a + 184) &&& fixEflags := by
  rw [restoreSigcontext]
  ext i hi
  cases h : fixEflags[i] <;> simp [h]

theorem restoreSigcontext_flags_other :
    (restoreSigcontext mem a regs).flags &&& ~~~fixEflags = regs.flags &&& ~~~fixEflags := by
  rw [restoreSigcontext]
  ext i hi
  cases h : fixEflags[i] <;> simp [h]

theorem sysRtSigreturn_eq (hsp : regs.sp.toNat = a + 8) (ha : a < 2 ^ 63) :
    sysRtSigreturn regs blocked mem =
      (restoreSigcontext mem a regs, setCurrentBlocked (loadWord mem (a + 304))) := by
  have hframe : (regs.sp - 8).toNat = a := by
    rw [toNat_sub_of_le (by rw [le_def, hsp]; exact Nat.le_add_left ..), hsp]
    rfl
  rw [sysRtSigreturn]
  simp only [hframe, ha, if_true]

end MyOS2.SigFrame
