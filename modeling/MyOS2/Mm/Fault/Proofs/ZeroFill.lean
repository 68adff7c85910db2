import MyOS2.Misc.Runs
import MyOS2.Mm.Fault.Proofs.Content

/-!
# Fresh anonymous memory

A process finds zero at every byte of its anonymous memory that it has not
written. The read path maps the zero page; the write path takes a frame from the
page allocator that nobody clears, so that the process finds what the frame held
before.
-/

namespace MyOS2.Fault

open Option

open Filemap (Byte pageSize)

abbrev Written := MmId → Vpn → Offset → Bool

def Written.note (w : Written) : Op → Result → Written
  | .access mm vpn off (.store _) _, .stored => fun mm' vpn' off' =>
    (decide (mm' = mm ∧ vpn' = vpn ∧ off' = off)) || w mm' vpn' off'
  | _, _ => w

variable {mm : MmId} {vpn : Vpn}

namespace Machine
variable (c : Config)

def stepWritten (x : Machine × Written) (op : Op) : Option (Result × (Machine × Written)) :=
  (x.1.step c op).map fun r => (r.1, (r.2, x.2.note op r.1))

/-- A mapping of anonymous memory that is not shared. -/
def AnonymousAt (s : Machine) (mm : MmId) (vpn : Vpn) (v : Vma) : Prop :=
  s.vmaAt mm vpn = some v ∧ v.shared = false ∧ v.backing = .anonymous

/-- Processes use anonymous memory, and free frames are used elsewhere. -/
def AnonymousOk (s : Machine) (op : Op) : Prop :=
  s.Ok c op ∧
  match op with
  | .access mm vpn _ _ _ => ∃ v, s.AnonymousAt mm vpn v
  | .fork .. => False
  | .reuse .. => True

/-- Every byte of anonymous memory that was not written is zero. -/
def ReadsZero (s : Machine) (w : Written) : Prop :=
  ∀ mm vpn v off, s.live mm = true → s.AnonymousAt mm vpn v → w mm vpn off = false →
    s.content c mm v vpn off = 0

def LoadsZero (w : Written) : Op → Result → Prop
  | .access mm vpn off .load _, .loaded b => w mm vpn off = false → b = 0
  | _, _ => True

/-- No anonymous memory was touched yet. The frames may hold anything. -/
structure UntouchedStart (x : Machine × Written) : Prop where
  wellFormed : x.1.WellFormed c
  isSealed : x.1.Sealed c
  untouched : ∀ mm vpn v, x.1.AnonymousAt mm vpn v → x.1.pte mm vpn = none
  unwritten : ∀ mm vpn off, x.2 mm vpn off = false

def OwnsWritten (s : Machine) (w : Written) : Prop :=
  ∀ mm vpn off, w mm vpn off = true → ∃ e, s.pte mm vpn = some e ∧ e.pfn ≠ c.zeroPfn

/-- Bytes that nobody has written are zero. -/
structure ZeroInv (x : Machine × Written) : Prop where
  wellFormed : x.1.WellFormed c
  isSealed : x.1.Sealed c
  reads : ReadsZero c x.1 x.2
  owns : OwnsWritten c x.1 x.2

section Fault
variable {c} {s s' : Machine} {w : Written} {vmf : Vmf}

theorem AnonymousAt.congr {v : Vma} (hvmas : s'.vmas = s.vmas)
    (h : s'.AnonymousAt mm vpn v) : s.AnonymousAt mm vpn v := by
  simpa only [AnonymousAt, vmaAt, hvmas] using h

theorem OwnsWritten.fault (h : OwnsWritten c s w) (hwf : s.WellFormed c)
    (ha : s.AnswersOk c vmf.answers) (hcase : FaultCase c s vmf s') : OwnsWritten c s' w := by
  intro mm vpn off hw
  obtain ⟨e, he, hne⟩ := h mm vpn off hw
  -- the page of the fault has an entry, so it is unchanged or copied
  have hset : ∀ (t : Machine) (e' : Pte), t.pte = s.pte →
      (mm = vmf.mm → vpn = vmf.vpn → e'.pfn ≠ c.zeroPfn) →
      ∃ e₂, (t.setPte vmf.mm vmf.vpn e').pte mm vpn = some e₂ ∧ e₂.pfn ≠ c.zeroPfn := by
    intro t e' ht hpfn
    rw [setPte_pte]
    split
    · rename_i hsame
      exact ⟨e', rfl, hpfn hsame.1 hsame.2⟩
    · exact ⟨e, by rw [ht]; exact he, hne⟩
  have hpresent : s.pte vmf.mm vmf.vpn = none → mm = vmf.mm → vpn = vmf.vpn → False := by
    rintro hnone rfl rfl
    exact absurd (hnone.symm.trans he) nofun
  cases hcase with
  | unchanged => exact ⟨e, he, hne⟩
  | zeroPage hnone => exact hset s _ rfl fun h₁ h₂ => (hpresent hnone h₁ h₂).elim
  | newPage f hnone => exact hset (s.allocPage f) _ rfl fun h₁ h₂ => (hpresent hnone h₁ h₂).elim
  | cached id p hnone => exact hset s _ rfl fun h₁ h₂ => (hpresent hnone h₁ h₂).elim
  | readIn id p hnone =>
    exact hset (s.fillCache c _ _ p) _ (fillCache_pte ..) fun h₁ h₂ => (hpresent hnone h₁ h₂).elim
  | cow id f p hnone =>
    exact hset _ _ (by simp) fun h₁ h₂ => (hpresent hnone h₁ h₂).elim
  | copy e' f he' _ _ _ hf =>
    refine hset _ _ ?_ fun _ _ => ?_
    · split <;> rfl
    · simpa using (ha.folio f hf).notZero
  | copyUnknown e' f he' hgt => exact absurd (hwf.pte _ _ e' he') (Nat.not_le_of_lt hgt)

theorem ZeroInv.readsZero_fault_iff (h : ZeroInv c (s, w))
    (ha : s.AnswersOk c vmf.answers) (hlive : s.live vmf.mm = true)
    (hanon : s.AnonymousAt vmf.mm vmf.vpn vmf.vma) (hcase : FaultCase c s vmf s') :
    ReadsZero c s' w ↔ s.FaultClean c vmf := by
  obtain ⟨hvmas, hlive'⟩ := hcase.fixed
  constructor
  · intro hreads
    by_cases howned : ∃ e, s.pte vmf.mm vmf.vpn = some e ∧ e.pfn ≠ c.zeroPfn
    · obtain ⟨e, he, hne⟩ := howned
      intro _ _
      simp only [he]
      intro _ hz
      exact absurd hz hne
    · -- nothing of the page was written, so all of it reads zero before and after
      have hunwritten : ∀ off, w vmf.mm vmf.vpn off = false := by
        intro off
        cases hw : w vmf.mm vmf.vpn off with
        | false => rfl
        | true => exact absurd (h.owns _ _ off hw) howned
      refine faultClean_of_content h.isSealed.zero h.wellFormed hanon.2.1 hcase ?_
      intro off
      rw [h.reads _ _ _ off hlive hanon (hunwritten off)]
      refine hreads _ _ _ off (hlive' ▸ hlive) ?_ (hunwritten off)
      simpa only [AnonymousAt, vmaAt, hvmas] using hanon
  · intro hclean mm vpn v off hl hv hw
    have hv' := hv.congr hvmas
    rw [content_fault h.isSealed.zero h.wellFormed ha hcase hclean off]
    · exact h.reads mm vpn v off (hlive' ▸ hl) hv' hw
    · rintro rfl rfl
      exact some.inj (hv'.1.symm.trans hanon.1)

end Fault

section Step
variable {c} {s s' : Machine} {w w' : Written} {op : Op} {r : Result}

theorem stepWritten_eq_some (h : stepWritten c (s, w) op = some (r, (s', w'))) :
    s.step c op = some (r, s') ∧ w' = w.note op r := by
  obtain ⟨⟨r₁, s₁⟩, hstep, heq⟩ := map_eq_some_iff.mp h
  obtain ⟨rfl, rfl, rfl⟩ : r₁ = r ∧ s₁ = s' ∧ _ = w' := by simpa using heq
  exact ⟨hstep, rfl⟩

theorem ZeroInv.readsZero_store (h : ZeroInv c (s, w)) {off : Offset}
    {b : Byte} {a : Answers} {v : Vma} {f : Frame} (hv : s.AnonymousAt mm vpn v)
    (hp : s.permits mm vpn (.store b) = some f) :
    ReadsZero c (s.storeByte f off b) (w.note (.access mm vpn off (.store b) a) .stored) := by
  obtain ⟨e, he, rfl, hew⟩ := permits_eq_some hp
  intro mm' vpn' v' off' hl hv' hw
  obtain ⟨hne, hw⟩ : ¬ (mm' = mm ∧ vpn' = vpn ∧ off' = off) ∧ w mm' vpn' off' = false := by
    simpa [Written.note] using hw
  have hzero := h.reads mm' vpn' v' off' hl hv' hw
  by_cases hpage : mm' = mm ∧ vpn' = vpn
  · obtain ⟨rfl, rfl⟩ := hpage
    have hoff : off' ≠ off := fun heq => hne ⟨rfl, rfl, heq⟩
    rw [content_store_self he, if_neg hoff]
    exact hzero
  · rw [content_store_other h.isSealed hv.1 hv.2.1 he (hew rfl) hpage]
    exact hzero

theorem ZeroInv.right_iff (h : ZeroInv c (s, w)) (hok : s.AnonymousOk c op)
    (hstep : stepWritten c (s, w) op = some (r, (s', w'))) :
    (ReadsZero c s' w' ∧ LoadsZero w op r) ↔ s.FaultsClean c op := by
  obtain ⟨hmachine, rfl⟩ := stepWritten_eq_some hstep
  cases op with
  | fork src dst a => exact hok.2.elim
  | reuse f bytes =>
    obtain ⟨rfl, rfl⟩ : _ = r ∧ _ = s' := by simpa [Machine.step] using hmachine
    refine iff_of_true ⟨?_, trivial⟩ trivial
    intro mm vpn v off hl hv hw
    rw [content_setFrame hok.1]
    exact h.reads mm vpn v off hl hv hw
  | access mm vpn off acc a =>
    obtain ⟨⟨hlive, -, ha⟩, v, hv⟩ := hok
    cases accessCase_step hmachine with
    | load f hp =>
      refine iff_of_true ⟨h.reads, ?_⟩ fun hno => absurd (hp.symm.trans hno) (some_ne_none _)
      intro hw
      obtain ⟨e, he, rfl, -⟩ := permits_eq_some hp
      rw [← h.reads mm vpn v off hlive hv hw, content_of_some he]
    | store f b hp =>
      exact iff_of_true ⟨h.readsZero_store hv hp, trivial⟩
        fun hno => absurd (hp.symm.trans hno) (some_ne_none _)
    | badArea acc _ hno => exact absurd (hv.1.symm.trans hno) (some_ne_none _)
    | fault acc v' ret s' hp hv' hcase =>
      obtain rfl : v = v' := some.inj (hv.1.symm.trans hv')
      have hiff := h.readsZero_fault_iff ha hlive hv hcase
      constructor
      · rintro ⟨hreads, -⟩ _ v' hv'
        obtain rfl : v = v' := some.inj (hv.1.symm.trans hv')
        refine hiff.mp ?_
        cases acc <;> exact hreads
      · intro hclean
        refine ⟨?_, by cases acc <;> trivial⟩
        have := hiff.mpr (hclean hp v hv.1)
        cases acc <;> exact this

theorem OwnsWritten.store (h : OwnsWritten c s w) (hs : s.Sealed c)
    {off : Offset} {b : Byte} {a : Answers} {v : Vma} {f : Frame} (hv : s.vmaAt mm vpn = some v)
    (hshared : v.shared = false) (hp : s.permits mm vpn (.store b) = some f) :
    OwnsWritten c (s.storeByte f off b) (w.note (.access mm vpn off (.store b) a) .stored) := by
  obtain ⟨e, he, rfl, hew⟩ := permits_eq_some hp
  intro mm' vpn' off' hw
  have hw : (mm' = mm ∧ vpn' = vpn ∧ off' = off) ∨ w mm' vpn' off' = true := by
    simpa [Written.note] using hw
  cases hw with
  | inl hsame =>
    obtain ⟨rfl, rfl, -⟩ := hsame
    exact ⟨e, he, hs.notZero mm' vpn' v e hv hshared he (hew rfl)⟩
  | inr hw => exact h mm' vpn' off' hw

theorem ZeroInv.step (h : ZeroInv c (s, w)) (hok : s.AnonymousOk c op)
    (hzeros : s.FaultsClean c op) (hstep : stepWritten c (s, w) op = some (r, (s', w'))) :
    ZeroInv c (s', w') := by
  have hreads := ((h.right_iff hok hstep).mpr hzeros).1
  obtain ⟨hmachine, rfl⟩ := stepWritten_eq_some hstep
  have hwf := h.wellFormed.step hok.1 hmachine
  cases op with
  | fork src dst a => exact hok.2.elim
  | reuse f bytes =>
    obtain ⟨rfl, rfl⟩ : _ = r ∧ _ = s' := by simpa [Machine.step] using hmachine
    exact ⟨hwf, h.isSealed.setFrame hok.1 bytes, hreads, h.owns⟩
  | access mm vpn off acc a =>
    obtain ⟨⟨hlive, -, ha⟩, v, hv⟩ := hok
    have hcase := accessCase_step hmachine
    refine ⟨hwf, h.isSealed.access h.wellFormed ha hv.1 hv.2.1 hcase, hreads, ?_⟩
    cases hcase with
    | load => exact h.owns
    | badArea => cases acc <;> exact h.owns
    | store f b hp => exact h.owns.store h.isSealed (a := a) hv.1 hv.2.1 hp
    | fault acc v' ret s' _ _ hcase =>
      have howns := h.owns.fault h.wellFormed ha hcase
      cases acc <;> exact howns

end Step

section Run
variable {c} {x : Machine × Written}

/-- As long as memory that is to be zero gets frames that hold zeros, what was not written reads as
zero; and the next call keeps it so if and only if it takes such a frame. -/
theorem readsZero_iff_faultsClean
    (h : Reachable (stepWritten c)
      (fun x op => x.1.AnonymousOk c op ∧ x.1.FaultsClean c op) (UntouchedStart c) x) :
    ReadsZero c x.1 x.2 ∧
    ∀ op r x', x.1.AnonymousOk c op → stepWritten c x op = some (r, x') →
      ((ReadsZero c x'.1 x'.2 ∧ LoadsZero x.2 op r) ↔ x.1.FaultsClean c op) := by
  have hinv : ZeroInv c x := by
    refine h.invariant ?_ ?_
    · intro x hx
      refine ⟨hx.wellFormed, hx.isSealed, ?_, ?_⟩
      · intro mm vpn v off _ hv _
        rw [content_of_none (hx.untouched mm vpn v hv), freshByte_anonymous hv.2.2]
      · intro mm vpn off hw
        exact absurd ((hx.unwritten mm vpn off).symm.trans hw) nofun
    · intro x op r x' hx hop hstep
      exact hx.step hop.1 hop.2 hstep
  exact ⟨hinv.reads, fun op r x' hok hstep => hinv.right_iff hok hstep⟩

end Run

theorem untouchedStart_fresh (fill : Byte) :
    UntouchedStart smallConfig (fresh fill, fun _ _ _ => false) :=
  ⟨wellFormed_fresh fill, sealed_fresh fill, fun _ _ _ _ => rfl, fun _ _ _ => rfl⟩

theorem anonymousOk_firstStore (fill : Byte) : (fresh fill).AnonymousOk smallConfig firstStore :=
  ⟨ok_firstStore fill, onePage, rfl, rfl, rfl⟩

/-- With frames that hold zeros the fault of the first store leaves the page zero. -/
theorem readsZero_iff_faultsClean_fresh : ReadsZero smallConfig (mapped 0) fun _ _ _ => false := by
  have hrun := readsZero_iff_faultsClean (.start (untouchedStart_fresh 0))
  refine ((hrun.2 firstStore _ (mapped 0, _) (anonymousOk_firstStore 0) rfl).mpr ?_).1
  intro _ v hv
  obtain rfl : onePage = v := some.inj hv
  intro _ _ f hf off
  obtain rfl : 5 = f := some.inj hf
  rfl

/-- What frame 5 held before is found at a byte that was never written. -/
theorem first_store_shows_old_bytes :
    ∃ r₁ x₁ r₂ x₂, UntouchedStart smallConfig (fresh 9, fun _ _ _ => false) ∧
      (fresh 9).AnonymousOk smallConfig firstStore ∧
      stepWritten smallConfig (fresh 9, fun _ _ _ => false) firstStore = some (r₁, x₁) ∧
      x₁.1.AnonymousOk smallConfig (.access 0 0 ⟨1, by decide⟩ .load ⟨true, none, none⟩) ∧
      stepWritten smallConfig x₁ (.access 0 0 ⟨1, by decide⟩ .load ⟨true, none, none⟩) =
        some (r₂, x₂) ∧
      x₁.2 0 0 ⟨1, by decide⟩ = false ∧ r₂ = .loaded 9 := by
  refine ⟨.faulted .ok, (mapped 9, fun _ _ _ => false), .loaded 9, (mapped 9, fun _ _ _ => false),
    untouchedStart_fresh 9, anonymousOk_firstStore 9, rfl, ?_, rfl, rfl, rfl⟩
  exact ⟨⟨rfl, ⟨onePage, rfl, rfl⟩, nofun, nofun, nofun⟩, onePage, rfl, rfl, rfl⟩

end Machine

end MyOS2.Fault
