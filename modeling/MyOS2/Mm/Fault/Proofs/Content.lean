import MyOS2.Mm.Fault.Proofs.FaultCases

/-!
# What a process finds at an address

The byte at an address is the one in the frame its entry names; where there is
no entry it is the one that the first fault would bring: zero, or the byte of the
file. A fault should not change it. A new frame for anonymous memory is not
cleared, so that it does when the frame holds something else.
-/

namespace MyOS2.Fault

open Function Option
open Filemap (Byte pageSize)

namespace Machine

/-! ## Bytes -/

/-- The byte of a page that was not touched yet. -/
def freshByte (c : Config) (s : Machine) (v : Vma) (vpn : Vpn) (off : Offset) : Byte :=
  match v.backing with
  | .anonymous => 0
  | .file id =>
    match s.pageArray id (v.pageIndex vpn) with
    | some f => s.mem f off
    | none => filePage c id (v.pageIndex vpn) off

def content (c : Config) (s : Machine) (mm : MmId) (v : Vma) (vpn : Vpn) (off : Offset) : Byte :=
  match s.pte mm vpn with
  | some e => s.mem e.pfn off
  | none => s.freshByte c v vpn off

/-- The zero page holds zeros, and a page of a private mapping that may be written has a frame that
nothing else uses. -/
structure Sealed (c : Config) (s : Machine) : Prop where
  zero : ∀ off, s.mem c.zeroPfn off = 0
  writable : ∀ mm vpn v e, s.vmaAt mm vpn = some v → v.shared = false →
    s.pte mm vpn = some e → e.write = true → v.write = true
  notZero : ∀ mm vpn v e, s.vmaAt mm vpn = some v → v.shared = false →
    s.pte mm vpn = some e → e.write = true → e.pfn ≠ c.zeroPfn
  notCached : ∀ mm vpn v e, s.vmaAt mm vpn = some v → v.shared = false →
    s.pte mm vpn = some e → e.write = true → ∀ id i, s.pageArray id i ≠ some e.pfn
  alone : ∀ mm vpn v e, s.vmaAt mm vpn = some v → v.shared = false →
    s.pte mm vpn = some e → e.write = true →
    ∀ mm' vpn' e', s.pte mm' vpn' = some e' → e'.pfn = e.pfn → mm' = mm ∧ vpn' = vpn

/-- The fault leaves the byte at every address: a new frame for anonymous memory holds zeros, and a
page of a file read in again has not changed in the page cache. -/
def FaultClean (c : Config) (s : Machine) (vmf : Vmf) : Prop :=
  vmf.answers.tables = true → vmf.write = true →
    match s.pte vmf.mm vmf.vpn with
    | none =>
      match vmf.vma.backing with
      | .anonymous => ∀ f, vmf.answers.folio = some f → ∀ off, s.mem f off = 0
      | .file id => ∀ p, s.pageArray id (vmf.vma.pageIndex vmf.vpn) = some p →
          ∀ off, s.mem p off = filePage c id (vmf.vma.pageIndex vmf.vpn) off
    | some e => e.write = false → e.pfn = c.zeroPfn →
        ∀ f, vmf.answers.folio = some f → ∀ off, s.mem f off = 0

def FaultsClean (c : Config) (s : Machine) : Op → Prop
  | .access mm vpn _ acc a =>
    s.permits mm vpn acc = none → ∀ v, s.vmaAt mm vpn = some v →
      s.FaultClean c ⟨mm, v, vpn, acc.isStore, a⟩
  | _ => True

section Bytes
variable {c : Config} {s s' : Machine} {mm : MmId} {vpn : Vpn} {v : Vma} {off : Offset} {f : Frame}
  {e : Pte} {bytes : Offset → Byte}

theorem content_of_some (he : s.pte mm vpn = some e) :
    s.content c mm v vpn off = s.mem e.pfn off := by
  simp only [content, he]

theorem content_of_none (he : s.pte mm vpn = none) :
    s.content c mm v vpn off = s.freshByte c v vpn off := by
  simp only [content, he]

theorem freshByte_anonymous (hb : v.backing = .anonymous) : s.freshByte c v vpn off = 0 := by
  simp only [freshByte, hb]

theorem freshByte_cached {id : Nat} (hb : v.backing = .file id)
    (hp : s.pageArray id (v.pageIndex vpn) = some f) :
    s.freshByte c v vpn off = s.mem f off := by
  simp only [freshByte, hb, hp]

theorem freshByte_file {id : Nat} (hb : v.backing = .file id)
    (hp : s.pageArray id (v.pageIndex vpn) = none) :
    s.freshByte c v vpn off = filePage c id (v.pageIndex vpn) off := by
  simp only [freshByte, hb, hp]

theorem freshByte_congr
    (h : ∀ id, v.backing = .file id →
      s'.pageArray id (v.pageIndex vpn) = s.pageArray id (v.pageIndex vpn) ∧
      ∀ p, s.pageArray id (v.pageIndex vpn) = some p → s'.mem p off = s.mem p off) :
    s'.freshByte c v vpn off = s.freshByte c v vpn off := by
  cases hb : v.backing with
  | anonymous => rw [freshByte_anonymous hb, freshByte_anonymous hb]
  | file id =>
    obtain ⟨hpa, hmem⟩ := h id hb
    cases hp : s.pageArray id (v.pageIndex vpn) with
    | none => rw [freshByte_file hb hp, freshByte_file hb (hpa.trans hp)]
    | some p =>
      rw [freshByte_cached hb hp, freshByte_cached hb (hpa.trans hp)]
      exact hmem p hp

theorem content_setFrame (hf : s.Free c f) :
    (s.setFrame f bytes).content c mm v vpn off = s.content c mm v vpn off := by
  cases he : s.pte mm vpn with
  | some e =>
    rw [content_of_some he, content_of_some (s := s.setFrame f bytes) he]
    show update s.mem f bytes e.pfn off = s.mem e.pfn off
    rw [update_of_ne (hf.unmapped mm vpn e he)]
  | none =>
    rw [content_of_none he, content_of_none (s := s.setFrame f bytes) he]
    apply freshByte_congr
    refine fun id _ => ⟨rfl, ?_⟩
    intro p hp
    have hne : p ≠ f := fun h => hf.notCached id _ (h ▸ hp)
    show update s.mem f bytes p off = s.mem p off
    rw [update_of_ne hne]

theorem content_setPte_self : (s.setPte mm vpn e).content c mm v vpn off = s.mem e.pfn off := by
  have he : (s.setPte mm vpn e).pte mm vpn = some e := by simp [setPte_pte]
  rw [content_of_some he, setPte_mem]

theorem content_setPte_other {mm' : MmId} {vpn' : Vpn} (hne : ¬ (mm' = mm ∧ vpn' = vpn)) :
    (s.setPte mm vpn e).content c mm' v vpn' off = s.content c mm' v vpn' off := by
  have hpte : (s.setPte mm vpn e).pte mm' vpn' = s.pte mm' vpn' := by
    rw [setPte_pte, if_neg hne]
  cases he : s.pte mm' vpn' with
  | some e' => rw [content_of_some he, content_of_some (hpte.trans he), setPte_mem]
  | none =>
    rw [content_of_none he, content_of_none (hpte.trans he)]
    exact freshByte_congr fun id _ => ⟨rfl, fun _ _ => rfl⟩

theorem content_folioPut : (s.folioPut f).content c mm v vpn off = s.content c mm v vpn off := rfl

theorem content_fillCache {id i : Nat} {p : Frame} (hp : s.Free c p)
    (hclean : ∀ f, s.pageArray id i = some f → ∀ off, s.mem f off = filePage c id i off) :
    (s.fillCache c id i p).content c mm v vpn off = s.content c mm v vpn off := by
  cases he : s.pte mm vpn with
  | some e =>
    rw [content_of_some he, content_of_some (s := s.fillCache c id i p) he]
    show update s.mem p _ e.pfn off = s.mem e.pfn off
    rw [update_of_ne (hp.unmapped mm vpn e he)]
  | none =>
    rw [content_of_none he, content_of_none (s := s.fillCache c id i p) he]
    cases hb : v.backing with
    | anonymous => rw [freshByte_anonymous hb, freshByte_anonymous hb]
    | file id' =>
      by_cases hsame : id' = id ∧ v.pageIndex vpn = i
      · obtain ⟨rfl, rfl⟩ := hsame
        have hnew : (s.fillCache c id' (v.pageIndex vpn) p).pageArray id' (v.pageIndex vpn) =
            some p := by
          show ((s.allocPage p).setPageArray id' _ p).pageArray id' _ = some p
          rw [setPageArray_pageArray, if_pos ⟨rfl, rfl⟩]
        rw [freshByte_cached hb hnew]
        have hmem : (s.fillCache c id' (v.pageIndex vpn) p).mem p off =
            filePage c id' (v.pageIndex vpn) off := by
          show update s.mem p _ p off = _
          rw [update_self]
        rw [hmem]
        cases hold : s.pageArray id' (v.pageIndex vpn) with
        | none => rw [freshByte_file hb hold]
        | some f => rw [freshByte_cached hb hold, hclean f hold]
      · apply freshByte_congr
        intro id'' hb'
        obtain rfl : id' = id'' := Backing.file.inj (hb.symm.trans hb')
        constructor
        · show ((s.allocPage p).setPageArray id i p).pageArray id' _ = _
          rw [setPageArray_pageArray, if_neg hsame]
          rfl
        · intro q hq
          have hne : q ≠ p := fun h => hp.notCached id' _ (h ▸ hq)
          show update s.mem p _ q off = s.mem q off
          rw [update_of_ne hne]

end Bytes

/-! ## A fault and the bytes -/

section Fault
variable {c : Config} {s s' : Machine} {vmf : Vmf} {f p : Frame}

theorem Free.congr (hf : s.Free c f) (hpte : s'.pte = s.pte) (hpa : s'.pageArray = s.pageArray) :
    s'.Free c f :=
  ⟨hf.inRange, hf.notZero, hpa ▸ hf.notCached, hpte ▸ hf.unmapped⟩

theorem setFrame_mem_self (bytes : Offset → Byte) : (s.setFrame f bytes).mem f = bytes := by
  simp

theorem Free.fillCache (hf : s.Free c f) (hne : f ≠ p) (id i : Nat) :
    (s.fillCache c id i p).Free c f where
  inRange := hf.inRange
  notZero := hf.notZero
  notCached id' i' := by
    show ((s.allocPage p).setPageArray id i p).pageArray id' i' ≠ some f
    rw [setPageArray_pageArray]
    split
    · exact fun h => hne (some.inj h).symm
    · exact hf.notCached id' i'
  unmapped := hf.unmapped

theorem content_fault (hzero : ∀ off, s.mem c.zeroPfn off = 0) (hwf : s.WellFormed c)
    (ha : s.AnswersOk c vmf.answers) (hcase : FaultCase c s vmf s')
    (hclean : s.FaultClean c vmf) {mm : MmId} {vpn : Vpn} {v : Vma} (off : Offset)
    (hv : mm = vmf.mm → vpn = vmf.vpn → v = vmf.vma) :
    s'.content c mm v vpn off = s.content c mm v vpn off := by
  -- the entry of the page of the fault, and all others
  have hset : ∀ (t : Machine) (e : Pte),
      (∀ mm v vpn, t.content c mm v vpn off = s.content c mm v vpn off) →
      t.mem e.pfn off = s.content c vmf.mm vmf.vma vmf.vpn off →
      (t.setPte vmf.mm vmf.vpn e).content c mm v vpn off = s.content c mm v vpn off := by
    intro t e hother hself
    by_cases hsame : mm = vmf.mm ∧ vpn = vmf.vpn
    · obtain ⟨rfl, rfl⟩ := hsame
      rw [content_setPte_self, hself, hv rfl rfl]
    · rw [content_setPte_other hsame, hother]
  cases hcase with
  | unchanged => rfl
  | zeroPage hnone hanon =>
    apply hset s _ fun _ _ _ => rfl
    rw [content_of_none hnone, freshByte_anonymous hanon]
    exact hzero off
  | newPage f hnone hanon _ hwrite hf htables =>
    apply hset (s.allocPage f) _ fun _ _ _ => rfl
    have hbytes := hclean htables hwrite
    simp only [hnone, hanon] at hbytes
    rw [content_of_none hnone, freshByte_anonymous hanon, maybeMkwrite_pfn]
    exact hbytes f hf off
  | cached id p hnone hfile _ hp =>
    apply hset s _ fun _ _ _ => rfl
    rw [content_of_none hnone, freshByte_cached hfile hp]
  | readIn id p hnone hfile _ hp hpage =>
    apply hset (s.fillCache c id (vmf.vma.pageIndex vmf.vpn) p)
    · intro mm v vpn
      exact content_fillCache (ha.cachePage p hpage) fun f hf => absurd (hp.symm.trans hf) nofun
    · rw [content_of_none hnone, freshByte_file hfile hp]
      exact congrFun (setFrame_mem_self _) off
  | cow id f p hnone hfile _ hwrite hf hpage htables =>
    have hbytes := hclean htables hwrite
    simp only [hnone, hfile] at hbytes
    have hne : f ≠ p := fun h => ha.ne f hf (h ▸ hpage)
    have hfree : (s.allocPage f).Free c f := (ha.folio f hf).congr rfl rfl
    apply hset
    · intro mm v vpn
      rw [content_setFrame (hfree.fillCache hne id _)]
      exact content_fillCache (s := s.allocPage f) ((ha.cachePage p hpage).congr rfl rfl) hbytes
    · rw [content_of_none hnone, mkPte_pfn, setFrame_mem_self]
      cases hold : s.pageArray id (vmf.vma.pageIndex vmf.vpn) with
      | none => rw [freshByte_file hfile hold]
      | some q => rw [freshByte_cached hfile hold, hbytes q hold]
  | copy e f he _ hwrite hnw hf htables =>
    have hbytes := hclean htables hwrite
    simp only [he] at hbytes
    by_cases hz : e.pfn = c.zeroPfn
    · rw [if_pos hz, content_folioPut, content_folioPut]
      apply hset ((s.folioGet e.pfn).allocPage f) _ fun _ _ _ => rfl
      rw [content_of_some he, maybeMkwrite_pfn, hz, hzero off]
      exact hbytes hnw hz f hf off
    · rw [if_neg hz, content_folioPut, content_folioPut]
      apply hset
      · intro mm v vpn
        exact content_setFrame (s := (s.folioGet e.pfn).allocPage f) ((ha.folio f hf).congr rfl rfl)
      · rw [content_of_some he]
        simp
  | copyUnknown e f he hgt => exact absurd (hwf.pte _ _ e he) (Nat.not_le_of_lt hgt)

theorem faultClean_of_content (hzero : ∀ off, s.mem c.zeroPfn off = 0) (hwf : s.WellFormed c)
    (hshared : vmf.vma.shared = false) (hcase : FaultCase c s vmf s')
    (h : ∀ off, s'.content c vmf.mm vmf.vma vmf.vpn off =
      s.content c vmf.mm vmf.vma vmf.vpn off) : s.FaultClean c vmf := by
  intro htables hwrite
  cases hcase with
  | unchanged hwhy =>
    obtain hno | hsh | ⟨e, he, hew⟩ := hwhy
    · exact absurd (htables.symm.trans hno) nofun
    · exact absurd (hsh.symm.trans hshared) nofun
    · simp only [he]
      intro hnw
      exact absurd ((hew hwrite).symm.trans hnw) nofun
  | zeroPage _ _ _ hread => exact absurd (hwrite.symm.trans hread) nofun
  | cached _ _ _ _ hread => exact absurd (hwrite.symm.trans hread) nofun
  | readIn _ _ _ _ hread => exact absurd (hwrite.symm.trans hread) nofun
  | newPage f hnone hanon _ _ hf =>
    simp only [hnone, hanon]
    intro f' hf' off
    obtain rfl : f = f' := some.inj (hf.symm.trans hf')
    have := h off
    rw [content_setPte_self, content_of_none hnone, freshByte_anonymous hanon] at this
    simpa using this
  | cow id f p hnone hfile _ _ hf hpage =>
    simp only [hnone, hfile]
    intro q hq off
    have := h off
    rw [content_of_none hnone, freshByte_cached hfile hq] at this
    rw [← this]
    rw [content_folioPut, content_setPte_self, mkPte_pfn, setFrame_mem_self]
  | copy e f he _ _ _ hf =>
    simp only [he]
    intro _ hz f' hf' off
    obtain rfl : f = f' := some.inj (hf.symm.trans hf')
    have := h off
    rw [content_of_some he, hz, hzero off] at this
    rw [← this, if_pos rfl, content_folioPut, content_folioPut, content_setPte_self]
    simp
  | copyUnknown e f he hgt => exact absurd (hwf.pte _ _ e he) (Nat.not_le_of_lt hgt)

end Fault

/-! ## Frames of their own -/

section Sealed
variable {c : Config} {s s' : Machine} {mm : MmId} {vpn : Vpn} {v : Vma} {e : Pte} {f p : Frame}

section

variable (h : s.Sealed c)
include h

theorem Sealed.congr (hpte : s'.pte = s.pte) (hvmas : s'.vmas = s.vmas)
    (hpa : s'.pageArray = s.pageArray) (hmem : s'.mem c.zeroPfn = s.mem c.zeroPfn) :
    s'.Sealed c := by
  have hat := vmaAt_congr hvmas
  refine ⟨?_, ?_, ?_, ?_, ?_⟩
  · rw [hmem]
    exact h.zero
  · rw [hat, hpte]
    exact h.writable
  · rw [hat, hpte]
    exact h.notZero
  · rw [hat, hpte, hpa]
    exact h.notCached
  · rw [hat, hpte]
    exact h.alone

theorem Sealed.allocPage (f : Frame) : (s.allocPage f).Sealed c := h.congr rfl rfl rfl rfl

theorem Sealed.folioPut (f : Frame) : (s.folioPut f).Sealed c := h.congr rfl rfl rfl rfl

theorem Sealed.setFrame (hf : s.Free c f) (bytes : Offset → Byte) : (s.setFrame f bytes).Sealed c :=
  h.congr rfl rfl rfl (update_of_ne hf.notZero.symm ..)

/-- The frame that a page gets is not one that may be written elsewhere, and it is written only if
it was free. -/
theorem Sealed.setPte (hv : s.vmaAt mm vpn = some v)
    (hother : ∀ mm' vpn' v' e', s.vmaAt mm' vpn' = some v' → v'.shared = false →
      s.pte mm' vpn' = some e' → e'.write = true → e'.pfn ≠ e.pfn)
    (hwrite : e.write = true → v.write = true ∧ s.Free c e.pfn) :
    (s.setPte mm vpn e).Sealed c := by
  have hcases : ∀ {mm' vpn' e'}, (s.setPte mm vpn e).pte mm' vpn' = some e' →
      (mm' = mm ∧ vpn' = vpn ∧ e = e') ∨
        (¬ (mm' = mm ∧ vpn' = vpn) ∧ s.pte mm' vpn' = some e') := by
    intro mm' vpn' e' he
    rw [setPte_pte] at he
    split at he
    · rename_i hsame
      exact .inl ⟨hsame.1, hsame.2, some.inj he⟩
    · exact .inr ⟨‹_›, he⟩
  refine ⟨h.zero, ?_, ?_, ?_, ?_⟩
  · intro mm' vpn' v' e' hv' hs he hw
    obtain ⟨rfl, rfl, rfl⟩ | ⟨-, he⟩ := hcases he
    · obtain rfl : v = v' := some.inj (hv.symm.trans hv')
      exact (hwrite hw).1
    · exact h.writable mm' vpn' v' e' hv' hs he hw
  · intro mm' vpn' v' e' hv' hs he hw
    obtain ⟨rfl, rfl, rfl⟩ | ⟨-, he⟩ := hcases he
    · exact (hwrite hw).2.notZero
    · exact h.notZero mm' vpn' v' e' hv' hs he hw
  · intro mm' vpn' v' e' hv' hs he hw
    obtain ⟨rfl, rfl, rfl⟩ | ⟨-, he⟩ := hcases he
    · exact (hwrite hw).2.notCached
    · exact h.notCached mm' vpn' v' e' hv' hs he hw
  · intro mm' vpn' v' e' hv' hs he hw mm₂ vpn₂ e₂ he₂ hpfn
    obtain ⟨rfl, rfl, rfl⟩ | ⟨-, hold⟩ := hcases he
    · obtain ⟨rfl, rfl, -⟩ | ⟨-, hold₂⟩ := hcases he₂
      · exact ⟨rfl, rfl⟩
      · exact absurd hpfn ((hwrite hw).2.unmapped mm₂ vpn₂ e₂ hold₂)
    · obtain ⟨-, -, rfl⟩ | ⟨-, hold₂⟩ := hcases he₂
      · exact absurd hpfn.symm (hother mm' vpn' v' e' hv' hs hold hw)
      · exact h.alone mm' vpn' v' e' hv' hs hold hw mm₂ vpn₂ e₂ hold₂ hpfn

theorem Sealed.fillCache (hp : s.Free c p) (id i : Nat) : (s.fillCache c id i p).Sealed c where
  zero off := by
    show update s.mem p _ c.zeroPfn off = 0
    rw [update_of_ne hp.notZero.symm]
    exact h.zero off
  writable := h.writable
  notZero := h.notZero
  notCached mm vpn v e hv hs he hw id' i' := by
    show ((s.allocPage p).setPageArray id i p).pageArray id' i' ≠ some e.pfn
    rw [setPageArray_pageArray]
    split
    · exact fun heq => hp.unmapped mm vpn e he (some.inj heq).symm
    · exact h.notCached mm vpn v e hv hs he hw id' i'
  alone := h.alone

theorem Sealed.setPte_free (hv : s.vmaAt mm vpn = some v) (hf : s.Free c f)
    (hshared : v.shared = false) (he : e = v.maybeMkwrite (v.mkPte f) ∨ e = v.mkPte f) :
    (s.setPte mm vpn e).Sealed c := by
  have hpfn : e.pfn = f := by
    obtain rfl | rfl := he <;> simp
  refine h.setPte hv ?_ ?_
  · intro mm' vpn' v' e' _ _ he' _
    rw [hpfn]
    exact hf.unmapped mm' vpn' e' he'
  · intro hw
    rw [hpfn]
    refine ⟨?_, hf⟩
    cases hvw : v.write with
    | true => rfl
    | false =>
      obtain rfl | rfl := he <;> simp [Vma.maybeMkwrite, Vma.mkPte, hshared, hvw] at hw

theorem Sealed.fault {vmf : Vmf} (hwf : s.WellFormed c)
    (ha : s.AnswersOk c vmf.answers) (hv : s.vmaAt vmf.mm vmf.vpn = some vmf.vma)
    (hshared : vmf.vma.shared = false) (hcase : FaultCase c s vmf s') : s'.Sealed c := by
  cases hcase with
  | unchanged => exact h
  | zeroPage =>
    refine h.setPte hv ?_ ?_
    · intro mm' vpn' v' e' hv' hs he' hw
      exact h.notZero mm' vpn' v' e' hv' hs he' hw
    · intro hw
      simp [Vma.mkPte, hshared] at hw
  | newPage f _ _ _ _ hf =>
    have hfree := ha.folio f hf
    exact (h.allocPage f).setPte_free hv (hfree.congr rfl rfl) hshared (.inl rfl)
  | cached id p _ _ _ hp =>
    refine h.setPte hv ?_ nofun
    intro mm' vpn' v' e' hv' hs he' hw heq
    refine h.notCached mm' vpn' v' e' hv' hs he' hw _ _ (hp.trans ?_)
    rw [heq]
  | readIn id p _ _ _ _ hp =>
    have hfree := ha.cachePage p hp
    have hv' : (s.fillCache c id (vmf.vma.pageIndex vmf.vpn) p).vmaAt vmf.mm vmf.vpn =
        some vmf.vma := by
      exact hv
    refine (h.fillCache hfree id _).setPte hv' ?_ ?_
    · intro mm' vpn' v' e' _ _ he' _
      exact hfree.unmapped mm' vpn' e' he'
    · intro hw
      simp [Vma.mkPte, hshared] at hw
  | cow id f p _ _ _ _ hf hp =>
    have hne : f ≠ p := fun heq => ha.ne f hf (heq ▸ hp)
    have hfree : (s.allocPage f).Free c f := (ha.folio f hf).congr rfl rfl
    have hfill := (h.allocPage f).fillCache ((ha.cachePage p hp).congr rfl rfl) id
      (vmf.vma.pageIndex vmf.vpn)
    have hfree' := hfree.fillCache hne id (vmf.vma.pageIndex vmf.vpn)
    apply Sealed.folioPut
    refine (hfill.setFrame hfree' _).setPte_free ?_ (hfree'.congr rfl rfl) hshared (.inr rfl)
    exact hv
  | copy e f he _ _ _ hf =>
    have hfree := ha.folio f hf
    have hget : ((s.folioGet e.pfn).allocPage f).Sealed c := h.congr rfl rfl rfl rfl
    have hfree' : ((s.folioGet e.pfn).allocPage f).Free c f := hfree.congr rfl rfl
    split
    · have hset := hget.setPte_free (e := vmf.vma.maybeMkwrite (vmf.vma.mkPte f)) hv hfree'
        hshared (.inl rfl)
      exact (hset.folioPut _).folioPut _
    · have hset := (hget.setFrame hfree' (s.mem e.pfn)).setPte_free
        (e := vmf.vma.maybeMkwrite (vmf.vma.mkPte f)) hv (hfree'.congr rfl rfl) hshared (.inl rfl)
      exact (hset.folioPut _).folioPut _
  | copyUnknown e f he hgt => exact absurd (hwf.pte _ _ e he) (Nat.not_le_of_lt hgt)

end

/-! ## Stores -/

theorem permits_eq_some {acc : Access} (h : s.permits mm vpn acc = some f) :
    ∃ e, s.pte mm vpn = some e ∧ e.pfn = f ∧ (acc.isStore = true → e.write = true) := by
  rw [permits] at h
  split at h
  · exact absurd h nofun
  · rename_i e he
    split at h
    · rename_i hperm
      refine ⟨e, he, some.inj h, ?_⟩
      intro hstore
      simp only [hstore, Bool.not_true, Bool.false_or, Bool.and_eq_true] at hperm
      exact hperm.2
    · exact absurd h nofun

theorem Sealed.store (h : s.Sealed c) (hv : s.vmaAt mm vpn = some v) (hs : v.shared = false)
    (he : s.pte mm vpn = some e) (hw : e.write = true) (off : Offset) (b : Byte) :
    (s.storeByte e.pfn off b).Sealed c :=
  h.congr rfl rfl rfl (update_of_ne (h.notZero mm vpn v e hv hs he hw).symm ..)

theorem content_store_self (he : s.pte mm vpn = some e) (off off' : Offset) (b : Byte) :
    (s.storeByte e.pfn off b).content c mm v vpn off' =
      if off' = off then b else s.content c mm v vpn off' := by
  have he' : (s.storeByte e.pfn off b).pte mm vpn = some e := he
  rw [content_of_some he, content_of_some he']
  show update s.mem e.pfn (update (s.mem e.pfn) off b) e.pfn off' = _
  rw [update_self, update_apply]

theorem content_store_other (h : s.Sealed c) (hv : s.vmaAt mm vpn = some v)
    (hs : v.shared = false) (he : s.pte mm vpn = some e) (hw : e.write = true) {mm' : MmId}
    {vpn' : Vpn} {v' : Vma} (hne : ¬ (mm' = mm ∧ vpn' = vpn)) (off off' : Offset) (b : Byte) :
    (s.storeByte e.pfn off b).content c mm' v' vpn' off' = s.content c mm' v' vpn' off' := by
  cases he' : s.pte mm' vpn' with
  | some e' =>
    have hpfn : e'.pfn ≠ e.pfn := fun heq => hne (h.alone mm vpn v e hv hs he hw mm' vpn' e' he' heq)
    rw [content_of_some he', content_of_some (s := s.storeByte e.pfn off b) he']
    show update s.mem e.pfn _ e'.pfn off' = _
    rw [update_of_ne hpfn]
  | none =>
    rw [content_of_none he', content_of_none (s := s.storeByte e.pfn off b) he']
    apply freshByte_congr
    refine fun id _ => ⟨rfl, ?_⟩
    intro p hp
    have hpe : p ≠ e.pfn := fun heq => h.notCached mm vpn v e hv hs he hw id _ (heq ▸ hp)
    show update s.mem e.pfn _ p off' = _
    rw [update_of_ne hpe]

theorem Sealed.access (h : s.Sealed c) (hwf : s.WellFormed c) {off : Offset} {a : Answers}
    {acc : Access} {r : Result} (ha : s.AnswersOk c a) (hv : s.vmaAt mm vpn = some v)
    (hs : v.shared = false) (hcase : AccessCase c s mm vpn off a acc r s') : s'.Sealed c := by
  cases hcase with
  | load => exact h
  | badArea => exact h
  | store f b hp =>
    obtain ⟨e, he, rfl, hw⟩ := permits_eq_some hp
    exact h.store hv hs he (hw rfl) off b
  | fault acc v' ret s' _ hv' hcase =>
    obtain rfl : v = v' := some.inj (hv.symm.trans hv')
    exact h.fault hwf ha hv hs hcase

end Sealed

theorem sealed_fresh (fill : Byte) : (fresh fill).Sealed smallConfig where
  zero _ := rfl
  writable _ _ _ _ _ _ he := absurd he nofun
  notZero _ _ _ _ _ _ he := absurd he nofun
  notCached _ _ _ _ _ _ he := absurd he nofun
  alone _ _ _ _ _ _ he := absurd he nofun

end Machine

end MyOS2.Fault
