import MyOS2.Mm.Fault.Fault
import Mathlib.Data.List.Nodup
import Mathlib.Data.List.TakeWhile

/-!
# What a fault and a fork can do

One case per way through the handlers, with the state they leave in terms of the
steps that were taken; and the pages that `dup_mmap` copies, as a list that is
fixed by the mappings and what the allocators answer.
-/

namespace MyOS2.Fault

open Function Option List
open Filemap (Byte pageSize)

namespace Machine

/-! ## The fields after a step -/

theorem update_update_apply {α β γ : Type*} [DecidableEq α] [DecidableEq β] (f : α → β → γ)
    (a a' b b' x) :
    update f a (update (f a) b x) a' b' = if a' = a ∧ b' = b then x else f a' b' := by
  by_cases ha : a' = a
  · subst ha
    simp [update_apply]
  · simp [ha]

section Fields
variable (s : Machine)

theorem setPte_pte (mm vpn e mm' vpn') :
    (s.setPte mm vpn e).pte mm' vpn' =
      if mm' = mm ∧ vpn' = vpn then some e else s.pte mm' vpn' := update_update_apply ..

theorem setPageArray_pageArray (id i f id' i') :
    (s.setPageArray id i f).pageArray id' i' =
      if id' = id ∧ i' = i then some f else s.pageArray id' i' := update_update_apply ..

end Fields

end Machine

/-! ## Faults -/

section Cases
variable (c : Config)

/-- The page cache after a page of a file was read into `page`. -/
@[simps! -fullyApplied pte vmas live]
def Machine.fillCache (s : Machine) (id index : Nat) (page : Frame) : Machine :=
  ((s.allocPage page).setPageArray id index page).setFrame page (filePage c id index)

theorem Machine.vmaAt_congr {s s' : Machine} (h : s'.vmas = s.vmas) : s'.vmaAt = s.vmaAt := by
  funext mm vpn
  rw [vmaAt, vmaAt, h]

open Machine in
/-- The ways through `myos_handle_mm_fault` that return, and what they leave. -/
inductive FaultCase (s : Machine) (vmf : Vmf) : Machine → Prop
  | unchanged : (vmf.answers.tables = false ∨ vmf.vma.shared = true ∨
        ∃ e, s.pte vmf.mm vmf.vpn = some e ∧ (vmf.write = true → e.write = true)) →
      FaultCase s vmf s
  | zeroPage : s.pte vmf.mm vmf.vpn = none → vmf.vma.backing = .anonymous →
      vmf.vma.shared = false → vmf.write = false → vmf.answers.tables = true →
      FaultCase s vmf (s.setPte vmf.mm vmf.vpn (vmf.vma.mkPte c.zeroPfn))
  | newPage (f : Frame) : s.pte vmf.mm vmf.vpn = none → vmf.vma.backing = .anonymous →
      vmf.vma.shared = false → vmf.write = true → vmf.answers.folio = some f →
      vmf.answers.tables = true →
      FaultCase s vmf ((s.allocPage f).setPte vmf.mm vmf.vpn
        (vmf.vma.maybeMkwrite (vmf.vma.mkPte f)))
  | cached (id : Nat) (p : Frame) : s.pte vmf.mm vmf.vpn = none →
      vmf.vma.backing = .file id → vmf.write = false →
      s.pageArray id (vmf.vma.pageIndex vmf.vpn) = some p → vmf.answers.tables = true →
      FaultCase s vmf (s.setPte vmf.mm vmf.vpn ⟨p, true, false⟩)
  | readIn (id : Nat) (p : Frame) : s.pte vmf.mm vmf.vpn = none →
      vmf.vma.backing = .file id → vmf.write = false →
      s.pageArray id (vmf.vma.pageIndex vmf.vpn) = none → vmf.answers.cachePage = some p →
      vmf.answers.tables = true →
      FaultCase s vmf ((s.fillCache c id (vmf.vma.pageIndex vmf.vpn) p).setPte vmf.mm vmf.vpn
        (vmf.vma.mkPte p))
  | cow (id : Nat) (f p : Frame) : s.pte vmf.mm vmf.vpn = none →
      vmf.vma.backing = .file id → vmf.vma.shared = false → vmf.write = true →
      vmf.answers.folio = some f → vmf.answers.cachePage = some p →
      vmf.answers.tables = true →
      FaultCase s vmf ((((s.allocPage f).fillCache c id (vmf.vma.pageIndex vmf.vpn) p).setFrame f
        (filePage c id (vmf.vma.pageIndex vmf.vpn))).setPte vmf.mm vmf.vpn
          (vmf.vma.mkPte f) |>.folioPut p)
  | copy (e : Pte) (f : Frame) : s.pte vmf.mm vmf.vpn = some e → vmf.vma.shared = false →
      vmf.write = true → e.write = false → vmf.answers.folio = some f →
      vmf.answers.tables = true → e.pfn ≤ c.highestMemmapPfn →
      FaultCase s vmf (((if e.pfn = c.zeroPfn then (s.folioGet e.pfn).allocPage f
          else ((s.folioGet e.pfn).allocPage f).setFrame f (s.mem e.pfn)).setPte vmf.mm vmf.vpn
          (vmf.vma.maybeMkwrite (vmf.vma.mkPte f))).folioPut e.pfn |>.folioPut e.pfn)
  | copyUnknown (e : Pte) (f : Frame) : s.pte vmf.mm vmf.vpn = some e →
      c.highestMemmapPfn < e.pfn →
      FaultCase s vmf ((s.allocPage f).setPte vmf.mm vmf.vpn
        (vmf.vma.maybeMkwrite (vmf.vma.mkPte f)))

variable {c} {s s' : Machine} {vmf : Vmf} {ret : VmFault}

theorem faultCase_doAnonymousPage (hpte : s.pte vmf.mm vmf.vpn = none)
    (hvma : vmf.vma.backing = .anonymous) (ht : vmf.answers.tables = true)
    (h : doAnonymousPage c s vmf = some (ret, s')) : FaultCase c s vmf s' := by
  rw [doAnonymousPage] at h
  split at h
  · rename_i hshared
    obtain ⟨-, rfl⟩ : .sigbus = ret ∧ s = s' := by simpa using h
    exact .unchanged (.inr (.inl hshared))
  · rename_i hshared
    have hshared : vmf.vma.shared = false := by simpa using hshared
    split at h
    · rename_i hwrite
      obtain ⟨-, rfl⟩ : .ok = ret ∧ _ = s' := by simpa using h
      exact .zeroPage hpte hvma hshared (by simpa using hwrite) ht
    · rename_i hwrite
      obtain ⟨f, hf, h⟩ := bind_eq_some_iff.mp h
      obtain ⟨-, rfl⟩ : .ok = ret ∧ _ = s' := by simpa using h
      exact .newPage f hpte hvma hshared (by simpa using hwrite) hf ht

theorem simpleFilemapFault_eq {id : Nat} {page : Frame}
    (h : simpleFilemapFault c s vmf id = some (page, s')) :
    vmf.answers.cachePage = some page ∧ s' = s.fillCache c id (vmf.vma.pageIndex vmf.vpn) page := by
  simp only [simpleFilemapFault] at h
  split at h
  · obtain ⟨p, hp, h⟩ := bind_eq_some_iff.mp h
    obtain ⟨rfl, rfl⟩ : p = page ∧ _ = s' := by simpa using h
    exact ⟨hp, rfl⟩
  · exact absurd h nofun

section

variable {id : Nat} (hpte : s.pte vmf.mm vmf.vpn = none) (hvma : vmf.vma.backing = .file id)
include hpte hvma

theorem faultCase_doReadFault (hwrite : vmf.write = false)
    (ht : vmf.answers.tables = true) (h : doReadFault c s vmf id = some (ret, s')) :
    FaultCase c s vmf s' := by
  obtain ⟨⟨ret', s₁⟩, hmap, h⟩ := bind_eq_some_iff.mp h
  simp only [simpleFilemapMapPage] at hmap
  split at hmap
  · split at hmap
    · rename_i p hp
      obtain ⟨rfl, rfl⟩ : .ok = ret' ∧ _ = s₁ := by simpa using hmap
      obtain ⟨-, rfl⟩ : .ok = ret ∧ _ = s' := by simpa using h
      exact .cached id p hpte hvma hwrite hp ht
    · rename_i hp
      obtain ⟨rfl, rfl⟩ : .nopage = ret' ∧ s = s₁ := by simpa using hmap
      obtain ⟨⟨page, s₂⟩, hfault, h⟩ := bind_eq_some_iff.mp h
      obtain ⟨hpage, rfl⟩ := simpleFilemapFault_eq hfault
      obtain ⟨-, rfl⟩ : .ok = ret ∧ _ = s' := by simpa using h
      exact .readIn id page hpte hvma hwrite hp hpage ht
  · exact absurd hmap nofun

theorem faultCase_doCowFault (hshared : vmf.vma.shared = false)
    (hwrite : vmf.write = true) (ht : vmf.answers.tables = true)
    (h : doCowFault c s vmf id = some (ret, s')) : FaultCase c s vmf s' := by
  obtain ⟨f, hf, h⟩ := bind_eq_some_iff.mp h
  obtain ⟨⟨page, s₂⟩, hfault, h⟩ := bind_eq_some_iff.mp h
  obtain ⟨hpage, rfl⟩ := simpleFilemapFault_eq hfault
  obtain ⟨-, rfl⟩ : .ok = ret ∧ _ = s' := by simpa using h
  have := FaultCase.cow (c := c) (s := s) id f page hpte hvma hshared hwrite hf hpage ht
  simpa [Machine.fillCache] using this

end

theorem faultCase_doWpPage {e : Pte} (hpte : s.pte vmf.mm vmf.vpn = some e)
    (hwrite : vmf.write = true) (he : e.write = false) (ht : vmf.answers.tables = true)
    (h : doWpPage c s vmf e = some (ret, s')) : FaultCase c s vmf s' := by
  simp only [doWpPage] at h
  split at h
  · exact absurd h nofun
  · rename_i hshared
    have hshared : vmf.vma.shared = false := by
      cases hs : vmf.vma.shared with
      | false => rfl
      | true => simp [hs] at hshared
    by_cases hpfn : e.pfn > c.highestMemmapPfn
    · simp only [vmNormalPage, if_pos hpfn, wpPageCopy] at h
      obtain ⟨f, hf, h⟩ := bind_eq_some_iff.mp h
      obtain ⟨-, rfl⟩ : .ok = ret ∧ _ = s' := by simpa using h
      simpa using FaultCase.copyUnknown e f hpte hpfn
    · simp only [vmNormalPage, if_neg hpfn, wpPageCopy] at h
      obtain ⟨f, hf, h⟩ := bind_eq_some_iff.mp h
      obtain ⟨-, rfl⟩ : .ok = ret ∧ _ = s' := by simpa using h
      exact .copy e f hpte hshared hwrite he hf ht (Nat.le_of_not_lt hpfn)

theorem faultCase_handleMmFault (h : handleMmFault c s vmf = some (ret, s')) :
    FaultCase c s vmf s' := by
  rw [handleMmFault] at h
  split at h
  · rename_i ht
    rw [handlePteFault] at h
    split at h
    · rename_i hpte
      split at h
      · exact faultCase_doAnonymousPage hpte ‹_› ht h
      · rename_i id hvma
        rw [doFault] at h
        split at h
        · rename_i hwrite
          exact faultCase_doReadFault hpte hvma (by simpa using hwrite) ht h
        · rename_i hwrite
          split at h
          · rename_i hshared
            exact faultCase_doCowFault hpte hvma (by simpa using hshared) (by simpa using hwrite)
              ht h
          · exact absurd h nofun
    · rename_i e hpte
      split at h
      · rename_i hwp
        obtain ⟨hwrite, he⟩ : vmf.write = true ∧ e.write = false := by simpa using hwp
        exact faultCase_doWpPage hpte hwrite he ht h
      · rename_i hwp
        obtain ⟨-, rfl⟩ : .ok = ret ∧ s = s' := by simpa using h
        exact .unchanged (.inr (.inr ⟨e, hpte, by simpa using hwp⟩))
  · rename_i ht
    obtain ⟨-, rfl⟩ : .oom = ret ∧ s = s' := by simpa using h
    exact .unchanged (.inl (by simpa using ht))

theorem FaultCase.fixed (h : FaultCase c s vmf s') : s'.vmas = s.vmas ∧ s'.live = s.live := by
  cases h with
  | copy e f =>
    by_cases hz : e.pfn = c.zeroPfn
    · simp [hz]
    · simp [hz]
  | _ => simp

end Cases

variable {mm : MmId} {vpn : Vpn}

/-! ## Forks -/

namespace Machine

def copyOne (src dst : MmId) (s : Machine) (p : Vma × Vpn) : Machine :=
  match s.pte src p.2 with
  | none => s
  | some e => s.copyPresentPte src dst p.1 p.2 e

def pagesCopied (a : ForkAnswers) : List Vma → List (Vma × Vpn)
  | [] => []
  | v :: rest =>
    if v.dontCopy then pagesCopied a rest
    else if !a.vma v then []
    else if v.wipeOnFork then pagesCopied a rest
    else if v.pages.all a.tables then v.pages.map (v, ·) ++ pagesCopied a rest
    else (v.pages.takeWhile a.tables).map (v, ·)

def vmasCopied (a : ForkAnswers) : List Vma → List Vma
  | [] => []
  | v :: rest =>
    if v.dontCopy then vmasCopied a rest
    else if !a.vma v then []
    else if v.wipeOnFork || v.pages.all a.tables then v :: vmasCopied a rest
    else [v]

/-- Nothing that `dup_mmap` asks for is refused. -/
def forkOk (a : ForkAnswers) (vs : List Vma) : Bool :=
  vs.all fun v => v.dontCopy || (a.vma v && (v.wipeOnFork || v.pages.all a.tables))

def addVmas (s : Machine) (dst : MmId) (vs : List Vma) : Machine :=
  { s with vmas := update s.vmas dst (s.vmas dst ++ vs) }

variable {src dst : MmId} {a : ForkAnswers}

theorem copyPteRange_eq (v : Vma) : ∀ (l : List Vpn) (s : Machine),
    copyPteRange src dst v a l s =
      (l.all a.tables, ((l.takeWhile a.tables).map (v, ·)).foldl (copyOne src dst) s)
  | [], s => rfl
  | vpn :: rest, s => by
    rw [copyPteRange]
    cases ht : a.tables vpn with
    | false => simp [ht]
    | true =>
      simp only [if_true, all_cons, ht, Bool.true_and, takeWhile_cons_of_pos ht,
        map_cons, foldl_cons]
      cases he : s.pte src vpn with
      | none => simpa [copyOne, he] using copyPteRange_eq v rest s
      | some e => simpa [copyOne, he] using copyPteRange_eq v rest _

theorem copyOne_addVmas (s : Machine) (vs : List Vma) (p : Vma × Vpn) :
    copyOne src dst (s.addVmas dst vs) p = (copyOne src dst s p).addVmas dst vs := by
  simp only [copyOne, addVmas]
  cases s.pte src p.2 with
  | none => rfl
  | some e =>
    simp only [copyPresentPte]
    split <;> rfl

theorem foldl_copyOne_addVmas (vs : List Vma) : ∀ (l : List (Vma × Vpn)) (s : Machine),
    l.foldl (copyOne src dst) (s.addVmas dst vs) = (l.foldl (copyOne src dst) s).addVmas dst vs
  | [], _ => rfl
  | p :: l, s => by
    rw [foldl_cons, foldl_cons, copyOne_addVmas, foldl_copyOne_addVmas vs l]

theorem addVmas_addVmas (s : Machine) (vs ws : List Vma) :
    (s.addVmas dst vs).addVmas dst ws = s.addVmas dst (vs ++ ws) := by
  simp [addVmas]

theorem dupMmap_eq : ∀ (vs : List Vma) (s : Machine),
    dupMmap src dst a vs s =
      (if forkOk a vs then 0 else enomem,
        (pagesCopied a vs).foldl (copyOne src dst) (s.addVmas dst (vmasCopied a vs)))
  | [], s => by simp [dupMmap, forkOk, pagesCopied, vmasCopied, addVmas]
  | v :: rest, s => by
    rw [dupMmap]
    cases hd : v.dontCopy with
    | true => simpa [forkOk, pagesCopied, vmasCopied, hd] using dupMmap_eq rest s
    | false =>
      cases ha : a.vma v with
      | false => simp [forkOk, pagesCopied, vmasCopied, hd, ha, addVmas]
      | true =>
        have hadd : { s with vmas := update s.vmas dst (s.vmas dst ++ [v]) } =
          s.addVmas dst [v] := rfl
        rw [hadd]
        cases hw : v.wipeOnFork with
        | true =>
          simpa [forkOk, pagesCopied, vmasCopied, hd, ha, hw, addVmas_addVmas] using
            dupMmap_eq rest (s.addVmas dst [v])
        | false =>
          simp only [Bool.false_eq_true, if_false, Bool.not_true, copyPteRange_eq]
          cases ht : v.pages.all a.tables with
          | true =>
            have htake : v.pages.takeWhile a.tables = v.pages :=
              takeWhile_eq_self_iff.mpr (all_eq_true.mp ht)
            have := dupMmap_eq rest
              ((v.pages.map (v, ·)).foldl (copyOne src dst) (s.addVmas dst [v]))
            simpa [forkOk, pagesCopied, vmasCopied, hd, ha, hw, ht, htake,
              ← foldl_copyOne_addVmas, addVmas_addVmas] using this
          | false => simp [forkOk, pagesCopied, vmasCopied, hd, ha, hw, ht]

/-! ## The entries after the pages were copied -/

section Pages
variable {s : Machine} {l : List (Vma × Vpn)}

theorem copyOne_pte (hne : src ≠ dst) (p : Vma × Vpn) (mm : MmId) (vpn : Vpn) :
    (copyOne src dst s p).pte mm vpn =
      if vpn = p.2 ∧ (s.pte src p.2).isSome ∧ (mm = src ∨ mm = dst) then
        (s.pte src p.2).map (protect p.1)
      else s.pte mm vpn := by
  cases he : s.pte src p.2 with
  | none => simp [copyOne, he]
  | some e =>
    simp only [copyOne, he, copyPresentPte, protect, map_some, isSome_some, true_and]
    by_cases hvpn : vpn = p.2
    · subst hvpn
      by_cases hdst : mm = dst
      · subst hdst
        split <;> simp [setPte_pte]
      · by_cases hsrc : mm = src
        · subst hsrc
          split
          · simp [setPte_pte, hdst]
          · simp [setPte_pte, hdst, he]
        · split <;> simp [setPte_pte, hdst, hsrc]
    · split <;> simp [setPte_pte, hvpn]

@[simp] theorem protect_pfn (v : Vma) (e : Pte) : (protect v e).pfn = e.pfn := by
  simp only [protect]
  split <;> rfl

theorem foldl_copyOne_of_notMem (hne : src ≠ dst) (mm : MmId) :
    ∀ (l : List (Vma × Vpn)) (s : Machine), vpn ∉ l.map Prod.snd →
      (l.foldl (copyOne src dst) s).pte mm vpn = s.pte mm vpn
  | [], _, _ => rfl
  | p :: l, s, h => by
    rw [map_cons, mem_cons, not_or] at h
    rw [foldl_cons, foldl_copyOne_of_notMem hne mm l _ h.2, copyOne_pte hne]
    simp [h.1]

theorem foldl_copyOne_other (hne : src ≠ dst) (hs : mm ≠ src) (hd : mm ≠ dst)
    (vpn : Vpn) : ∀ (l : List (Vma × Vpn)) (s : Machine),
      (l.foldl (copyOne src dst) s).pte mm vpn = s.pte mm vpn
  | [], _ => rfl
  | p :: l, s => by
    rw [foldl_cons, foldl_copyOne_other hne hs hd vpn l, copyOne_pte hne]
    simp [hs, hd]

theorem foldl_copyOne_of_mem (hne : src ≠ dst) {v : Vma}
    (hmm : mm = src ∨ mm = dst) : ∀ (l : List (Vma × Vpn)) (s : Machine),
      (l.map Prod.snd).Nodup → (v, vpn) ∈ l →
      (l.foldl (copyOne src dst) s).pte mm vpn =
        if (s.pte src vpn).isSome then (s.pte src vpn).map (protect v) else s.pte mm vpn
  | p :: l, s, hnd, hmem => by
    rw [map_cons, nodup_cons] at hnd
    rw [foldl_cons]
    rw [mem_cons] at hmem
    obtain rfl | hmem := hmem
    · rw [foldl_copyOne_of_notMem hne mm l _ hnd.1, copyOne_pte hne]
      simp [hmm]
    · have hvpn : vpn ≠ p.2 := by
        intro h
        exact hnd.1 (h ▸ mem_map_of_mem hmem)
      rw [foldl_copyOne_of_mem hne hmm l _ hnd.2 hmem]
      simp [copyOne_pte hne, hvpn]

theorem copyOne_fields (src dst : MmId) (s : Machine) (p : Vma × Vpn) :
    (copyOne src dst s p).mem = s.mem ∧ (copyOne src dst s p).vmas = s.vmas ∧
    (copyOne src dst s p).pageArray = s.pageArray ∧
    (copyOne src dst s p).refcount = s.refcount ∧ (copyOne src dst s p).live = s.live := by
  cases he : s.pte src p.2 with
  | none => simp [copyOne, he]
  | some e =>
    simp only [copyOne, he, copyPresentPte]
    split <;> simp

theorem foldl_copyOne_fields : ∀ (l : List (Vma × Vpn)) (s : Machine),
    (l.foldl (copyOne src dst) s).mem = s.mem ∧ (l.foldl (copyOne src dst) s).vmas = s.vmas ∧
    (l.foldl (copyOne src dst) s).pageArray = s.pageArray ∧
    (l.foldl (copyOne src dst) s).refcount = s.refcount ∧
    (l.foldl (copyOne src dst) s).live = s.live
  | [], _ => ⟨rfl, rfl, rfl, rfl, rfl⟩
  | p :: l, s => by
    obtain ⟨h₁, h₂, h₃, h₄, h₅⟩ := foldl_copyOne_fields l (copyOne src dst s p)
    obtain ⟨k₁, k₂, k₃, k₄, k₅⟩ := copyOne_fields src dst s p
    exact ⟨h₁.trans k₁, h₂.trans k₂, h₃.trans k₃, h₄.trans k₄, h₅.trans k₅⟩

end Pages

/-! ## The pages of mappings that do not overlap -/

theorem mem_pages {v : Vma} {vpn : Nat} : vpn ∈ v.pages ↔ v.contains vpn = true := by
  have hrange : vpn ∈ v.pages ↔ v.start ≤ vpn ∧ vpn < v.start + (v.stop - v.start) := mem_range'_1
  rw [hrange, Vma.contains, decide_eq_true_eq]
  omega

theorem nodup_pages (v : Vma) : v.pages.Nodup := nodup_range'

theorem mem_pagesCopied {p : Vma × Vpn} : ∀ {vs : List Vma}, p ∈ pagesCopied a vs →
    p.1 ∈ vs ∧ p.1.contains p.2 = true ∧ p.1.dontCopy = false ∧ p.1.wipeOnFork = false
  | v :: rest, h => by
    have hrest : p ∈ pagesCopied a rest →
        p.1 ∈ v :: rest ∧ p.1.contains p.2 = true ∧ p.1.dontCopy = false ∧
          p.1.wipeOnFork = false := by
      intro h
      obtain ⟨hmem, hp⟩ := mem_pagesCopied h
      exact ⟨mem_cons_of_mem _ hmem, hp⟩
    rw [pagesCopied] at h
    cases hd : v.dontCopy with
    | true => exact hrest (by simpa [hd] using h)
    | false =>
      cases ha : a.vma v with
      | false => simp [hd, ha] at h
      | true =>
        cases hw : v.wipeOnFork with
        | true => exact hrest (by simpa [hd, ha, hw] using h)
        | false =>
          -- the page is one of `v`, or of a mapping that follows
          have hv : p ∈ v.pages.map (v, ·) →
              p.1 ∈ v :: rest ∧ p.1.contains p.2 = true ∧ p.1.dontCopy = false ∧
                p.1.wipeOnFork = false := by
            intro h
            obtain ⟨vpn, hvpn, rfl⟩ := mem_map.mp h
            exact ⟨mem_cons_self .., mem_pages.mp hvpn, hd, hw⟩
          simp only [hd, ha, hw, Bool.false_eq_true, if_false, Bool.not_true] at h
          split at h
          · obtain h | h := mem_append.mp h
            · exact hv h
            · exact hrest h
          · apply hv
            obtain ⟨vpn, hvpn, rfl⟩ := mem_map.mp h
            exact mem_map_of_mem ((takeWhile_sublist _).subset hvpn)

theorem nodup_pagesCopied : ∀ {vs : List Vma}, vs.Pairwise Vma.Apart →
    ((pagesCopied a vs).map Prod.snd).Nodup
  | [], _ => nodup_nil
  | v :: rest, h => by
    rw [pairwise_cons] at h
    have ih : ((pagesCopied a rest).map Prod.snd).Nodup := nodup_pagesCopied h.2
    rw [pagesCopied]
    cases hd : v.dontCopy with
    | true => simpa [hd] using ih
    | false =>
      cases ha : a.vma v with
      | false => simp
      | true =>
        cases hw : v.wipeOnFork with
        | true => simpa [hd, ha, hw] using ih
        | false =>
          simp only [Bool.false_eq_true, if_false, Bool.not_true]
          split
          · simp only [List.map_append, List.map_map, comp_def, List.map_id']
            refine List.nodup_append.mpr ⟨nodup_pages v, ih, ?_⟩
            rintro x hx y hy rfl
            obtain ⟨p, hp, rfl⟩ := List.mem_map.mp hy
            obtain ⟨hmem, hcontains, -⟩ := mem_pagesCopied hp
            exact h.1 _ hmem p.2 ⟨mem_pages.mp hx, hcontains⟩
          · simp only [List.map_map, comp_def, List.map_id']
            exact (nodup_pages v).sublist (List.takeWhile_sublist _)

theorem vmasCopied_sublist : ∀ vs : List Vma, (vmasCopied a vs).Sublist vs
  | [] => .refl _
  | v :: rest => by
    have ih := vmasCopied_sublist rest
    rw [vmasCopied]
    split
    · exact ih.cons v
    · split
      · exact nil_sublist _
      · split
        · exact ih.cons_cons v
        · exact (nil_sublist rest).cons_cons v

/-! ## The frames that are used -/

section WellFormed
variable {c : Config} {s s' : Machine}

theorem WellFormed.setPte (h : s.WellFormed c) {e : Pte}
    (he : e.pfn ≤ c.highestMemmapPfn) : (s.setPte mm vpn e).WellFormed c where
  zero := h.zero
  pte mm' vpn' e' he' := by
    rw [setPte_pte] at he'
    split at he'
    · obtain rfl : e = e' := some.inj he'
      exact he
    · exact h.pte mm' vpn' e' he'
  cache := h.cache
  apart := h.apart

theorem WellFormed.fillCache (h : s.WellFormed c) {id i : Nat} {p : Frame}
    (hp : p ≤ c.highestMemmapPfn) : (s.fillCache c id i p).WellFormed c where
  zero := h.zero
  pte := h.pte
  cache id' i' f hf := by
    change ((s.allocPage p).setPageArray id i p).pageArray id' i' = some f at hf
    rw [setPageArray_pageArray] at hf
    split at hf
    · obtain rfl : p = f := some.inj hf
      exact hp
    · exact h.cache id' i' f hf
  apart := h.apart

@[simp] theorem mkPte_pfn (v : Vma) (f : Frame) : (v.mkPte f).pfn = f := rfl

@[simp] theorem maybeMkwrite_pfn (v : Vma) (e : Pte) : (v.maybeMkwrite e).pfn = e.pfn := by
  simp only [Vma.maybeMkwrite]
  split <;> rfl

section

variable (h : s.WellFormed c)
include h

theorem WellFormed.congr (hpte : s'.pte = s.pte) (hvmas : s'.vmas = s.vmas)
    (hpa : s'.pageArray = s.pageArray) : s'.WellFormed c :=
  ⟨h.zero, hpte ▸ h.pte, hpa ▸ h.cache, hvmas ▸ h.apart⟩

theorem WellFormed.allocPage (f : Frame) : (s.allocPage f).WellFormed c := h.congr rfl rfl rfl

theorem WellFormed.folioGet (f : Frame) : (s.folioGet f).WellFormed c := h.congr rfl rfl rfl

theorem WellFormed.folioPut (f : Frame) : (s.folioPut f).WellFormed c := h.congr rfl rfl rfl

theorem WellFormed.setFrame (f : Frame) (bytes : Offset → Byte) :
    (s.setFrame f bytes).WellFormed c :=
  h.congr rfl rfl rfl

theorem WellFormed.fault {vmf : Vmf} (ha : s.AnswersOk c vmf.answers)
    (hcase : FaultCase c s vmf s') : s'.WellFormed c := by
  cases hcase with
  | unchanged => exact h
  | zeroPage => exact h.setPte h.zero
  | newPage f _ _ _ _ hf =>
    exact (h.allocPage f).setPte (by simpa using (ha.folio f hf).inRange)
  | cached id p _ _ _ hp => exact h.setPte (h.cache _ _ p hp)
  | readIn id p _ _ _ _ hp =>
    have hrange := (ha.cachePage p hp).inRange
    exact (h.fillCache hrange).setPte hrange
  | cow id f p _ _ _ _ hf hp =>
    apply WellFormed.folioPut
    apply WellFormed.setPte _ (ha.folio f hf).inRange
    apply WellFormed.setFrame
    exact (h.allocPage f).fillCache (ha.cachePage p hp).inRange
  | copy e f he _ _ _ hf =>
    have hget := (h.folioGet e.pfn).allocPage f
    apply WellFormed.folioPut
    apply WellFormed.folioPut
    apply WellFormed.setPte
    · split
      · exact hget
      · exact hget.setFrame f _
    · simpa using (ha.folio f hf).inRange
  | copyUnknown e f he hgt => exact absurd (h.pte _ _ e he) (Nat.not_le_of_lt hgt)

theorem WellFormed.copyOne (hne : src ≠ dst) (p : Vma × Vpn) :
    (copyOne src dst s p).WellFormed c := by
  obtain ⟨-, hvmas, hcache, -⟩ := copyOne_fields src dst s p
  refine ⟨h.zero, ?_, by rw [hcache]; exact h.cache, by rw [hvmas]; exact h.apart⟩
  intro mm vpn e he
  rw [copyOne_pte hne] at he
  split at he
  · obtain ⟨e', he', rfl⟩ := map_eq_some_iff.mp he
    simpa using h.pte _ _ e' he'
  · exact h.pte mm vpn e he

end

theorem WellFormed.foldl_copyOne (hne : src ≠ dst) : ∀ (l : List (Vma × Vpn)) {s : Machine},
    s.WellFormed c → (l.foldl (Machine.copyOne src dst) s).WellFormed c
  | [], _, h => h
  | p :: l, _, h => WellFormed.foldl_copyOne hne l (h.copyOne hne p)

theorem WellFormed.addVmas (h : s.WellFormed c) (hvmas : s.vmas dst = []) {vs : List Vma}
    (hvs : vs.Pairwise Vma.Apart) : (s.addVmas dst vs).WellFormed c := by
  refine ⟨h.zero, h.pte, h.cache, ?_⟩
  intro mm
  by_cases hmm : mm = dst
  · subst hmm
    simpa [Machine.addVmas, hvmas] using hvs
  · simpa [Machine.addVmas, hmm] using h.apart mm

theorem WellFormed.dupMmap (h : s.WellFormed c) (hne : src ≠ dst) (hu : s.Unused dst) :
    (dupMmap src dst a (s.vmas src) s).2.WellFormed c := by
  rw [dupMmap_eq]
  apply WellFormed.foldl_copyOne hne
  exact h.addVmas hu.vmas ((h.apart src).sublist (vmasCopied_sublist _))

/-- The ways that an access comes back. -/
inductive AccessCase (c : Config) (s : Machine) (mm : MmId) (vpn : Vpn) (off : Offset)
    (ans : Answers) : Access → Result → Machine → Prop
  | load (f : Frame) : s.permits mm vpn .load = some f →
      AccessCase c s mm vpn off ans .load (.loaded (s.mem f off)) s
  | store (f : Frame) (v : Byte) : s.permits mm vpn (.store v) = some f →
      AccessCase c s mm vpn off ans (.store v) .stored (s.storeByte f off v)
  | badArea (acc : Access) : s.permits mm vpn acc = none → s.vmaAt mm vpn = none →
      AccessCase c s mm vpn off ans acc .badArea s
  | fault (acc : Access) (v : Vma) (ret : VmFault) (s' : Machine) :
      s.permits mm vpn acc = none → s.vmaAt mm vpn = some v →
      FaultCase c s ⟨mm, v, vpn, acc.isStore, ans⟩ s' →
      AccessCase c s mm vpn off ans acc (.faulted ret) s'

theorem accessCase_step {off : Offset} {acc : Access} {ans : Answers}
    {r : Result} (h : s.step c (.access mm vpn off acc ans) = some (r, s')) :
    AccessCase c s mm vpn off ans acc r s' := by
  cases hp : s.permits mm vpn acc with
  | some f =>
    cases acc with
    | load =>
      obtain ⟨rfl, rfl⟩ : _ = r ∧ s = s' := by simpa [Machine.step, hp] using h
      exact .load f hp
    | store v =>
      obtain ⟨rfl, rfl⟩ : _ = r ∧ _ = s' := by simpa [Machine.step, hp] using h
      exact .store f v hp
  | none =>
    simp only [Machine.step, hp, Machine.fault] at h
    split at h
    · rename_i hv
      obtain ⟨rfl, rfl⟩ : _ = r ∧ s = s' := by simpa using h
      exact .badArea acc hp hv
    · rename_i v hv
      obtain ⟨⟨ret, s₁⟩, hfault, hr⟩ := map_eq_some_iff.mp h
      obtain ⟨rfl, rfl⟩ : _ = r ∧ s₁ = s' := by simpa using hr
      exact .fault acc v ret _ hp hv (faultCase_handleMmFault hfault)

theorem WellFormed.step (h : s.WellFormed c) {op : Op} {r : Result} (hok : s.Ok c op)
    (hstep : s.step c op = some (r, s')) : s'.WellFormed c := by
  cases op with
  | access mm vpn off acc ans =>
    obtain ⟨-, -, ha⟩ := hok
    cases accessCase_step hstep with
    | load => exact h
    | store => exact h.setFrame _ _
    | badArea => exact h
    | fault acc v ret s' _ _ hcase => exact h.fault ha hcase
  | fork src dst ans =>
    have hdup := h.dupMmap (a := ans) hok.1 hok.2
    obtain ⟨-, rfl⟩ : _ ∧ _ = s' := by simpa [Machine.step] using hstep
    split
    · exact hdup.congr rfl rfl rfl
    · exact hdup
  | reuse f bytes =>
    obtain ⟨-, rfl⟩ : _ ∧ _ = s' := by simpa [Machine.step] using hstep
    exact h.setFrame f bytes

end WellFormed

/-! ## A process with one page -/

def smallConfig : Config := ⟨1, 100, fun _ => 0, fun _ _ => 0⟩

def onePage : Vma where
  start := 0
  stop := 1
  pgoff := 0
  read := true
  write := true
  exec := false
  shared := false
  mayWrite := true
  mayShare := false
  dontCopy := false
  wipeOnFork := false
  backing := .anonymous
  mayWrite_of_write := fun _ _ => rfl

def fresh (fill : Byte) : Machine where
  live mm := mm == 0
  vmas mm := if mm = 0 then [onePage] else []
  pte _ _ := none
  refcount f := if f = 1 then 1 else 0
  mem f _ := if f = 1 then 0 else fill
  pageArray _ _ := none
  points := []

theorem wellFormed_fresh (fill : Byte) : (fresh fill).WellFormed smallConfig where
  zero := by decide
  pte := nofun
  cache := nofun
  apart mm := by
    simp only [fresh]
    split
    · exact pairwise_singleton ..
    · exact List.Pairwise.nil

theorem free_fresh (fill : Byte) {f : Frame} (h2 : f ≠ 1) (h : f ≤ 100) :
    (fresh fill).Free smallConfig f :=
  ⟨h, h2, nofun, nofun⟩

theorem pageSize_pos : 0 < pageSize := by decide

def firstStore : Op := .access 0 0 ⟨0, pageSize_pos⟩ (.store 7) ⟨true, some 5, none⟩

theorem answersOk_firstStore (fill : Byte) :
    (fresh fill).AnswersOk smallConfig ⟨true, some 5, none⟩ := by
  refine ⟨?_, nofun, nofun⟩
  intro f hf
  obtain rfl : 5 = f := some.inj hf
  exact free_fresh fill (by decide) (by decide)

theorem ok_firstStore (fill : Byte) : (fresh fill).Ok smallConfig firstStore :=
  ⟨rfl, ⟨onePage, rfl, rfl⟩, answersOk_firstStore fill⟩

def mapped (fill : Byte) : Machine := ((fresh fill).allocPage 5).setPte 0 0 ⟨5, true, true⟩

theorem step_firstStore (fill : Byte) :
    (fresh fill).step smallConfig firstStore = some (.faulted .ok, mapped fill) := rfl

def firstFork : Op := .fork 0 1 ⟨fun _ => true, fun _ => true⟩

end Machine

end MyOS2.Fault
