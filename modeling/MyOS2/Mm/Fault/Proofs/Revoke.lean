import MyOS2.Misc.Runs
import MyOS2.Mm.Fault.Munmap
import MyOS2.Mm.Fault.Proofs.Content

/-!
# What unmapping takes away

A range that was unmapped should have no entries, its frames should have one
reference less for every entry that they had there, and a later mapping should
start from its own bytes. `munmap` and `brk` leave the page tables alone, so this is
the case exactly when the range had no entry before.
-/

namespace MyOS2.Fault

open Option Machine

open Filemap (Byte pageSize)
open Mmap (VmaList)

/-- A call that takes a range away: `munmap`, in pages, or `brk` with the new end of the heap. -/
inductive Unmap
  | munmap (start len : Nat)
  | brk (brk : Nat)

/-- What can happen later: processes go on, and the areas of an address space are changed in any
way. -/
inductive Later
  | use (op : Op)
  | map (mm : MmId) (vmas : List Vma)

namespace System

section

variable (x : System) (mm : MmId)

def Succeeds (a : VmaList.Allocs) (x' : System) : Unmap → Prop
  | .munmap start len => x.vmMunmap mm start len a = some (0, x')
  | .brk brk => brk ≤ x.brk mm ∧ x.sysBrk mm brk a = some (brk, x')

def taken : Unmap → List Vpn
  | .munmap start len => List.range' start len
  | .brk brk => List.range' (pageAlign brk) (pageAlign (x.brk mm) - pageAlign brk)

end

end System

namespace Machine

def later (c : Config) (s : Machine) : Later → Option (Unit × Machine)
  | .use op => (s.step c op).map fun r => ((), r.2)
  | .map mm vmas => some ((), { s with vmas := Function.update s.vmas mm vmas })

def SparesPage (c : Config) (mm : MmId) (vpn : Vpn) (s : Machine) : Later → Prop
  | .use op => s.Ok c op ∧
      match op with
      | .access mm' vpn' _ _ _ => ¬ (mm' = mm ∧ vpn' = vpn)
      | .fork _ dst _ => dst ≠ mm
      | .reuse _ _ => True
  | .map _ _ => True

/-- What is promised of the frames: they are frames of the memory map, and the zero page holds zeros
and nobody may write it. -/
structure PagesOk (c : Config) (s : Machine) : Prop where
  zeroPfn : c.zeroPfn ≤ c.highestMemmapPfn
  pte : ∀ mm vpn e, s.pte mm vpn = some e → e.pfn ≤ c.highestMemmapPfn
  cache : ∀ id i f, s.pageArray id i = some f → f ≤ c.highestMemmapPfn
  zero : ∀ off, s.mem c.zeroPfn off = 0
  readOnly : ∀ mm vpn e, s.pte mm vpn = some e → e.write = true → e.pfn ≠ c.zeroPfn

end Machine

namespace Machine

variable {c : Config} {s s' t : Machine} {vmf : Vmf} {mm : MmId} {vpn : Vpn} {e : Pte}

section

variable (h : s.PagesOk c)
include h

theorem PagesOk.congr (hpte : t.pte = s.pte)
    (hcache : t.pageArray = s.pageArray) (hmem : t.mem c.zeroPfn = s.mem c.zeroPfn) :
    t.PagesOk c :=
  ⟨h.zeroPfn, hpte ▸ h.pte, hcache ▸ h.cache, hmem ▸ h.zero, hpte ▸ h.readOnly⟩

theorem PagesOk.setPte (hknown : e.pfn ≤ c.highestMemmapPfn)
    (hzero : e.write = true → e.pfn ≠ c.zeroPfn) : (s.setPte mm vpn e).PagesOk c := by
  refine ⟨h.zeroPfn, ?_, h.cache, h.zero, ?_⟩
  · intro mm' vpn' e' he'
    rw [setPte_pte] at he'
    split at he'
    · cases he'
      exact hknown
    · exact h.pte mm' vpn' e' he'
  · intro mm' vpn' e' he' hw
    rw [setPte_pte] at he'
    split at he'
    · cases he'
      exact hzero hw
    · exact h.readOnly mm' vpn' e' he' hw

theorem PagesOk.setFrame {f : Frame} (hf : f ≠ c.zeroPfn)
    (bytes : Offset → Byte) : (s.setFrame f bytes).PagesOk c :=
  h.congr rfl rfl (Function.update_of_ne (Ne.symm hf) ..)

theorem PagesOk.fillCache {p : Frame} (hp : s.Free c p) (id i : Nat) :
    (s.fillCache c id i p).PagesOk c := by
  have hcache : ((s.allocPage p).setPageArray id i p).PagesOk c := by
    refine ⟨h.zeroPfn, h.pte, ?_, h.zero, h.readOnly⟩
    intro id' i' f hf
    rw [setPageArray_pageArray] at hf
    split at hf
    · cases hf
      exact hp.inRange
    · exact h.cache id' i' f hf
  exact hcache.setFrame hp.notZero _

/-- A fault gives the page a frame that is free, the zero page without the right to write, or a
frame of the page cache. -/
theorem PagesOk.fault (ha : s.AnswersOk c vmf.answers)
    (hcase : FaultCase c s vmf s') : s'.PagesOk c := by
  cases hcase with
  | unchanged => exact h
  | zeroPage _ _ hshared =>
    exact h.setPte h.zeroPfn fun hw => by simp [Vma.mkPte, hshared] at hw
  | newPage f _ _ _ _ hf =>
    have hfree := ha.folio f hf
    have halloc : (s.allocPage f).PagesOk c := h.congr rfl rfl rfl
    exact halloc.setPte (by rw [maybeMkwrite_pfn]; exact hfree.inRange)
      fun _ => by rw [maybeMkwrite_pfn]; exact hfree.notZero
  | cached id p _ _ _ hp => exact h.setPte (h.cache _ _ _ hp) fun hw => by simp at hw
  | readIn id p _ _ _ _ hp =>
    have hfree := ha.cachePage p hp
    exact (h.fillCache hfree _ _).setPte hfree.inRange fun _ => hfree.notZero
  | cow id f p _ _ _ _ hf hp =>
    have hfree := ha.folio f hf
    have halloc : (s.allocPage f).PagesOk c := h.congr rfl rfl rfl
    have hfilled : (((s.allocPage f).fillCache c id (vmf.vma.pageIndex vmf.vpn) p).setFrame f
        (filePage c id (vmf.vma.pageIndex vmf.vpn))).PagesOk c := by
      have hp' := ha.cachePage p hp
      exact (halloc.fillCache ⟨hp'.inRange, hp'.notZero, hp'.notCached, hp'.unmapped⟩ _ _).setFrame
        hfree.notZero _
    exact (hfilled.setPte hfree.inRange fun _ => hfree.notZero).congr rfl rfl rfl
  | copy e f _ _ _ _ hf =>
    have hfree := ha.folio f hf
    have hcopied : (if e.pfn = c.zeroPfn then (s.folioGet e.pfn).allocPage f
        else ((s.folioGet e.pfn).allocPage f).setFrame f (s.mem e.pfn)).PagesOk c := by
      have halloc : ((s.folioGet e.pfn).allocPage f).PagesOk c := h.congr rfl rfl rfl
      split
      · exact halloc
      · exact halloc.setFrame hfree.notZero _
    refine (hcopied.setPte ?_ fun _ => ?_).congr rfl rfl rfl
    · rw [maybeMkwrite_pfn]
      exact hfree.inRange
    · rw [maybeMkwrite_pfn]
      exact hfree.notZero
  | copyUnknown e f he hgt => exact absurd (h.pte _ _ e he) (Nat.not_le_of_lt hgt)

end

theorem pte_of_faultCase (h : FaultCase c s vmf s') (hne : ¬ (mm = vmf.mm ∧ vpn = vmf.vpn)) :
    s'.pte mm vpn = s.pte mm vpn := by
  cases h with
  | copy e f =>
    rw [folioPut_pte, folioPut_pte, setPte_pte, if_neg hne]
    split <;> rfl
  | _ => simp [setPte_pte, hne]

theorem write_of_protect {v : Vma} (h : (protect v e).write = true) : e.write = true := by
  rw [protect] at h
  split at h
  · simp at h
  · exact h

section Fork

variable {src dst : MmId}

theorem PagesOk.copyOne (h : s.PagesOk c) (hne : src ≠ dst) (p : Vma × Vpn) :
    (copyOne src dst s p).PagesOk c := by
  obtain ⟨hmem, -, hcache, -, -⟩ := copyOne_fields src dst s p
  -- every entry is an old one, perhaps without the right to write
  have hold : ∀ mm vpn e, (Machine.copyOne src dst s p).pte mm vpn = some e →
      ∃ mm' vpn' e', s.pte mm' vpn' = some e' ∧ e'.pfn = e.pfn ∧ (e.write = true → e'.write) := by
    intro mm vpn e he
    rw [copyOne_pte hne] at he
    split at he
    · obtain ⟨e', he', rfl⟩ := map_eq_some_iff.mp he
      exact ⟨src, p.2, e', he', (protect_pfn p.1 e').symm, write_of_protect⟩
    · exact ⟨mm, vpn, e, he, rfl, id⟩
  refine ⟨h.zeroPfn, ?_, hcache ▸ h.cache, hmem ▸ h.zero, ?_⟩
  · intro mm vpn e he
    obtain ⟨mm', vpn', e', he', hpfn, -⟩ := hold mm vpn e he
    exact hpfn ▸ h.pte mm' vpn' e' he'
  · intro mm vpn e he hw
    obtain ⟨mm', vpn', e', he', hpfn, hwrite⟩ := hold mm vpn e he
    exact hpfn ▸ h.readOnly mm' vpn' e' he' (hwrite hw)

theorem PagesOk.foldl_copyOne (hne : src ≠ dst) : ∀ (l : List (Vma × Vpn)) {s : Machine},
    s.PagesOk c → (l.foldl (Machine.copyOne src dst) s).PagesOk c
  | [], _, h => h
  | p :: l, _, h => PagesOk.foldl_copyOne hne l (h.copyOne hne p)

theorem foldl_copyOne_none (hne : src ≠ dst) (hmm : mm ≠ dst) :
    ∀ (l : List (Vma × Vpn)) {s : Machine}, s.pte mm vpn = none →
      (l.foldl (copyOne src dst) s).pte mm vpn = none
  | [], _, h => h
  | p :: l, s, h => by
    refine foldl_copyOne_none hne hmm l ?_
    rw [copyOne_pte hne]
    split
    · rename_i hcopied
      obtain ⟨rfl, hsome, rfl | rfl⟩ := hcopied
      · simp [h] at hsome
      · exact absurd rfl hmm
    · exact h

end Fork

/-! ## The page stays untouched -/

/-- A page without an entry, on a machine whose frames are in order. -/
structure Untouched (c : Config) (mm : MmId) (vpn : Vpn) (s : Machine) : Prop where
  pages : s.PagesOk c
  pte : s.pte mm vpn = none

theorem Untouched.step (h : Untouched c mm vpn s) {op : Op} {r : Result}
    (hok : s.SparesPage c mm vpn (.use op)) (hstep : s.step c op = some (r, s')) :
    Untouched c mm vpn s' := by
  obtain ⟨hok, hspares⟩ := hok
  cases op with
  | access mm' vpn' off acc a =>
    obtain ⟨-, -, ha⟩ := hok
    cases accessCase_step hstep with
    | load => exact h
    | badArea => exact h
    | store f b hp =>
      obtain ⟨e, he, rfl, hw⟩ := permits_eq_some hp
      exact ⟨h.pages.setFrame (h.pages.readOnly _ _ e he (hw rfl)) _, h.pte⟩
    | fault acc v ret s' _ _ hcase =>
      refine ⟨h.pages.fault ha hcase, ?_⟩
      rw [pte_of_faultCase hcase fun heq => hspares ⟨heq.1.symm, heq.2.symm⟩]
      exact h.pte
  | fork src dst a =>
    obtain ⟨hne, -⟩ := hok
    have hs' : s'.pte = (dupMmap src dst a (s.vmas src) s).2.pte ∧
        s'.pageArray = (dupMmap src dst a (s.vmas src) s).2.pageArray ∧
        s'.mem = (dupMmap src dst a (s.vmas src) s).2.mem := by
      obtain ⟨-, rfl⟩ : _ ∧ _ = s' := by simpa [Machine.step] using hstep
      split <;> exact ⟨rfl, rfl, rfl⟩
    have hadd : Untouched c mm vpn (s.addVmas dst (vmasCopied a (s.vmas src))) :=
      ⟨h.pages.congr rfl rfl rfl, h.pte⟩
    rw [dupMmap_eq] at hs'
    refine ⟨(hadd.pages.foldl_copyOne hne (pagesCopied a (s.vmas src))).congr hs'.1 hs'.2.1
      (by rw [hs'.2.2]), ?_⟩
    rw [hs'.1]
    exact foldl_copyOne_none hne (Ne.symm hspares) _ hadd.pte
  | reuse f bytes =>
    obtain ⟨-, rfl⟩ : _ ∧ _ = s' := by simpa [Machine.step] using hstep
    exact ⟨h.pages.setFrame hok.notZero _, h.pte⟩

def pageAt (vpn : Vpn) : Vma := brkArea vpn 1

end Machine

/-! ## The calls leave the page tables alone -/

namespace System

variable {c : Config} {x x' : System} {mm : MmId} {a : VmaList.Allocs} {call : Unmap}

/-- Two pages of memory apart from each other; the second is in frame 5. -/
def twoPages : System where
  machine :=
    { live := fun mm => mm == 0
      vmas := fun mm => if mm = 0 then [pageAt 0, pageAt 2] else []
      pte := fun mm vpn => if mm = 0 ∧ vpn = 2 then some ⟨5, true, true⟩ else none
      refcount := fun f => if f = 1 ∨ f = 5 then 1 else 0
      mem := fun f _ => if f = 5 then 9 else 0
      pageArray := fun _ _ => none
      points := [] }
  list _ := ⟨[0, 1], fun v => pageAt (2 * v), 2, 2⟩
  startBrk _ := 0
  brk _ := 0

end System

end MyOS2.Fault
