import MyOS2.Misc.Runs
import MyOS2.Mm.Fault.Proofs.Content
import Mathlib.Data.List.Pairwise

/-!
# Private memory and `dup_mmap`

Each process sees a flat memory of its own: a store changes one byte of it, a
fork gives the child a copy of its parent's, and nothing else changes it. The
machine shares frames between the processes; it shows each of them its flat
memory. A mapping with `VM_WIPEONFORK` is empty in the child.
-/

namespace MyOS2.Fault

open Function Option
open Filemap (Byte pageSize)

/-- The bytes that each process expects in its private mappings. -/
abbrev Flat := MmId → Vpn → Offset → Byte

theorem Vma.Apart.symm {v w : Vma} (h : v.Apart w) : w.Apart v := by
  intro vpn hboth
  exact h vpn ⟨hboth.2, hboth.1⟩

instance : Std.Symm Vma.Apart := ⟨fun _ _ => Vma.Apart.symm⟩

namespace Machine

/-! ## The child of a fork -/

def copied (s : Machine) (src dst : MmId) (a : ForkAnswers) : Machine :=
  (pagesCopied a (s.vmas src)).foldl (copyOne src dst) (s.addVmas dst (vmasCopied a (s.vmas src)))

section Mappings
variable {c : Config} {s : Machine} {src dst mm : MmId} {a : ForkAnswers} {v w : Vma} {vpn : Vpn}

theorem vmaAt_mem (h : s.vmaAt mm vpn = some v) : v ∈ s.vmas mm ∧ v.contains vpn = true :=
  ⟨List.mem_of_find?_eq_some h, List.find?_some (p := fun w : Vma => w.contains vpn) h⟩

theorem WellFormed.eq_of_contains (h : s.WellFormed c) (hv : v ∈ s.vmas mm) (hw : w ∈ s.vmas mm)
    (hvp : v.contains vpn = true) (hwp : w.contains vpn = true) : v = w := by
  by_contra hne
  exact (h.apart mm).forall hv hw hne vpn ⟨hvp, hwp⟩

theorem WellFormed.vmaAt_eq (h : s.WellFormed c) (hv : v ∈ s.vmas mm)
    (hvp : v.contains vpn = true) : s.vmaAt mm vpn = some v := by
  cases hat : s.vmaAt mm vpn with
  | none => exact absurd hvp (by simpa using List.find?_eq_none.mp hat v hv)
  | some w =>
    obtain ⟨hw, hwp⟩ := vmaAt_mem hat
    rw [h.eq_of_contains hv hw hvp hwp]

theorem mem_vmasCopied {vs : List Vma} (h : v ∈ vmasCopied a vs) : v ∈ vs ∧ v.dontCopy = false := by
  have hsub : ∀ vs, (vmasCopied a vs).Sublist (vs.filter fun v => !v.dontCopy) := by
    intro vs
    induction vs with
    | nil => exact .slnil
    | cons w rest ih =>
      rw [vmasCopied]
      cases hd : w.dontCopy with
      | true => simpa [hd] using ih
      | false =>
        rw [List.filter_cons_of_pos (by simp [hd]), if_neg (by simp)]
        split
        · exact List.nil_sublist _
        · split
          · exact ih.cons_cons w
          · exact (List.nil_sublist _).cons_cons w
  simpa using (hsub vs).subset h

/-- A fork for which nothing was refused copies every page that is to be copied. -/
theorem mem_pagesCopied_of_forkOk : ∀ {vs : List Vma}, forkOk a vs = true → v ∈ vs →
    v.dontCopy = false → v.wipeOnFork = false → v.contains vpn = true →
    (v, vpn) ∈ pagesCopied a vs
  | w :: rest, hok, hv, hd, hwipe, hvp => by
    rw [forkOk, List.all_cons, Bool.and_eq_true] at hok
    have hrest : v ∈ rest → (v, vpn) ∈ pagesCopied a rest := fun hv =>
      mem_pagesCopied_of_forkOk hok.2 hv hd hwipe hvp
    rw [pagesCopied]
    obtain rfl | hv := List.mem_cons.mp hv
    · have hv : a.vma v = true ∧ v.pages.all a.tables = true := by
        simpa [hd, hwipe] using hok.1
      simp only [hd, hv.1, hwipe, hv.2, Bool.false_eq_true, if_false, Bool.not_true, if_true]
      exact List.mem_append_left _ (List.mem_map_of_mem (mem_pages.mpr hvp))
    · have hw := hok.1
      cases hdw : w.dontCopy with
      | true => exact hrest hv
      | false =>
        have hw : a.vma w = true ∧ (w.wipeOnFork = true ∨ w.pages.all a.tables = true) := by
          simpa [hdw] using hw
        simp only [hw.1, Bool.false_eq_true, if_false, Bool.not_true]
        split
        · exact hrest hv
        · rename_i hwipe'
          rw [if_pos (hw.2.resolve_left hwipe')]
          exact List.mem_append_right _ (hrest hv)

end Mappings

theorem addVmas_pte (s : Machine) (dst : MmId) (vs : List Vma) : (s.addVmas dst vs).pte = s.pte :=
  rfl

section Fork
variable {c : Config} {s : Machine} {src dst mm : MmId} {a : ForkAnswers} {v : Vma} {vpn : Vpn}
  {e : Pte} {off : Offset}

theorem copied_mem : (s.copied src dst a).mem = s.mem := (foldl_copyOne_fields _ _).1

theorem copied_pageArray : (s.copied src dst a).pageArray = s.pageArray :=
  (foldl_copyOne_fields _ _).2.2.1

theorem copied_live : (s.copied src dst a).live = s.live := (foldl_copyOne_fields _ _).2.2.2.2

theorem copied_vmas :
    (s.copied src dst a).vmas = update s.vmas dst (s.vmas dst ++ vmasCopied a (s.vmas src)) :=
  (foldl_copyOne_fields _ _).2.1

theorem vmaAt_copied (hmm : mm ≠ dst) : (s.copied src dst a).vmaAt mm vpn = s.vmaAt mm vpn := by
  rw [vmaAt, vmaAt, copied_vmas, update_of_ne hmm]

theorem vmaAt_child (hwf : s.WellFormed c) (hu : s.Unused dst)
    (h : (s.copied src dst a).vmaAt dst vpn = some v) :
    s.vmaAt src vpn = some v ∧ v ∈ s.vmas src ∧ v.contains vpn = true ∧ v.dontCopy = false := by
  obtain ⟨hmem, hvp⟩ := vmaAt_mem h
  rw [copied_vmas, update_self, hu.vmas, List.nil_append] at hmem
  obtain ⟨hsrc, hd⟩ := mem_vmasCopied hmem
  exact ⟨hwf.vmaAt_eq hsrc hvp, hsrc, hvp, hd⟩

theorem vmaAt_of_mem_pagesCopied (hwf : s.WellFormed c)
    (h : (v, vpn) ∈ pagesCopied a (s.vmas src)) : s.vmaAt src vpn = some v :=
  hwf.vmaAt_eq (mem_pagesCopied h).1 (mem_pagesCopied h).2.1

variable (hwf : s.WellFormed c) (hne : src ≠ dst) (hu : s.Unused dst)

include hwf hne hu

theorem copied_pte_of_mem (hmm : mm = src ∨ mm = dst)
    (hp : (v, vpn) ∈ pagesCopied a (s.vmas src)) :
    (s.copied src dst a).pte mm vpn = (s.pte src vpn).map (protect v) := by
  rw [copied, foldl_copyOne_of_mem hne hmm _ _ (nodup_pagesCopied (hwf.apart src)) hp, addVmas_pte]
  cases hsrc : s.pte src vpn with
  | some e => rfl
  | none =>
    obtain rfl | rfl := hmm
    · exact hsrc
    · exact hu.pte vpn

omit hwf hu in
theorem copied_pte_of_notMem
    (h : ¬ ((mm = src ∨ mm = dst) ∧ ∃ v, (v, vpn) ∈ pagesCopied a (s.vmas src))) :
    (s.copied src dst a).pte mm vpn = s.pte mm vpn := by
  by_cases hmm : mm = src ∨ mm = dst
  · have hmem : vpn ∉ (pagesCopied a (s.vmas src)).map Prod.snd := by
      intro hmem
      obtain ⟨⟨v, vpn⟩, hp, rfl⟩ := List.mem_map.mp hmem
      exact h ⟨hmm, v, hp⟩
    rw [copied, foldl_copyOne_of_notMem hne mm _ _ hmem, addVmas_pte]
  · rw [not_or] at hmm
    rw [copied, foldl_copyOne_other hne hmm.1 hmm.2, addVmas_pte]

theorem copied_pte_cases (he : (s.copied src dst a).pte mm vpn = some e) :
    ((mm = src ∨ mm = dst) ∧ ∃ v e', (v, vpn) ∈ pagesCopied a (s.vmas src) ∧
      s.pte src vpn = some e' ∧ e = protect v e') ∨
    (mm ≠ dst ∧ (mm = src → ∀ v, (v, vpn) ∉ pagesCopied a (s.vmas src)) ∧
      s.pte mm vpn = some e) := by
  by_cases h : (mm = src ∨ mm = dst) ∧ ∃ v, (v, vpn) ∈ pagesCopied a (s.vmas src)
  · obtain ⟨hmm, v, hp⟩ := h
    rw [copied_pte_of_mem hwf hne hu hmm hp] at he
    obtain ⟨e', hsrc, rfl⟩ := map_eq_some_iff.mp he
    exact .inl ⟨hmm, v, e', hp, hsrc, rfl⟩
  · rw [copied_pte_of_notMem hne h] at he
    refine .inr ⟨?_, fun hmm v hp => h ⟨.inl hmm, v, hp⟩, he⟩
    rintro rfl
    exact absurd ((hu.pte vpn).symm.trans he) nofun

theorem copied_pfn_of_mem (hmm : mm = src ∨ mm = dst)
    (hp : (v, vpn) ∈ pagesCopied a (s.vmas src)) :
    ((s.copied src dst a).pte mm vpn).map Pte.pfn = (s.pte src vpn).map Pte.pfn := by
  rw [copied_pte_of_mem hwf hne hu hmm hp, map_map]
  congr 1
  funext e
  exact protect_pfn v e

theorem copied_pfn (hmm : mm ≠ dst) :
    ((s.copied src dst a).pte mm vpn).map Pte.pfn = (s.pte mm vpn).map Pte.pfn := by
  by_cases h : (mm = src ∨ mm = dst) ∧ ∃ v, (v, vpn) ∈ pagesCopied a (s.vmas src)
  · obtain ⟨hpair, v, hp⟩ := h
    rw [copied_pfn_of_mem hwf hne hu hpair hp, hpair.resolve_right hmm]
  · rw [copied_pte_of_notMem hne h]

omit hwf hne hu in
theorem Sealed.protect_write (h : s.Sealed c) (hv : s.vmaAt src vpn = some v)
    (hs : v.shared = false) (he : s.pte src vpn = some e) : (protect v e).write = false := by
  cases hw : e.write with
  | false => simp [protect, hw]
  | true =>
    have hcow : v.isCowMapping = true := by
      simp [Vma.isCowMapping, hs, v.mayWrite_of_write hs (h.writable src vpn v e hv hs he hw)]
    simp [protect, hw, hcow]

/-- An entry of a private mapping that may be written after the fork was there before, and was not
copied. -/
theorem Sealed.writable_copied (h : s.Sealed c) (hv : (s.copied src dst a).vmaAt mm vpn = some v) (hs : v.shared = false)
    (he : (s.copied src dst a).pte mm vpn = some e) (hw : e.write = true) :
    mm ≠ dst ∧ (mm = src → ∀ v, (v, vpn) ∉ pagesCopied a (s.vmas src)) ∧
      s.pte mm vpn = some e ∧ s.vmaAt mm vpn = some v := by
  obtain ⟨hpair, v', e', hp, hsrc, rfl⟩ | ⟨hmm, hnot, hold⟩ := copied_pte_cases hwf hne hu he
  · have hv' := vmaAt_of_mem_pagesCopied hwf hp
    have hv : s.vmaAt src vpn = some v := by
      obtain rfl | rfl := hpair
      · rwa [vmaAt_copied hne] at hv
      · exact (vmaAt_child hwf hu hv).1
    obtain rfl : v' = v := some.inj (hv'.symm.trans hv)
    exact absurd (hw.symm.trans (h.protect_write hv hs hsrc)) nofun
  · rw [vmaAt_copied hmm] at hv
    exact ⟨hmm, hnot, hold, hv⟩

theorem Sealed.copied (h : s.Sealed c) : (s.copied src dst a).Sealed c where
  zero := by
    rw [copied_mem]
    exact h.zero
  writable mm vpn v e hv hs he hw := by
    obtain ⟨-, -, he, hv⟩ := h.writable_copied hwf hne hu hv hs he hw
    exact h.writable mm vpn v e hv hs he hw
  notZero mm vpn v e hv hs he hw := by
    obtain ⟨-, -, he, hv⟩ := h.writable_copied hwf hne hu hv hs he hw
    exact h.notZero mm vpn v e hv hs he hw
  notCached mm vpn v e hv hs he hw := by
    obtain ⟨-, -, he, hv⟩ := h.writable_copied hwf hne hu hv hs he hw
    rw [copied_pageArray]
    exact h.notCached mm vpn v e hv hs he hw
  alone mm vpn v e hv hs he hw mm₂ vpn₂ e₂ he₂ hpfn := by
    obtain ⟨-, hnot, he, hv⟩ := h.writable_copied hwf hne hu hv hs he hw
    have halone := h.alone mm vpn v e hv hs he hw
    obtain ⟨-, v', e', hp, hsrc, rfl⟩ | ⟨-, -, hold⟩ := copied_pte_cases hwf hne hu he₂
    · -- the frame of a page that was copied is used by the parent
      rw [protect_pfn] at hpfn
      obtain ⟨hmm, rfl⟩ := halone src vpn₂ e' hsrc hpfn
      exact absurd hp (hnot hmm.symm v')
    · exact halone mm₂ vpn₂ e₂ hold hpfn

/-! ## The bytes after a fork -/

omit hwf hne hu in
/-- What is found at an address depends on the frame of the page, on the bytes and on the page
cache. -/
theorem content_congr {s' : Machine} {mm' : MmId}
    (hpfn : (s'.pte mm' vpn).map Pte.pfn = (s.pte mm vpn).map Pte.pfn) (hmem : s'.mem = s.mem)
    (hpa : s'.pageArray = s.pageArray) :
    s'.content c mm' v vpn off = s.content c mm v vpn off := by
  cases he : s.pte mm vpn with
  | none =>
    rw [he, map_none, map_eq_none_iff] at hpfn
    rw [content_of_none he, content_of_none hpfn, freshByte, freshByte, hmem, hpa]
  | some e =>
    rw [he, map_some] at hpfn
    obtain ⟨e', he', hpfn⟩ := map_eq_some_iff.mp hpfn
    rw [content_of_some he, content_of_some he', hpfn, hmem]

theorem content_copied (hmm : mm ≠ dst) :
    (s.copied src dst a).content c mm v vpn off = s.content c mm v vpn off :=
  content_congr (copied_pfn hwf hne hu hmm) copied_mem copied_pageArray

theorem content_child (hok : forkOk a (s.vmas src) = true) (hv : (s.copied src dst a).vmaAt dst vpn = some v) :
    (s.copied src dst a).content c dst v vpn off =
      if v.wipeOnFork then s.freshByte c v vpn off else s.content c src v vpn off := by
  obtain ⟨hat, hmem, hvp, hd⟩ := vmaAt_child hwf hu hv
  cases hwipe : v.wipeOnFork with
  | true =>
    have hnone : (s.copied src dst a).pte dst vpn = none := by
      cases he : (s.copied src dst a).pte dst vpn with
      | none => rfl
      | some e =>
        obtain ⟨-, v', -, hp, -⟩ | ⟨hself, -⟩ := copied_pte_cases hwf hne hu he
        · -- only pages of other mappings were copied
          obtain rfl : v' = v :=
            hwf.eq_of_contains (mem_pagesCopied hp).1 hmem (mem_pagesCopied hp).2.1 hvp
          exact absurd (hwipe.symm.trans (mem_pagesCopied hp).2.2.2) nofun
        · exact absurd rfl hself
    rw [if_pos rfl, content_of_none hnone, freshByte, freshByte, copied_mem, copied_pageArray]
  | false =>
    rw [if_neg (by simp)]
    have hp := mem_pagesCopied_of_forkOk hok hmem hd hwipe hvp
    exact content_congr (copied_pfn_of_mem hwf hne hu (.inr rfl) hp) copied_mem copied_pageArray

end Fork

/-! ## Flat memories -/

section Flat
variable (c : Config)

/-- The memory of a new process: that of its parent, but for the mappings that are wiped. -/
def inherited (s : Machine) (flat : Flat) (src : MmId) : Vpn → Offset → Byte := fun vpn off =>
  match s.vmaAt src vpn with
  | none => flat src vpn off
  | some v => if v.wipeOnFork then s.freshByte c v vpn off else flat src vpn off

def flatStep (s : Machine) (flat : Flat) : Op → Result → Flat
  | .access mm vpn off (.store b) _, .stored => fun mm' vpn' off' =>
    if mm' = mm ∧ vpn' = vpn ∧ off' = off then b else flat mm' vpn' off'
  | .fork src dst _, .forked ret =>
    if ret = 0 then update flat dst (s.inherited c flat src) else flat
  | _, _ => flat

def stepFlat (x : Machine × Flat) (op : Op) : Option (Result × (Machine × Flat)) :=
  (x.1.step c op).map fun r => (r.1, (r.2, x.1.flatStep c x.2 op r.1))

/-- Each process finds its flat memory in its private mappings. -/
def Agrees (s : Machine) (flat : Flat) : Prop :=
  ∀ mm vpn v off, s.live mm = true → s.vmaAt mm vpn = some v → v.shared = false →
    s.content c mm v vpn off = flat mm vpn off

def LoadsFlat (flat : Flat) : Op → Result → Prop
  | .access mm vpn off .load _, .loaded b => b = flat mm vpn off
  | _, _ => True

def ProcessOk (s : Machine) (op : Op) : Prop :=
  s.Ok c op ∧
  match op with
  | .fork src _ _ => s.live src = true
  | _ => True

/-- Machine and flat memory agree at the start. -/
structure FlatStart (x : Machine × Flat) : Prop where
  wellFormed : x.1.WellFormed c
  isSealed : x.1.Sealed c
  agrees : Agrees c x.1 x.2

end Flat

section Step
variable {c : Config} {s s' : Machine} {flat flat' : Flat} {op : Op} {r : Result}

theorem stepFlat_eq_some (h : stepFlat c (s, flat) op = some (r, (s', flat'))) :
    s.step c op = some (r, s') ∧ flat' = s.flatStep c flat op r := by
  obtain ⟨⟨r₁, s₁⟩, hstep, heq⟩ := map_eq_some_iff.mp h
  obtain ⟨rfl, rfl, rfl⟩ : r₁ = r ∧ s₁ = s' ∧ _ = flat' := by simpa using heq
  exact ⟨hstep, rfl⟩

section

variable {src dst : MmId} {a : ForkAnswers}

/-- A call of `dup_mmap`: it succeeds when nothing is refused, and the child then runs. -/
theorem step_fork (h : s.step c (.fork src dst a) = some (r, s')) :
    r = .forked (if forkOk a (s.vmas src) then 0 else enomem) ∧
    s' = if forkOk a (s.vmas src) then
        { s.copied src dst a with live := update s.live dst true }
      else s.copied src dst a := by
  simp only [Machine.step, dupMmap_eq] at h
  cases h
  refine ⟨rfl, ?_⟩
  cases forkOk a (s.vmas src) with
  | true =>
    have hlive : (s.copied src dst a).live = s.live := copied_live
    rw [← hlive]
    rfl
  | false => rfl

section

variable (hwf : s.WellFormed c) (hok : s.Ok c (.fork src dst a))
  (hstep : s.step c (.fork src dst a) = some (r, s'))
include hwf hok hstep

theorem Sealed.fork (h : s.Sealed c) : s'.Sealed c := by
  have hcopied : (s.copied src dst a).Sealed c := h.copied hwf hok.1 hok.2
  rw [(step_fork hstep).2]
  split
  · exact hcopied.congr rfl rfl rfl rfl
  · exact hcopied

theorem Agrees.fork (h : Agrees c s flat) (hlive : s.live src = true) :
    Agrees c s' (s.flatStep c flat (.fork src dst a) r) := by
  obtain ⟨rfl, rfl⟩ := step_fork hstep
  obtain ⟨hne, hu⟩ := hok
  cases hfork : forkOk a (s.vmas src) with
  | false =>
    intro mm vpn v off hl hv hs
    rw [if_neg (by simp)] at hl hv
    rw [copied_live] at hl
    have hmm : mm ≠ dst := by
      rintro rfl
      exact absurd (hu.live.symm.trans hl) nofun
    rw [vmaAt_copied hmm] at hv
    show (s.copied src dst a).content c mm v vpn off = flat mm vpn off
    rw [content_copied hwf hne hu hmm]
    exact h mm vpn v off hl hv hs
  | true =>
    intro mm vpn v off hl hv hs
    show (s.copied src dst a).content c mm v vpn off =
      update flat dst (s.inherited c flat src) mm vpn off
    change (s.copied src dst a).vmaAt mm vpn = some v at hv
    by_cases hmm : mm = dst
    · subst hmm
      obtain ⟨hat, -⟩ := vmaAt_child hwf hu hv
      rw [content_child hwf hne hu hfork hv, update_self, inherited, hat]
      dsimp only
      split
      · rfl
      · exact h src vpn v off hlive hat hs
    · rw [vmaAt_copied hmm] at hv
      have hl : s.live mm = true := by
        change update s.live dst true mm = true at hl
        rwa [update_of_ne hmm] at hl
      rw [content_copied hwf hne hu hmm, update_of_ne hmm]
      exact h mm vpn v off hl hv hs

end

end

theorem Agrees.store (h : Agrees c s flat) (hsealed : s.Sealed c) {mm : MmId} {vpn : Vpn}
    {off : Offset} {b : Byte} {a : Answers} {v : Vma} {f : Frame} (hv : s.vmaAt mm vpn = some v)
    (hs : v.shared = false) (hp : s.permits mm vpn (.store b) = some f) :
    Agrees c (s.storeByte f off b)
      (s.flatStep c flat (.access mm vpn off (.store b) a) .stored) := by
  obtain ⟨e, he, rfl, hw⟩ := permits_eq_some hp
  intro mm' vpn' v' off' hl hv' hs'
  have hold := h mm' vpn' v' off' hl hv' hs'
  show _ = if mm' = mm ∧ vpn' = vpn ∧ off' = off then b else flat mm' vpn' off'
  by_cases hpage : mm' = mm ∧ vpn' = vpn
  · obtain ⟨rfl, rfl⟩ := hpage
    rw [content_store_self he, hold]
    simp
  · rw [content_store_other hsealed hv hs he (hw rfl) hpage, hold, if_neg]
    exact fun hsame => hpage ⟨hsame.1, hsame.2.1⟩

theorem Agrees.fault_iff (h : Agrees c s flat) (hsealed : s.Sealed c) (hwf : s.WellFormed c)
    {vmf : Vmf} (ha : s.AnswersOk c vmf.answers) (hlive : s.live vmf.mm = true)
    (hv : s.vmaAt vmf.mm vmf.vpn = some vmf.vma) (hs : vmf.vma.shared = false)
    (hcase : FaultCase c s vmf s') : Agrees c s' flat ↔ s.FaultClean c vmf := by
  obtain ⟨hvmas, hlive'⟩ := hcase.fixed
  have hat := vmaAt_congr hvmas
  constructor
  · intro hagrees
    refine faultClean_of_content hsealed.zero hwf hs hcase ?_
    intro off
    rw [h _ _ _ off hlive hv hs]
    exact hagrees _ _ _ off (hlive' ▸ hlive) (hat ▸ hv) hs
  · intro hclean mm vpn v off hl hv' hs'
    rw [hat] at hv'
    rw [content_fault hsealed.zero hwf ha hcase hclean off]
    · exact h mm vpn v off (hlive' ▸ hl) hv' hs'
    · rintro rfl rfl
      exact some.inj (hv'.symm.trans hv)

variable (h : FlatStart c (s, flat)) (hok : s.ProcessOk c op)
  (hstep : stepFlat c (s, flat) op = some (r, (s', flat')))
include h hok hstep

theorem FlatStart.right_iff : (Agrees c s' flat' ∧ LoadsFlat flat op r) ↔ s.FaultsClean c op := by
  obtain ⟨hmachine, rfl⟩ := stepFlat_eq_some hstep
  cases op with
  | fork src dst a =>
    exact iff_of_true ⟨h.agrees.fork h.wellFormed hok.1 hmachine hok.2, trivial⟩ trivial
  | reuse f bytes =>
    obtain ⟨rfl, rfl⟩ : _ = r ∧ _ = s' := by simpa [Machine.step] using hmachine
    refine iff_of_true ⟨?_, trivial⟩ trivial
    intro mm vpn v off hl hv hs
    rw [content_setFrame hok.1]
    exact h.agrees mm vpn v off hl hv hs
  | access mm vpn off acc a =>
    obtain ⟨⟨hlive, ⟨v, hv, hs⟩, ha⟩, -⟩ := hok
    cases accessCase_step hmachine with
    | load f hp =>
      refine iff_of_true ⟨h.agrees, ?_⟩ fun hno => absurd (hp.symm.trans hno) (some_ne_none _)
      obtain ⟨e, he, rfl, -⟩ := permits_eq_some hp
      exact (content_of_some he).symm.trans (h.agrees mm vpn v off hlive hv hs)
    | store f b hp =>
      exact iff_of_true ⟨h.agrees.store h.isSealed hv hs hp, trivial⟩
        fun hno => absurd (hp.symm.trans hno) (some_ne_none _)
    | badArea acc _ hno => exact absurd (hv.symm.trans hno) (some_ne_none _)
    | fault acc v' ret s' hp hv' hcase =>
      obtain rfl : v = v' := some.inj (hv.symm.trans hv')
      have hiff := h.agrees.fault_iff h.isSealed h.wellFormed ha hlive hv hs hcase
      constructor
      · rintro ⟨hagrees, -⟩ _ v' hv'
        obtain rfl : v = v' := some.inj (hv.symm.trans hv')
        refine hiff.mp ?_
        cases acc <;> exact hagrees
      · intro hclean
        have hagrees := hiff.mpr (hclean hp v hv)
        refine ⟨?_, by cases acc <;> trivial⟩
        cases acc <;> exact hagrees

theorem FlatStart.step (hclean : s.FaultsClean c op) : FlatStart c (s', flat') := by
  have hagrees := ((h.right_iff hok hstep).mpr hclean).1
  obtain ⟨hmachine, -⟩ := stepFlat_eq_some hstep
  refine ⟨h.wellFormed.step hok.1 hmachine, ?_, hagrees⟩
  cases op with
  | fork src dst a => exact h.isSealed.fork h.wellFormed hok.1 hmachine
  | reuse f bytes =>
    obtain ⟨-, rfl⟩ : _ ∧ _ = s' := by simpa [Machine.step] using hmachine
    exact h.isSealed.setFrame hok.1 bytes
  | access mm vpn off acc a =>
    obtain ⟨⟨-, ⟨v, hv, hs⟩, ha⟩, -⟩ := hok
    exact h.isSealed.access h.wellFormed ha hv hs (accessCase_step hmachine)

end Step

section Run
variable {c : Config} {x : Machine × Flat}

/-- In every run of clean faults, forks and reuses of frames each process finds its flat memory; and
the next call shows it again, and loads from it, if and only if its fault is clean. -/
theorem agrees_iff_faultsClean
    (h : Reachable (stepFlat c) (fun x op => x.1.ProcessOk c op ∧ x.1.FaultsClean c op)
      (FlatStart c) x) :
    Agrees c x.1 x.2 ∧
    ∀ op r x', x.1.ProcessOk c op → stepFlat c x op = some (r, x') →
      ((Agrees c x'.1 x'.2 ∧ LoadsFlat x.2 op r) ↔ x.1.FaultsClean c op) := by
  have hinv : FlatStart c x := by
    refine h.invariant (fun _ hx => hx) ?_
    intro x op r x' hx hop hstep
    exact hx.step hop.1 hstep hop.2
  exact ⟨hinv.agrees, fun op r x' hok hstep => hinv.right_iff hok hstep⟩

end Run

theorem flatStart_mapped (b : Byte) : FlatStart smallConfig (mapped b, fun _ _ _ => b) where
  wellFormed := (wellFormed_fresh b).step (ok_firstStore b) (step_firstStore b)
  isSealed :=
    (sealed_fresh b).access (wellFormed_fresh b) (answersOk_firstStore b) (v := onePage) rfl rfl
      (accessCase_step (step_firstStore b))
  agrees mm vpn v off hl hv _ := by
    have hmm : mm = 0 := by simpa [mapped, fresh] using hl
    subst hmm
    have hvpn : vpn = 0 := by
      obtain ⟨hmem, hvp⟩ := vmaAt_mem hv
      obtain rfl : v = onePage := List.mem_singleton.mp hmem
      simpa [Vma.contains, onePage] using hvp
    subst hvpn
    rfl

theorem processOk_firstFork (b : Byte) : (mapped b).ProcessOk smallConfig firstFork :=
  ⟨⟨by decide, rfl, rfl, fun _ => rfl⟩, rfl⟩

/-- After a fork parent and child both find the byte that was there. -/
theorem agrees_iff_faultsClean_fork :
    ∃ s, (mapped 7).step smallConfig firstFork = some (.forked 0, s) ∧ s.live 1 = true ∧
      s.vmaAt 1 0 = some onePage ∧
      Agrees smallConfig s (update (fun _ _ _ => 7) 1
        ((mapped 7).inherited smallConfig (fun _ _ _ => 7) 0)) := by
  have hrun := agrees_iff_faultsClean (.start (flatStart_mapped 7))
  refine ⟨_, rfl, rfl, rfl, ?_⟩
  exact ((hrun.2 firstFork _ _ (processOk_firstFork 7) rfl).mpr trivial).1

def wipePage : Vma := { onePage with wipeOnFork := true }

def wiped : Machine := { mapped 7 with vmas := fun mm => if mm = 0 then [wipePage] else [] }

def childLoad : Op := .access 1 0 ⟨0, pageSize_pos⟩ .load ⟨true, none, none⟩

/-- The page holds 7 at the fork, and the child reads 0. -/
theorem wiped_child_reads_zero :
    ∃ s₁ s₂, wiped.WellFormed smallConfig ∧ wiped.Sealed smallConfig ∧
      wiped.vmaAt 0 0 = some wipePage ∧ wipePage.shared = false ∧
      wiped.content smallConfig 0 wipePage 0 ⟨0, by decide⟩ = 7 ∧
      wiped.ProcessOk smallConfig firstFork ∧
      wiped.step smallConfig firstFork = some (.forked 0, s₁) ∧
      s₁.ProcessOk smallConfig childLoad ∧
      s₁.step smallConfig childLoad = some (.faulted .ok, s₂) ∧
      s₂.ProcessOk smallConfig childLoad ∧
      s₂.step smallConfig childLoad = some (.loaded 0, s₂) := by
  have hwf : wiped.WellFormed smallConfig := by
    obtain ⟨hzero, hpte, hcache, -⟩ := (flatStart_mapped 7).wellFormed
    refine ⟨hzero, hpte, hcache, ?_⟩
    intro mm
    show (if mm = 0 then [wipePage] else []).Pairwise Vma.Apart
    split
    · exact List.pairwise_singleton ..
    · exact List.Pairwise.nil
  have hentry : ∀ {mm vpn e}, wiped.pte mm vpn = some e →
      mm = 0 ∧ vpn = 0 ∧ e = ⟨5, true, true⟩ := by
    intro mm vpn e he
    change ((fresh 7).allocPage 5 |>.setPte 0 0 ⟨5, true, true⟩).pte mm vpn = some e at he
    rw [setPte_pte] at he
    split at he
    · rename_i hsame
      exact ⟨hsame.1, hsame.2, (some.inj he).symm⟩
    · exact absurd he nofun
  have hsealed : wiped.Sealed smallConfig := by
    refine ⟨fun _ => rfl, ?_, ?_, fun _ _ _ _ _ _ _ _ _ _ => nofun, ?_⟩
    · intro mm vpn v e hv _ he _
      obtain ⟨rfl, rfl, -⟩ := hentry he
      obtain rfl : wipePage = v := some.inj hv
      rfl
    · intro mm vpn v e _ _ he _
      rw [(hentry he).2.2]
      decide
    · intro mm vpn v e _ _ he _ mm' vpn' e' he' _
      obtain ⟨rfl, rfl, -⟩ := hentry he
      exact ⟨(hentry he').1, (hentry he').2.1⟩
  refine ⟨_, _, hwf, hsealed, rfl, rfl, rfl, ⟨⟨by decide, rfl, rfl, fun _ => rfl⟩, rfl⟩, rfl,
    ⟨⟨rfl, ⟨wipePage, rfl, rfl⟩, nofun, nofun, nofun⟩, trivial⟩, rfl,
    ⟨⟨rfl, ⟨wipePage, rfl, rfl⟩, nofun, nofun, nofun⟩, trivial⟩, rfl⟩

end Machine

end MyOS2.Fault
