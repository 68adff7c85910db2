import MyOS2.Misc.Runs
import MyOS2.Mm.Fault.Proofs.FaultCases
import Mathlib.Data.Set.Card

/-!
# References and mappings of a frame

A frame has to have at least as many references as entries map it, and it may be
given up only when none does. A fork takes no references, and neither does a
fault for the zero page or for a page of the page cache.
-/

namespace MyOS2.Fault

open Function
open Filemap (Byte pageSize)

/-! ## Counting entries -/

def mappings (pte : MmId → Vpn → Option Pte) (f : Frame) : Set (MmId × Vpn) :=
  {p | ∃ e, pte p.1 p.2 = some e ∧ e.pfn = f}

/-- Every frame that is mapped has a reference for each entry. -/
def Counted (pte : MmId → Vpn → Option Pte) (refcount : Frame → Int) : Prop :=
  ∀ f, (mappings pte f).Nonempty → (mappings pte f).encard ≤ (refcount f).toNat

/-- The references are enough, and a frame that is given up is mapped nowhere, is not the zero page
and is not in the page cache. -/
structure Point.Sound (c : Config) (pt : Point) : Prop where
  counted : Counted pt.pte pt.refcount
  handed : ∀ f, pt.handed = some f →
    mappings pt.pte f = ∅ ∧ f ≠ c.zeroPfn ∧ ∀ id i, pt.pageArray id i ≠ some f

section Mappings
variable {pte : MmId → Vpn → Option Pte} {refcount refcount' : Frame → Int} {s : Machine}
  {mm : MmId} {vpn : Vpn} {e : Pte} {f g : Frame}

theorem mappings_setPte :
    mappings (s.setPte mm vpn e).pte f =
      if e.pfn = f then insert (mm, vpn) (mappings s.pte f)
      else mappings s.pte f \ {(mm, vpn)} := by
  ext ⟨mm', vpn'⟩
  show (∃ e', (s.setPte mm vpn e).pte mm' vpn' = some e' ∧ e'.pfn = f) ↔ _
  rw [Machine.setPte_pte]
  by_cases heq : mm' = mm ∧ vpn' = vpn
  · obtain ⟨rfl, rfl⟩ := heq
    by_cases hf : e.pfn = f
    · simp [hf]
    · simp [hf]
  · have hne : (mm', vpn') ≠ (mm, vpn) := by simpa using heq
    rw [if_neg heq]
    by_cases hf : e.pfn = f
    · simp [hf, hne, mappings]
    · simp [hf, hne, mappings]

theorem notMem_mappings (h : s.pte mm vpn = none) : (mm, vpn) ∉ mappings s.pte f := by
  rintro ⟨e, he, -⟩
  exact absurd (h ▸ he) nofun

theorem mem_mappings (h : s.pte mm vpn = some e) : (mm, vpn) ∈ mappings s.pte e.pfn := ⟨e, h, rfl⟩

theorem Counted.mono (h : Counted pte refcount)
    (hle : ∀ f, (mappings pte f).Nonempty → refcount f ≤ refcount' f) :
    Counted pte refcount' := by
  intro f hf
  have := Int.toNat_le_toNat (hle f hf)
  exact (h f hf).trans (by exact_mod_cast this)

theorem Counted.set (h : Counted pte refcount) (hf : mappings pte f = ∅) (n : Int) :
    Counted pte (update refcount f n) := by
  apply h.mono
  intro g hg
  have hne : g ≠ f := by
    rintro rfl
    simp [hf] at hg
  rw [update_of_ne hne]

theorem Counted.get (h : Counted pte refcount) (f : Frame) :
    Counted pte (update refcount f (refcount f + 1)) := by
  apply h.mono
  intro g _
  by_cases hg : g = f
  · subst hg
    simp
  · rw [update_of_ne hg]

theorem Counted.subset {pte' : MmId → Vpn → Option Pte} (h : Counted pte' refcount)
    (hsub : ∀ f, mappings pte f ⊆ mappings pte' f) : Counted pte refcount := by
  intro f hf
  exact (Set.encard_le_encard (hsub f)).trans (h f (hf.mono (hsub f)))

theorem Counted.one_le (h : Counted s.pte s.refcount) (he : s.pte mm vpn = some e) :
    1 ≤ s.refcount e.pfn := by
  have hmem := mem_mappings he
  have hcount := h e.pfn ⟨_, hmem⟩
  have hone := (Set.one_le_encard_iff_nonempty.mpr ⟨_, hmem⟩).trans hcount
  have : 1 ≤ (s.refcount e.pfn).toNat := by exact_mod_cast hone
  omega

def HasRoom (pte : MmId → Vpn → Option Pte) (refcount : Frame → Int) (f : Frame) : Prop :=
  (mappings pte f).encard + 1 ≤ (refcount f).toNat

theorem counted_setPte_iff (h : Counted s.pte s.refcount) (hnone : s.pte mm vpn = none) :
    Counted (s.setPte mm vpn e).pte s.refcount ↔ HasRoom s.pte s.refcount e.pfn := by
  have hnew : mappings (s.setPte mm vpn e).pte e.pfn = insert (mm, vpn) (mappings s.pte e.pfn) := by
    rw [mappings_setPte, if_pos rfl]
  have hcard : (mappings (s.setPte mm vpn e).pte e.pfn).encard =
      (mappings s.pte e.pfn).encard + 1 := by
    rw [hnew, Set.encard_insert_of_notMem (notMem_mappings hnone)]
  constructor
  · intro hc
    have := hc e.pfn ⟨(mm, vpn), by rw [hnew]; exact Set.mem_insert ..⟩
    rwa [hcard] at this
  · intro hroom f hf
    by_cases hfe : e.pfn = f
    · subst hfe
      rwa [hcard]
    · have hsame : mappings (s.setPte mm vpn e).pte f = mappings s.pte f := by
        rw [mappings_setPte, if_neg hfe, Set.sdiff_singleton_eq_self (notMem_mappings hnone)]
      rw [hsame] at hf ⊢
      exact h f hf

theorem hasRoom_of_unmapped (hf : mappings pte f = ∅) (h : refcount f = 1) :
    HasRoom pte refcount f := by
  rw [HasRoom, hf, h]
  simp

end Mappings

variable {e' : Pte} {p : Vma × Vpn}

namespace Machine

/-! ## The points of a step -/

def AllSound (c : Config) (s : Machine) : Prop := ∀ pt ∈ s.points, pt.Sound c

section Points
variable {c : Config} {s : Machine} {f : Frame}

theorem allSound_point (handed : Option Frame) :
    (s.point handed).AllSound c ↔
      Point.Sound c ⟨s.pte, s.refcount, s.pageArray, handed⟩ ∧ s.AllSound c :=
  List.forall_mem_cons

theorem sound_none {pte : MmId → Vpn → Option Pte} {refcount : Frame → Int}
    {pageArray : Nat → Nat → Option Frame} :
    Point.Sound c ⟨pte, refcount, pageArray, none⟩ ↔ Counted pte refcount :=
  ⟨fun h => h.counted, fun h => ⟨h, nofun⟩⟩

theorem allSound_setPte (mm : MmId) (vpn : Vpn) (e : Pte) :
    (s.setPte mm vpn e).AllSound c ↔ Counted (s.setPte mm vpn e).pte s.refcount ∧ s.AllSound c := by
  rw [setPte, allSound_point, sound_none]
  rfl

theorem allSound_allocPage :
    (s.allocPage f).AllSound c ↔ Counted s.pte (s.allocPage f).refcount ∧ s.AllSound c := by
  rw [allocPage, allSound_point, sound_none]
  rfl

theorem allSound_folioGet :
    (s.folioGet f).AllSound c ↔ Counted s.pte (s.folioGet f).refcount ∧ s.AllSound c := by
  rw [folioGet, allSound_point, sound_none]
  rfl

theorem allSound_folioPut :
    (s.folioPut f).AllSound c ↔
      (Counted s.pte (s.folioPut f).refcount ∧
        (s.refcount f = 1 →
          mappings s.pte f = ∅ ∧ f ≠ c.zeroPfn ∧ ∀ id i, s.pageArray id i ≠ some f)) ∧
      s.AllSound c := by
  rw [folioPut, allSound_point]
  refine and_congr_left fun _ => ⟨fun h => ⟨h.counted, ?_⟩, fun h => ⟨h.1, ?_⟩⟩
  · intro hone
    exact h.handed f (if_pos (by omega))
  · intro g hg
    split at hg
    · obtain rfl : f = g := Option.some.inj hg
      exact h.2 (by omega)
    · exact absurd hg nofun

end Points

/-! ## Faults -/

/-- The fault leaves enough references: for the zero page or a page of the page cache one more entry
is covered, no page of a file is written before it is read, and no copy drops the last reference of
these pages. -/
def FaultKeeps (c : Config) (s : Machine) (vmf : Vmf) : Prop :=
  vmf.answers.tables = true →
    match s.pte vmf.mm vmf.vpn with
    | none =>
      match vmf.vma.backing with
      | .anonymous => vmf.write = false → HasRoom s.pte s.refcount c.zeroPfn
      | .file id => vmf.write = false ∧
          ∀ p, s.pageArray id (vmf.vma.pageIndex vmf.vpn) = some p → HasRoom s.pte s.refcount p
    | some e => vmf.write = true → e.write = false → s.refcount e.pfn = 1 →
        e.pfn ≠ c.zeroPfn ∧ ∀ id i, s.pageArray id i ≠ some e.pfn

/-- The frames that are handed out have no reference. -/
def Unreferenced (s : Machine) (a : Answers) : Prop :=
  (∀ f, a.folio = some f → s.refcount f = 0) ∧ ∀ f, a.cachePage = some f → s.refcount f = 0

section Fault
variable {c : Config} {s s' : Machine} {vmf : Vmf} {mm : MmId} {vpn : Vpn} {e : Pte} {f : Frame}

theorem Free.mappings_eq (h : s.Free c f) : mappings s.pte f = ∅ := by
  ext ⟨mm, vpn⟩
  simp only [Set.mem_empty_iff_false, iff_false]
  rintro ⟨e, he, rfl⟩
  exact h.unmapped mm vpn e he rfl

theorem allSound_newPage (hcount : Counted s.pte s.refcount) (hs : s.AllSound c)
    (hf : s.Free c f) (hzero : s.refcount f = 0) (hnone : s.pte mm vpn = none)
    (he : e.pfn = f) : ((s.allocPage f).setPte mm vpn e).AllSound c := by
  have halloc : Counted (s.allocPage f).pte (s.allocPage f).refcount := hcount.set hf.mappings_eq _
  rw [allSound_setPte, allSound_allocPage]
  refine ⟨(counted_setPte_iff halloc hnone).mpr ?_, halloc, hs⟩
  subst he
  exact hasRoom_of_unmapped hf.mappings_eq (by simp [hzero])

theorem le_pred_of_add_one_le {a : ℕ∞} {n : ℕ} (h : a + 1 ≤ n) : a ≤ (n - 1 : ℕ) := by
  have hfin : a ≠ ⊤ := by
    rintro rfl
    simp at h
  lift a to ℕ using hfin
  norm_cast at h ⊢
  omega

theorem counted_moved {refcount : Frame → Int} {g : Frame} (hcount : Counted s.pte s.refcount)
    (hpte : s.pte mm vpn = some e) (hg : mappings s.pte g = ∅) (he' : e'.pfn = g)
    (hnew : 1 ≤ refcount g) (hold : s.refcount e.pfn - 1 ≤ refcount e.pfn)
    (hother : ∀ f, f ≠ g → f ≠ e.pfn → refcount f = s.refcount f) :
    Counted (s.setPte mm vpn e').pte refcount := by
  intro f hf
  by_cases hfg : f = g
  · subst hfg
    rw [mappings_setPte, if_pos he', hg]
    simp only [insert_empty_eq, Set.encard_singleton]
    have : 1 ≤ (refcount f).toNat := by omega
    exact_mod_cast this
  · have hmap : mappings (s.setPte mm vpn e').pte f = mappings s.pte f \ {(mm, vpn)} := by
      rw [mappings_setPte, if_neg fun h => hfg (h.symm.trans he')]
    rw [hmap] at hf ⊢
    by_cases hfe : f = e.pfn
    · subst hfe
      have hmem := mem_mappings hpte
      have hle := hcount e.pfn ⟨_, hmem⟩
      rw [← Set.encard_sdiff_singleton_add_one hmem] at hle
      refine (le_pred_of_add_one_le hle).trans ?_
      have : (s.refcount e.pfn).toNat - 1 ≤ (refcount e.pfn).toNat := by omega
      exact_mod_cast this
    · rw [hother f hfg hfe]
      have hnonempty := hf.mono Set.sdiff_subset
      exact (Set.encard_le_encard Set.sdiff_subset).trans (hcount f hnonempty)

/-- The references of `wp_page_copy`: `t` is the state in which the new frame is ready. -/
theorem allSound_copy {t : Machine} {g : Frame} (hcount : Counted s.pte s.refcount)
    (hpte : s.pte mm vpn = some e) (hg : s.Free c g) (he' : e'.pfn = g)
    (htpte : t.pte = s.pte) (htpa : t.pageArray = s.pageArray)
    (htrc : t.refcount = update (update s.refcount e.pfn
      (s.refcount e.pfn + 1)) g 1) (ht : t.AllSound c) :
    (((t.setPte mm vpn e').folioPut e.pfn).folioPut e.pfn).AllSound c ↔
      (s.refcount e.pfn = 1 → e.pfn ≠ c.zeroPfn ∧ ∀ id i, s.pageArray id i ≠ some e.pfn) := by
  have hne : e.pfn ≠ g := hg.unmapped mm vpn e hpte
  have hone := hcount.one_le hpte
  have hsame : (t.setPte mm vpn e').pte = (s.setPte mm vpn e').pte := by
    funext mm' vpn'
    rw [setPte_pte, setPte_pte, htpte]
  -- the counts at the three points with the new entry
  have hmoved : ∀ refcount : Frame → Int, 1 ≤ refcount g →
      s.refcount e.pfn - 1 ≤ refcount e.pfn →
      (∀ f, f ≠ g → f ≠ e.pfn → refcount f = s.refcount f) →
      Counted (t.setPte mm vpn e').pte refcount := by
    intro refcount h1 h2 h3
    rw [hsame]
    exact counted_moved hcount hpte hg.mappings_eq he' h1 h2 h3
  rw [allSound_folioPut, allSound_folioPut, allSound_setPte]
  have hc1 : Counted (t.setPte mm vpn e').pte t.refcount := by
    apply hmoved
    · simp [htrc]
    · rw [htrc, update_of_ne hne, update_self]
      omega
    · intro f hfg hfe
      simp [htrc, hfg, hfe]
  have hc2 : Counted (t.setPte mm vpn e').pte ((t.setPte mm vpn e').folioPut e.pfn).refcount := by
    apply hmoved
    · simp [htrc, hne.symm]
    · simp [htrc, hne]
    · intro f hfg hfe
      simp [htrc, hfg, hfe]
  have hc3 : Counted (t.setPte mm vpn e').pte
      (((t.setPte mm vpn e').folioPut e.pfn).folioPut e.pfn).refcount := by
    apply hmoved
    · simp [htrc, hne.symm]
    · simp [htrc, hne]
    · intro f hfg hfe
      simp [htrc, hfg, hfe]
  have hnotyet : (t.setPte mm vpn e').refcount e.pfn ≠ 1 := by
    simp only [setPte_refcount, htrc, update_of_ne hne, update_self]
    omega
  have hlast : ((t.setPte mm vpn e').folioPut e.pfn).refcount e.pfn = s.refcount e.pfn := by
    simp [htrc, hne]
  have hpa : (t.setPte mm vpn e').pageArray = s.pageArray := htpa
  constructor
  · rintro ⟨⟨-, hlastput⟩, -⟩ hrc
    rw [hlast] at hlastput
    have := (hlastput hrc).2
    rwa [folioPut_pageArray, hpa] at this
  · intro hkept
    refine ⟨⟨hc3, ?_⟩, ⟨hc2, fun h => absurd h hnotyet⟩, hc1, ht⟩
    intro hrc
    rw [hlast] at hrc
    rw [folioPut_pageArray, hpa]
    refine ⟨?_, hkept hrc⟩
    -- one reference, so the entry that was changed was the only one
    rw [folioPut_pte, hsame, mappings_setPte, if_neg fun h => hne (h.symm.trans he')]
    have hmem := mem_mappings hpte
    have hle := hcount e.pfn ⟨_, hmem⟩
    rw [← Set.encard_sdiff_singleton_add_one hmem, hrc] at hle
    have hzero := le_pred_of_add_one_le hle
    simpa using hzero

theorem allSound_fault_iff (hwf : s.WellFormed c) (hcount : Counted s.pte s.refcount)
    (hs : s.AllSound c) (ha : s.AnswersOk c vmf.answers) (hu : s.Unreferenced vmf.answers)
    (hshared : vmf.vma.shared = false) (hcase : FaultCase c s vmf s') :
    s'.AllSound c ↔ s.FaultKeeps c vmf := by
  cases hcase with
  | unchanged hwhy =>
    refine iff_of_true hs ?_
    intro htables
    obtain hno | hsh | ⟨e, he, hwrite⟩ := hwhy
    · exact absurd (htables.symm.trans hno) nofun
    · exact absurd (hsh.symm.trans hshared) nofun
    · simp only [he]
      intro hw hnw
      exact absurd ((hwrite hw).symm.trans hnw) nofun
  | zeroPage hnone hanon _ hread htables =>
    rw [allSound_setPte, counted_setPte_iff hcount hnone, and_iff_left hs]
    simp only [FaultKeeps, hnone, hanon, hread, htables, mkPte_pfn, true_implies]
  | newPage f hnone hanon _ hwrite hf htables =>
    have hfree := ha.folio f hf
    refine iff_of_true (allSound_newPage hcount hs hfree (hu.1 f hf) hnone (by simp)) ?_
    intro _
    simp [hnone, hanon, hwrite]
  | cached id p hnone hfile hread hp htables =>
    rw [allSound_setPte, counted_setPte_iff hcount hnone, and_iff_left hs]
    simp [FaultKeeps, hnone, hfile, hread, htables, hp]
  | readIn id p hnone hfile hread hp hpage htables =>
    have hfree := ha.cachePage p hpage
    have hnew := allSound_newPage (e := vmf.vma.mkPte p) hcount hs hfree (hu.2 p hpage) hnone rfl
    refine iff_of_true ?_ ?_
    · -- the page cache is changed between the two points
      rw [allSound_setPte, allSound_allocPage] at hnew
      rw [allSound_setPte]
      exact ⟨hnew.1, allSound_allocPage.mpr hnew.2⟩
    · intro _
      simp [hnone, hfile, hread, hp]
  | cow id f p hnone hfile _ hwrite hf hpage htables =>
    refine iff_of_false ?_ ?_
    · -- the reference that is dropped is the one of the page cache
      rw [allSound_folioPut]
      rintro ⟨⟨-, hhanded⟩, -⟩
      have hfp : p ≠ f := fun h => ha.ne f hf (h ▸ hpage)
      have hone : ((((s.allocPage f).fillCache c id (vmf.vma.pageIndex vmf.vpn) p).setFrame f
          (filePage c id (vmf.vma.pageIndex vmf.vpn))).setPte vmf.mm vmf.vpn
          (vmf.vma.mkPte f)).refcount p = 1 := by
        simp [Machine.fillCache, hfp, hu.2 p hpage]
      refine (hhanded hone).2.2 id (vmf.vma.pageIndex vmf.vpn) ?_
      show (((s.allocPage f).allocPage p).setPageArray id _ p).pageArray id _ = some p
      rw [setPageArray_pageArray, if_pos ⟨rfl, rfl⟩]
    · intro hkeeps
      have := hkeeps htables
      simp [hnone, hfile, hwrite] at this
  | copy e f he _ hwrite hnw hf htables _ =>
    have hfree := ha.folio f hf
    have hne : e.pfn ≠ f := hfree.unmapped _ _ e he
    have hready : ((s.folioGet e.pfn).allocPage f).AllSound c := by
      rw [allSound_allocPage, allSound_folioGet]
      have hget := hcount.get e.pfn
      exact ⟨hget.set hfree.mappings_eq _, hget, hs⟩
    rw [allSound_copy hcount he hfree (by simp : (vmf.vma.maybeMkwrite (vmf.vma.mkPte f)).pfn = f)]
    · simp [FaultKeeps, he, hwrite, hnw, htables]
    · split <;> rfl
    · split <;> rfl
    · have hrc : ((s.folioGet e.pfn).allocPage f).refcount =
          update (update s.refcount e.pfn (s.refcount e.pfn + 1)) f 1 := by
        simp [hne.symm, hu.1 f hf]
      split <;> exact hrc
    · split
      · exact hready
      · exact hready
  | copyUnknown e f he hgt => exact absurd (hwf.pte _ _ e he) (Nat.not_le_of_lt hgt)

theorem counted_of_allSound (hcount : Counted s.pte s.refcount) (hcase : FaultCase c s vmf s')
    (hs : s'.AllSound c) : Counted s'.pte s'.refcount := by
  cases hcase with
  | unchanged => exact hcount
  | zeroPage | newPage | cached | readIn | copyUnknown => exact ((allSound_setPte ..).mp hs).1
  | cow | copy => exact (allSound_folioPut.mp hs).1.1

end Fault

/-! ## Forks -/

def copies (s : Machine) (src : MmId) (a : ForkAnswers) (f : Frame) : Set Vpn :=
  {vpn | vpn ∈ (pagesCopied a (s.vmas src)).map Prod.snd ∧
    ∃ e, s.pte src vpn = some e ∧ e.pfn = f}

section Fork
variable {c : Config} {s : Machine} {src dst : MmId} {l : List (Vma × Vpn)} {f : Frame}

theorem mappings_subset_copyOne (hne : src ≠ dst) (hnone : s.pte dst p.2 = none) :
    mappings s.pte f ⊆ mappings (copyOne src dst s p).pte f := by
  rintro ⟨mm, vpn⟩ ⟨e, he, hf⟩
  show ∃ e', (copyOne src dst s p).pte mm vpn = some e' ∧ e'.pfn = f
  rw [copyOne_pte hne]
  split
  · rename_i hcopied
    obtain ⟨rfl, -, hmm⟩ := hcopied
    obtain rfl | rfl := hmm
    · exact ⟨protect p.1 e, by rw [he]; rfl, by simpa using hf⟩
    · exact absurd (hnone ▸ he) nofun
  · exact ⟨e, he, hf⟩

theorem copyOne_pte_none (hne : src ≠ dst) {q : Vma × Vpn} (hpq : q.2 ≠ p.2)
    (hnone : s.pte dst q.2 = none) : (copyOne src dst s p).pte dst q.2 = none := by
  rw [copyOne_pte hne, if_neg fun h => hpq h.1]
  exact hnone

theorem mappings_subset_foldl (hne : src ≠ dst) : ∀ (l : List (Vma × Vpn)) (s : Machine),
    (l.map Prod.snd).Nodup → (∀ p ∈ l, s.pte dst p.2 = none) →
    mappings s.pte f ⊆ mappings (l.foldl (copyOne src dst) s).pte f
  | [], _, _, _ => subset_rfl
  | p :: l, s, hnd, hnone => by
    rw [List.map_cons, List.nodup_cons] at hnd
    refine (mappings_subset_copyOne hne (hnone p (List.mem_cons_self ..))).trans
      (mappings_subset_foldl hne l _ hnd.2 ?_)
    intro q hq
    have hqp : q.2 ≠ p.2 := fun h => hnd.1 (h ▸ List.mem_map_of_mem hq)
    exact copyOne_pte_none hne hqp (hnone q (List.mem_cons_of_mem _ hq))

theorem copyOne_cases (src dst : MmId) (s : Machine) (p : Vma × Vpn) :
    copyOne src dst s p = s ∨
    ∃ e, s.pte src p.2 = some e ∧
      (copyOne src dst s p = s.setPte dst p.2 e ∨
        ∃ e', e'.pfn = e.pfn ∧ copyOne src dst s p = (s.setPte src p.2 e').setPte dst p.2 e') := by
  cases he : s.pte src p.2 with
  | none => exact .inl (by simp [copyOne, he])
  | some e =>
    refine .inr ⟨e, rfl, ?_⟩
    by_cases hcow : (p.1.isCowMapping && e.write) = true
    · exact .inr ⟨{ e with write := false }, rfl, by simp only [copyOne, he, copyPresentPte, if_pos hcow]⟩
    · exact .inl (by simp only [copyOne, he, copyPresentPte, if_neg hcow])

theorem allSound_of_copyOne (h : (copyOne src dst s p).AllSound c) : s.AllSound c := by
  obtain heq | ⟨e, -, heq | ⟨e', -, heq⟩⟩ := copyOne_cases src dst s p
  · rwa [heq] at h
  · rw [heq, allSound_setPte] at h
    exact h.2
  · rw [heq, allSound_setPte, allSound_setPte] at h
    exact h.2.2

theorem allSound_of_foldl : ∀ (l : List (Vma × Vpn)) (s : Machine),
    (l.foldl (copyOne src dst) s).AllSound c → s.AllSound c
  | [], _, h => h
  | _ :: l, _, h => allSound_of_copyOne (allSound_of_foldl l _ h)

theorem counted_of_allSound_copyOne (hcount : Counted s.pte s.refcount)
    (h : (copyOne src dst s p).AllSound c) :
    Counted (copyOne src dst s p).pte s.refcount := by
  obtain heq | ⟨e, -, heq | ⟨e', -, heq⟩⟩ := copyOne_cases src dst s p
  · rwa [heq]
  · rw [heq, allSound_setPte] at h
    rw [heq]
    exact h.1
  · rw [heq, allSound_setPte] at h
    rw [heq]
    exact h.1

theorem mappings_setPte_same {mm : MmId} {vpn : Vpn} {e : Pte} (he : s.pte mm vpn = some e)
    (hpfn : e'.pfn = e.pfn) : mappings (s.setPte mm vpn e').pte f = mappings s.pte f := by
  rw [mappings_setPte]
  split
  · rename_i hf
    exact Set.insert_eq_of_mem ⟨e, he, hpfn.symm.trans hf⟩
  · rename_i hf
    refine Set.sdiff_singleton_eq_self ?_
    rintro ⟨e₂, he₂, hf₂⟩
    obtain rfl : e = e₂ := Option.some.inj (he.symm.trans he₂)
    exact hf (hpfn.trans hf₂)

theorem allSound_copyOne (hs : s.AllSound c) (hcount : Counted s.pte s.refcount)
    (h : Counted (copyOne src dst s p).pte s.refcount) : (copyOne src dst s p).AllSound c := by
  obtain heq | ⟨e, he, heq | ⟨e', he', heq⟩⟩ := copyOne_cases src dst s p
  · rwa [heq]
  · rw [heq, allSound_setPte]
    rw [heq] at h
    exact ⟨h, hs⟩
  · rw [heq, allSound_setPte, allSound_setPte]
    rw [heq] at h
    refine ⟨h, ?_, hs⟩
    exact hcount.subset fun f => (mappings_setPte_same he he').subset

theorem allSound_foldl_iff (hne : src ≠ dst) : ∀ (l : List (Vma × Vpn)) (s : Machine),
    (l.map Prod.snd).Nodup → (∀ p ∈ l, s.pte dst p.2 = none) → s.AllSound c →
    Counted s.pte s.refcount →
    ((l.foldl (copyOne src dst) s).AllSound c ↔
      Counted (l.foldl (copyOne src dst) s).pte s.refcount)
  | [], _, _, _, hs, hcount => iff_of_true hs hcount
  | p :: l, s, hnd, hnone, hs, hcount => by
    rw [List.map_cons, List.nodup_cons] at hnd
    have hnone' : ∀ q ∈ l, (copyOne src dst s p).pte dst q.2 = none := by
      intro q hq
      have hqp : q.2 ≠ p.2 := fun h => hnd.1 (h ▸ List.mem_map_of_mem hq)
      exact copyOne_pte_none hne hqp (hnone q (List.mem_cons_of_mem _ hq))
    have hrc : (copyOne src dst s p).refcount = s.refcount := (copyOne_fields ..).2.2.2.1
    have ih := allSound_foldl_iff hne l (copyOne src dst s p) hnd.2 hnone'
    rw [hrc] at ih
    rw [List.foldl_cons]
    constructor
    · intro h
      have hs' := allSound_of_foldl l _ h
      exact (ih hs' (counted_of_allSound_copyOne hcount hs')).mp h
    · intro h
      have hcount' : Counted (copyOne src dst s p).pte s.refcount :=
        h.subset fun f => mappings_subset_foldl hne l _ hnd.2 hnone'
      exact (ih (allSound_copyOne hs hcount hcount') hcount').mpr h

theorem mappings_foldl (hne : src ≠ dst) (hnd : (l.map Prod.snd).Nodup)
    (hnone : ∀ vpn, s.pte dst vpn = none) :
    mappings (l.foldl (copyOne src dst) s).pte f = mappings s.pte f ∪
      Prod.mk dst '' {vpn | vpn ∈ l.map Prod.snd ∧ ∃ e, s.pte src vpn = some e ∧ e.pfn = f} := by
  ext ⟨mm, vpn⟩
  show (∃ e, (l.foldl (copyOne src dst) s).pte mm vpn = some e ∧ e.pfn = f) ↔
    (∃ e, s.pte mm vpn = some e ∧ e.pfn = f) ∨ _
  by_cases hmem : vpn ∈ l.map Prod.snd
  · obtain ⟨⟨v, vpn⟩, hp, rfl⟩ := List.mem_map.mp hmem
    by_cases hdst : mm = dst
    · subst hdst
      rw [foldl_copyOne_of_mem hne (.inr rfl) l s hnd hp]
      cases he : s.pte src vpn with
      | none => simp [hnone, he]
      | some e => simpa [hnone, he] using fun _ => ⟨v, hp⟩
    · by_cases hsrc : mm = src
      · subst hsrc
        rw [foldl_copyOne_of_mem hne (.inl rfl) l s hnd hp]
        cases he : s.pte mm vpn with
        | none => simp [Ne.symm hdst]
        | some e => simp [Ne.symm hdst]
      · rw [foldl_copyOne_other hne hsrc hdst vpn l s]
        simp [Ne.symm hdst]
  · rw [foldl_copyOne_of_notMem hne mm l s hmem]
    refine (or_iff_left ?_).symm
    rintro ⟨vpn', ⟨hvpn', -⟩, heq⟩
    obtain ⟨-, rfl⟩ : dst = mm ∧ vpn' = vpn := by simpa using heq
    exact absurd hvpn' hmem

def ForkKeeps (s : Machine) (src : MmId) (a : ForkAnswers) : Prop :=
  ∀ f, (s.copies src a f).Nonempty →
    (mappings s.pte f).encard + (s.copies src a f).encard ≤ (s.refcount f).toNat

theorem allSound_dupMmap_iff {a : ForkAnswers} (hwf : s.WellFormed c) (hne : src ≠ dst)
    (hu : s.Unused dst) (hs : s.AllSound c) (hcount : Counted s.pte s.refcount) :
    (dupMmap src dst a (s.vmas src) s).2.AllSound c ↔ s.ForkKeeps src a := by
  have hnd : ((pagesCopied a (s.vmas src)).map Prod.snd).Nodup := nodup_pagesCopied (hwf.apart src)
  rw [dupMmap_eq]
  have hiff := allSound_foldl_iff (c := c) hne _ (s.addVmas dst (vmasCopied a (s.vmas src)))
    hnd (fun p _ => hu.pte p.2) hs hcount
  refine hiff.trans ?_
  have hmap : ∀ f, mappings ((pagesCopied a (s.vmas src)).foldl (copyOne src dst)
      (s.addVmas dst (vmasCopied a (s.vmas src)))).pte f =
      mappings s.pte f ∪ Prod.mk dst '' s.copies src a f :=
    fun f => mappings_foldl hne hnd hu.pte
  have hdisj : ∀ f, Disjoint (mappings s.pte f) (Prod.mk dst '' s.copies src a f) := by
    intro f
    rw [Set.disjoint_left]
    rintro ⟨mm, vpn⟩ ⟨e, he, -⟩ ⟨vpn', -, heq⟩
    obtain ⟨rfl, rfl⟩ : dst = mm ∧ vpn' = vpn := by simpa using heq
    exact absurd (hu.pte vpn' ▸ he) nofun
  have hinj : Injective (Prod.mk dst : Vpn → MmId × Vpn) := fun x y hxy => (Prod.mk.inj hxy).2
  have hcard : ∀ f, (mappings s.pte f ∪ Prod.mk dst '' s.copies src a f).encard =
      (mappings s.pte f).encard + (s.copies src a f).encard := by
    intro f
    rw [Set.encard_union_eq (hdisj f), hinj.injOn.encard_image]
  constructor
  · intro h f hf
    have := h f
    rw [hmap f, hcard f] at this
    exact this ((hf.image _).inr)
  · intro h f hf
    rw [hmap f] at hf ⊢
    rw [hcard f]
    by_cases hcopies : (s.copies src a f).Nonempty
    · exact h f hcopies
    · rw [Set.not_nonempty_iff_eq_empty] at hcopies
      rw [hcopies, Set.image_empty, Set.union_empty] at hf
      rw [hcopies, Set.encard_empty, add_zero]
      exact hcount f hf

end Fork

/-! ## Runs -/

/-- The allocator hands out frames without references. -/
def CountOk (c : Config) (s : Machine) (op : Op) : Prop :=
  s.Ok c op ∧
  match op with
  | .access _ _ _ _ a => s.Unreferenced a
  | _ => True

/-- The call takes the references it needs and drops none too many. -/
def KeepsCounts (c : Config) (s : Machine) : Op → Prop
  | .access mm vpn _ acc a =>
    s.permits mm vpn acc = none → ∀ v, s.vmaAt mm vpn = some v →
      s.FaultKeeps c ⟨mm, v, vpn, acc.isStore, a⟩
  | .fork src _ a => s.ForkKeeps src a
  | .reuse _ _ => True

/-- The references are right, and there is no history yet. -/
structure CountsStart (c : Config) (s : Machine) : Prop where
  wellFormed : s.WellFormed c
  counted : Counted s.pte s.refcount
  points : s.points = []

/-- The references are right. -/
structure CountsInv (c : Config) (s : Machine) : Prop where
  wellFormed : s.WellFormed c
  counted : Counted s.pte s.refcount
  sound : s.AllSound c

section Run
variable {c : Config} {s s' : Machine} {op : Op} {r : Result}

theorem CountsInv.allSound_iff (h : s.CountsInv c) (hok : s.CountOk c op)
    (hstep : s.step c op = some (r, s')) : s'.AllSound c ↔ s.KeepsCounts c op := by
  cases op with
  | access mm vpn off acc a =>
    obtain ⟨⟨-, ⟨v, hv, hprivate⟩, ha⟩, hu⟩ := hok
    cases accessCase_step hstep with
    | load f hp => exact iff_of_true h.sound fun hno => absurd (hno.symm.trans hp) nofun
    | store f v hp => exact iff_of_true h.sound fun hno => absurd (hno.symm.trans hp) nofun
    | badArea acc _ hno => exact absurd (hno.symm.trans hv) nofun
    | fault acc v' ret s' hp hv' hcase =>
      obtain rfl : v = v' := Option.some.inj (hv.symm.trans hv')
      rw [allSound_fault_iff h.wellFormed h.counted h.sound ha hu hprivate hcase]
      constructor
      · intro hkeeps _ v' hv'
        obtain rfl : v = v' := Option.some.inj (hv.symm.trans hv')
        exact hkeeps
      · intro hkeeps
        exact hkeeps hp v hv
  | fork src dst a =>
    obtain ⟨⟨hne, hu⟩, -⟩ := hok
    have hiff := allSound_dupMmap_iff (a := a) h.wellFormed hne hu h.sound h.counted
    obtain ⟨-, rfl⟩ : _ ∧ _ = s' := by simpa [Machine.step] using hstep
    refine Iff.trans ?_ hiff
    split <;> rfl
  | reuse f bytes =>
    obtain ⟨-, rfl⟩ : _ ∧ _ = s' := by simpa [Machine.step] using hstep
    exact iff_of_true h.sound trivial

theorem counted_dupMmap {a : ForkAnswers} {src dst : MmId} (hwf : s.WellFormed c)
    (hne : src ≠ dst) (hu : s.Unused dst) (hs : s.AllSound c)
    (hcount : Counted s.pte s.refcount)
    (h : (dupMmap src dst a (s.vmas src) s).2.AllSound c) :
    Counted (dupMmap src dst a (s.vmas src) s).2.pte
      (dupMmap src dst a (s.vmas src) s).2.refcount := by
  rw [dupMmap_eq] at h ⊢
  rw [(foldl_copyOne_fields _ _).2.2.2.1]
  exact (allSound_foldl_iff hne _ (s.addVmas dst (vmasCopied a (s.vmas src)))
    (nodup_pagesCopied (hwf.apart src)) (fun p _ => hu.pte p.2) hs hcount).mp h

theorem CountsInv.step (h : s.CountsInv c) (hok : s.CountOk c op) (hkeeps : s.KeepsCounts c op)
    (hstep : s.step c op = some (r, s')) : s'.CountsInv c := by
  have hsound := (h.allSound_iff hok hstep).mpr hkeeps
  refine ⟨h.wellFormed.step hok.1 hstep, ?_, hsound⟩
  cases op with
  | access mm vpn off acc a =>
    cases accessCase_step hstep with
    | load | badArea => exact h.counted
    | store => exact h.counted
    | fault acc v ret s' _ _ hcase => exact counted_of_allSound h.counted hcase hsound
  | fork src dst a =>
    obtain ⟨⟨hne, hu⟩, -⟩ := hok
    obtain ⟨-, rfl⟩ : _ ∧ _ = s' := by simpa [Machine.step] using hstep
    have hall : (dupMmap src dst a (s.vmas src) s).2.AllSound c := by
      split at hsound <;> exact hsound
    have := counted_dupMmap h.wellFormed hne hu h.sound h.counted hall
    split <;> exact this
  | reuse f bytes =>
    obtain ⟨-, rfl⟩ : _ ∧ _ = s' := by simpa [Machine.step] using hstep
    exact h.counted

/-- In a run of calls that keep the counts every point is sound, and the next call leaves them sound
if and only if it keeps the counts. -/
theorem counts_iff_keepsCounts
    (h : Reachable (Machine.step c) (fun s op => s.CountOk c op ∧ s.KeepsCounts c op)
      (CountsStart c) s) :
    Counted s.pte s.refcount ∧ s.AllSound c ∧
    ∀ op r s', s.CountOk c op → s.step c op = some (r, s') →
      (s'.AllSound c ↔ s.KeepsCounts c op) := by
  have hinv : s.CountsInv c := by
    refine h.invariant ?_ ?_
    · intro s hs
      exact ⟨hs.wellFormed, hs.counted, by rw [AllSound, hs.points]; exact nofun⟩
    · intro s op r s' hs hop hstep
      exact hs.step hop.1 hop.2 hstep
  exact ⟨hinv.counted, hinv.sound, fun op r s' hok hstep => hinv.allSound_iff hok hstep⟩

end Run

theorem countOk_firstStore (fill : Byte) : (fresh fill).CountOk smallConfig firstStore := by
  refine ⟨ok_firstStore fill, ?_, nofun⟩
  intro f hf
  obtain rfl : 5 = f := Option.some.inj hf
  rfl

theorem countsStart_fresh (fill : Byte) : CountsStart smallConfig (fresh fill) := by
  refine ⟨wellFormed_fresh fill, ?_, rfl⟩
  rintro f ⟨p, e, he, -⟩
  exact absurd he nofun

/-- The fault of the first store leaves every point sound. -/
theorem counts_iff_keepsCounts_fresh : (mapped 0).AllSound smallConfig := by
  have hrun := counts_iff_keepsCounts (.start (countsStart_fresh 0))
  refine (hrun.2.2 firstStore _ _ (countOk_firstStore 0) (step_firstStore 0)).mpr ?_
  intro _ v hv
  obtain rfl : onePage = v := Option.some.inj hv
  intro _ hread
  exact absurd hread nofun

/-- A fork maps the frame of the page a second time and takes no reference. -/
theorem fork_takes_no_reference :
    ∃ r s, (fresh 0).CountOk smallConfig firstStore ∧
      (fresh 0).step smallConfig firstStore = some (.faulted .ok, mapped 0) ∧
      (mapped 0).CountOk smallConfig firstFork ∧
      (mapped 0).step smallConfig firstFork = some (r, s) ∧ ¬ s.AllSound smallConfig := by
  have hinv : (mapped 0).CountsInv smallConfig := by
    have hstart : (fresh 0).CountsInv smallConfig :=
      ⟨wellFormed_fresh 0, (countsStart_fresh 0).counted, nofun⟩
    refine hstart.step (countOk_firstStore 0) ?_ (step_firstStore 0)
    intro _ v hv
    obtain rfl : onePage = v := Option.some.inj hv
    intro _ hread
    exact absurd hread nofun
  have hok : (mapped 0).CountOk smallConfig firstFork :=
    ⟨⟨by decide, rfl, rfl, fun _ => rfl⟩, trivial⟩
  refine ⟨_, _, countOk_firstStore 0, step_firstStore 0, hok, rfl, ?_⟩
  intro hsound
  have hkeeps := (hinv.allSound_iff hok rfl).mp hsound
  have hcopies : ((mapped 0).copies 0 ⟨fun _ => true, fun _ => true⟩ 5).Nonempty :=
    ⟨0, by decide, _, rfl, rfl⟩
  have hmappings : (mappings (mapped 0).pte 5).Nonempty := ⟨(0, 0), _, rfl, rfl⟩
  have hle := (add_le_add (Set.one_le_encard_iff_nonempty.mpr hmappings)
    (Set.one_le_encard_iff_nonempty.mpr hcopies)).trans (hkeeps 5 hcopies)
  exact absurd hle (by decide)

end Machine

end MyOS2.Fault
