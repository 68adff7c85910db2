import MyOS2.Loader.MemoryMap
import MyOS2.Mm.Early.Proofs.FreeAll
import MyOS2.Mm.Early.Proofs.Minimal
import MyOS2.Mm.PageAlloc.Proofs.Conservation

/-!
# From the firmware to the free pages (`arch/x86_64/mm/early/e820.c`)

The kernel copies the entries of the loader to `e820_table`, gives those that are RAM to
`memblock`, and hands what is free over to the page allocator. Sorted entries are always
added behind the last region, where none of the ways in which `simple_mmblk_add_range` goes
wrong can occur; and regions that consist of pages are not touched by the trimming.
-/

namespace MyOS2.E820

open List Memblock Loader

def typeRam : Nat := 1

def typeReservedKern : Nat := 128

def typeSoftReserved : Nat := 0xefffffff

/-- `E820_MAX_ENTRIES`, and `INIT_MEMBLOCK_REGIONS`. -/
def maxEntries : Nat := 128

/-- `e820__memory_setup` (`e820.c:100-119`) from the slot `i` on, with `n` entries of the table
left. -/
def memorySetup (slot : Nat → Entry) : Nat → Nat → Option (List Entry)
  | 0, i => if (slot i).len ≠ 0 ∧ (slot i).type ≠ 0 then none else some []
  | n + 1, i =>
    if (slot i).len ≠ 0 ∧ (slot i).type ≠ 0 then
      (memorySetup slot n (i + 1)).map (slot i :: ·)
    else some []

/-- A round of `e820__memblock_setup`; `resource_size_t` has all bits of `end`. -/
def addEntry (mb : MemblockS) (e : Entry) : Option MemblockS := do
  let mb ← if e.type = typeSoftReserved then simpleMmblkReserve mb e.addr e.len else some mb
  if e.type ≠ typeRam ∧ e.type ≠ typeReservedKern then some mb
  else (simpleMmblkAddRange mb.memory e.addr e.len).map ({ mb with memory := · })

def maxArchPfn : Nat := 2 ^ 46 / pageSize

/-- The loop of `e820__end_of_ram_pfn`. -/
def endOfRamLoop (last : Nat) : List Entry → Nat
  | [] => last
  | e :: es =>
    let end_ := u64 (e.addr + e.len) / pageSize
    if e.len = 0 then last
    else if e.type ≠ typeRam ∨ maxArchPfn ≤ e.addr / pageSize then endOfRamLoop last es
    else if maxArchPfn < end_ then maxArchPfn
    else endOfRamLoop (max last end_) es

/-- `e820__end_of_ram_pfn` (`e820.c:122-158`). -/
def endOfRamPfn (table : List Entry) : Nat :=
  min (endOfRamLoop 0 table) maxArchPfn

/-- `e820__memblock_setup` (`e820.c:160-203`). -/
def memblockSetup (mb : MemblockS) (table : List Entry) : Option MemblockS :=
  (table.foldlM addEntry mb).map (memblockTrimMemory · pageSize)

/-! ## The table -/

theorem memorySetup_eq {es : List Entry} {slot : Nat → Entry}
    (hes : ∀ e ∈ es, e.len ≠ 0 ∧ e.type ≠ 0) {n i : Nat} (hn : es.length ≤ n)
    (hslot : ∀ k e, es[k]? = some e → slot (i + k) = e) (hend : (slot (i + es.length)).len = 0) :
    memorySetup slot n i = some es := by
  induction es generalizing n i with
  | nil => cases n <;> rw [memorySetup, if_neg fun h => h.1 hend]
  | cons e es ih =>
    rw [forall_mem_cons] at hes
    obtain rfl : slot i = e := hslot 0 e rfl
    rcases n with _ | n
    · exact absurd hn (Nat.not_succ_le_zero _)
    rw [memorySetup, if_pos hes.1, ih hes.2 (Nat.le_of_succ_le_succ hn)]
    · rfl
    · intro k e he
      rw [Nat.add_right_comm, Nat.add_assoc]
      exact hslot (k + 1) e he
    · rw [Nat.add_right_comm, Nat.add_assoc]
      exact hend

/-! ## Adding entries in order -/

/-- A range behind all regions is added as it is. -/
theorem append_range {t : MmblkType} {base size : Nat} (h : MinInv t) (hsize : 0 < size)
    (hend : base + size ≤ physAddrMax) (hbelow : ∀ r ∈ t.regions, r.base + r.size ≤ base)
    (hroom : t.cnt < t.max) :
    ∃ t', simpleMmblkAddRange t base size = some t' ∧ MinInv t' ∧ t'.max = t.max ∧
      t'.cnt ≤ t.cnt + 1 ∧
      ∀ a, Memblock.Covers t'.regions a ↔
        Memblock.Covers t.regions a ∨ (base ≤ a ∧ a < base + size) := by
  have hP : ∀ r ∈ t.regions, r.end_ ≤ base := fun r hr => by
    rw [MmblkRgn.end_of_le (h.bounded r hr)]
    exact hbelow r hr
  obtain ⟨t', flags, hloop, -, hrep⟩ := @addRangeLoop_last _ _ _ _ base (base + size)
    (t.stale.length + 1) h.valid hroom (append_nil t.regions).symm (by simp)
  have hcall := simpleMmblkAddRange_skip hsize hend (append_nil t.regions).symm hP
  rw [length_nil, Nat.zero_add] at hcall
  rw [hloop] at hcall
  have hnil : endingAfter base t.regions = [] := by
    rw [endingAfter, dropWhile_eq_nil_iff]
    simpa using hP
  have hmin := ((h.addRange hsize hend).2 t' hcall).2 (by simp [MinimalOk, hnil])
  have hcov := (simpleMmblkAddRange_covered h.valid
    ⟨h.bounded, h.minimal.apart.imp Nat.le_of_lt, fun _ => Iff.rfl⟩ hsize hend
    (by simp [CoverOk, hnil])).2 t' hcall
  refine ⟨t', hcall, hmin, hcov.max, ?_, hcov.fits.covers⟩
  rw [MmblkType.cnt, hrep.regions, append_nil]
  exact length_pushMerge_le ..

/-- What the setup starts from and keeps, with the entries that are still to come. -/
structure Adding (t : MmblkType) (es : List Entry) : Prop where
  inv : MinInv t
  good : ∀ e ∈ es, 0 < e.len ∧ e.addr + e.len ≤ physAddrMax ∧ e.type ∈ [1, 2, 3, 4, 5]
  sorted : es.Pairwise fun e f => e.addr + e.len ≤ f.addr
  below : ∀ r ∈ t.regions, ∀ e ∈ es, r.base + r.size ≤ e.addr
  room : t.cnt + es.length ≤ t.max

variable {t : MmblkType} {e : Entry} {es : List Entry}

theorem Adding.skip (h : Adding t (e :: es)) : Adding t es where
  inv := h.inv
  good f hf := h.good f (mem_cons_of_mem _ hf)
  sorted := h.sorted.of_cons
  below r hr f hf := h.below r hr f (mem_cons_of_mem _ hf)
  room := (Nat.le_succ _).trans h.room

theorem Adding.add (h : Adding t (e :: es)) :
    ∃ t', simpleMmblkAddRange t e.addr e.len = some t' ∧ Adding t' es ∧
      ∀ a, Memblock.Covers t'.regions a ↔
        Memblock.Covers t.regions a ∨ (e.addr ≤ a ∧ a < e.addr + e.len) := by
  have hroom := h.room
  rw [length_cons] at hroom
  obtain ⟨hpos, hend, -⟩ := h.good e mem_cons_self
  obtain ⟨t', hcall, hinv', hmax, hcnt, hcov⟩ := append_range h.inv hpos hend
    (fun r hr => h.below r hr e mem_cons_self) (by omega)
  refine ⟨t', hcall, { h.skip with inv := hinv', below := ?_, room := by omega }, hcov⟩
  intro r hr f hf
  -- the last address of a region is covered, so it lies in an old region or in the range
  have hsize := hinv'.minimal.nonempty r hr
  rcases (hcov (r.base + r.size - 1)).mp ⟨r, hr, by omega, by omega⟩ with ⟨q, hq, -, hlt⟩ | hlt
  · have := h.below q hq f (mem_cons_of_mem _ hf)
    omega
  · have := rel_of_pairwise_cons h.sorted hf
    omega

theorem foldlM_addEntry {mb : MemblockS} (h : Adding mb.memory es) :
    ∃ t, es.foldlM addEntry mb = some { mb with memory := t } ∧ MinInv t ∧
      ∀ a, Memblock.Covers t.regions a ↔
        Memblock.Covers mb.memory.regions a ∨ Loader.Covers es typeRam a := by
  induction es generalizing mb with
  | nil => exact ⟨mb.memory, rfl, h.inv, by simp [Loader.Covers]⟩
  | cons e es ih =>
    have hsoft : e.type ≠ typeSoftReserved ∧ e.type ≠ typeReservedKern := by
      have := (h.good e mem_cons_self).2.2
      simp only [mem_cons, not_mem_nil, or_false] at this
      rw [typeSoftReserved, typeReservedKern]
      omega
    by_cases hram : e.type = typeRam
    · obtain ⟨t, hcall, hadding, hcov⟩ := h.add
      obtain ⟨t', hfold, hinv, hcov'⟩ := @ih { mb with memory := t } hadding
      refine ⟨t', ?_, hinv, fun a => ?_⟩
      · rw [hram] at hsoft
        simp [foldlM_cons, addEntry, hsoft, hram, hcall, hfold]
      · rw [hcov', hcov, or_assoc]
        simp [Loader.Covers, hram]
    · obtain ⟨t', hfold, hinv, hcov'⟩ := ih h.skip
      refine ⟨t', ?_, hinv, fun a => ?_⟩
      · simp [foldlM_cons, addEntry, hsoft, hram, hfold]
      · rw [hcov']
        simp [Loader.Covers, hram]

/-! ## Whole pages -/

/-- The regions consist of pages. -/
def Paged (t : MmblkType) : Prop :=
  ∀ a b, a / pageSize = b / pageSize →
    Memblock.Covers t.regions a → Memblock.Covers t.regions b

section

variable (h : MinInv t) (hpage : Paged t)
include h hpage

/-- Regions that do not touch each other and consist of pages begin and end with a page. -/
theorem aligned_of_pages {r : MmblkRgn} (hr : r ∈ t.regions) :
    4096 ∣ r.base ∧ 4096 ∣ r.base + r.size := by
  have hsize := h.minimal.nonempty r hr
  have hother : ∀ q ∈ t.regions, q = r ∨ q.base + q.size < r.base ∨ r.base + r.size < q.base := by
    obtain ⟨A, B, hl⟩ := append_of_mem hr
    have hapart := h.minimal.apart
    rw [hl, pairwise_append, pairwise_cons] at hapart
    intro q hq
    rw [hl, mem_append, mem_cons] at hq
    rcases hq with hq | rfl | hq
    · exact .inr (.inl (hapart.2.2 q hq r mem_cons_self))
    · exact .inl rfl
    · exact .inr (.inr (hapart.2.1.1 q hq))
  rw [Nat.dvd_iff_mod_eq_zero, Nat.dvd_iff_mod_eq_zero]
  have hp : pageSize = 4096 := rfl
  rw [Paged, hp] at hpage
  constructor
  · by_contra hmod
    obtain ⟨q, hq, hle, hlt⟩ := hpage r.base (r.base - 1) (by omega) ⟨r, hr, by omega, by omega⟩
    rcases hother q hq with rfl | hq | hq <;> omega
  · by_contra hmod
    obtain ⟨q, hq, hle, hlt⟩ := hpage (r.base + r.size - 1) (r.base + r.size) (by omega)
      ⟨r, hr, by omega, by omega⟩
    rcases hother q hq with rfl | hq | hq <;> omega

/-- So there is nothing to trim. -/
theorem trimLoop_of_pages (n i : Nat) : trimLoop pageSize n i t = t := by
  induction n generalizing i with
  | zero => rfl
  | succ n ih =>
    rcases i with _ | i
    · rfl
    rw [trimLoop]
    split
    · rfl
    · rename_i r hr
      have hmem := mem_of_getElem? hr
      have hbounded := h.bounded r hmem
      have hlt : r.base + r.size < 2 ^ 64 := Nat.lt_of_le_of_lt hbounded (by decide)
      obtain ⟨hbase, hend⟩ := aligned_of_pages h hpage hmem
      have hp : pageSize = 2 ^ 12 := rfl
      rw [hp]
      have hup : roundUp r.base (2 ^ 12) = r.base := by
        rw [roundUp_eq (by omega) (by decide), u64_of_lt] <;> omega
      have hdown : roundDown r.end_ (2 ^ 12) = r.end_ := by
        rw [MmblkRgn.end_of_le hbounded, roundDown_eq hlt (by decide)]
        omega
      exact (if_pos ⟨hup, hdown⟩).trans (ih i)

variable {reserved : MmblkType} {limit : Nat}

theorem freeBlock_iff {f : Nat} :
    FreeBlock ⟨t, reserved, limit⟩ memblockNone (f * pageSize) pageSize ↔
      Memblock.Covers t.regions (f * pageSize) ∧ ∀ r ∈ reserved.regions, ¬ r.Touches f := by
  constructor
  · intro hfree
    obtain ⟨m, hm, -, hlo, hhi⟩ := hfree.1
    exact ⟨⟨m, hm, hlo, Nat.lt_of_lt_of_le (Nat.lt_add_of_pos_right (by decide)) hhi⟩,
      hfree.not_touches⟩
  · rintro ⟨⟨m, hm, hlo, hhi⟩, hclear⟩
    have hend := (aligned_of_pages h hpage hm).2
    have hp : pageSize = 4096 := rfl
    simp only [MmblkRgn.Touches, hp] at hhi hclear ⊢
    refine ⟨⟨m, hm, by simp [shouldSkipRegion, h.flags_eq_zero m hm, memblockNone], hlo, by omega⟩,
      fun r hr => ?_⟩
    have := hclear r hr
    omega

theorem ready_of_pages (hres : WellFormed reserved)
    (hbound : ∀ r ∈ reserved.regions, r.base + r.size ≤ 2 ^ 64 - pageSize)
    (hzero : Memblock.Covers t.regions 0 → ∃ r ∈ reserved.regions, r.Touches 0) :
    MemblockS.Ready ⟨t, reserved, limit⟩ where
  memory := ⟨⟨h.bounded, h.minimal.apart.imp Nat.le_of_lt⟩, h.minimal.nonempty, h.valid.words.1,
    h.valid.max⟩
  reserved := hres
  bound := by
    rw [forall_mem_append]
    refine ⟨fun r hr => ?_, hbound⟩
    have hend := (aligned_of_pages h hpage hr).2
    have hle := h.bounded r hr
    have hp : pageSize = 4096 := rfl
    have hmax : physAddrMax = 2 ^ 64 - 1 := rfl
    omega
  frameZero := by
    rw [← Nat.zero_mul pageSize, freeBlock_iff h hpage, Nat.zero_mul]
    rintro ⟨hcov, hclear⟩
    obtain ⟨r, hr, htouch⟩ := hzero hcov
    exact hclear r hr htouch

end

/-! ## The whole way -/

/-- The address belongs to the RAM that the firmware describes. -/
def Ram (map : List Descriptor) (a : Nat) : Prop :=
  ∃ d ∈ map, memType d.type = some typeRam ∧ d.Covers a

/-- Descriptors of pages, which the table has room for. -/
structure Firmware (map : List Descriptor) : Prop where
  disjoint : map.Pairwise Descriptor.Disjoint
  aligned : ∀ d ∈ map, pageSize ∣ d.physicalStart
  fits : (fillMmapInfo map).entries.length ≤ maxEntries

variable {map : List Descriptor}

theorem Firmware.ram_congr (h : Firmware map) {a b : Nat} (hab : a / pageSize = b / pageSize)
    (ha : Ram map a) : Ram map b := by
  obtain ⟨d, hd, htype, hlo, hhi⟩ := ha
  have hp : pageSize = 4096 := rfl
  obtain ⟨c, hc⟩ := h.aligned d hd
  rw [hp] at hc hab
  exact ⟨d, hd, htype, by omega, by omega⟩

theorem minInv_empty : MinInv (.empty maxEntries) :=
  AddRun.minInv_start (s := ⟨_, []⟩) ⟨maxEntries, by decide, rfl⟩

/-- What the loader leaves can be added in order. -/
theorem Firmware.adding (h : Firmware map) :
    Adding (.empty maxEntries) (fillMmapInfo map).entries ∧
    ∀ a, Loader.Covers (fillMmapInfo map).entries typeRam a ↔ Ram map a := by
  obtain ⟨-, hpos, hapart, hcovers⟩ := merged_foldl (merged_start h.disjoint)
  rw [append_nil] at hpos hapart
  have hperm : (fillMmapInfo map).entries ~ (map.foldl Scan.round ([], 0)).1 :=
    (sortEntries_perm _).trans (reverse_perm _)
  have hcov : ∀ type a, Loader.Covers (fillMmapInfo map).entries type a ↔
      ∃ d ∈ map, memType d.type = some type ∧ d.Covers a := by
    intro type a
    rw [← covers_filterMap_entry, ← nil_append (map.filterMap _), ← hcovers]
    simp only [Loader.Covers, hperm.mem_iff]
  have hgood : ∀ e ∈ (fillMmapInfo map).entries,
      0 < e.len ∧ e.addr + e.len ≤ physAddrMax ∧ e.type ∈ [1, 2, 3, 4, 5] := by
    intro e he
    have hlen := hpos e (hperm.mem_iff.mp he)
    obtain ⟨d, -, htype, -, hlt⟩ :=
      (hcov e.type (e.addr + e.len - 1)).mp ⟨e, he, rfl, by omega, by omega⟩
    have hmax : physAddrMax = 2 ^ 64 - 1 := rfl
    refine ⟨hlen, by have := d.inRange; omega, ?_⟩
    revert htype
    cases d.type <;> simp +contextual [memType, eq_comm]
  refine ⟨⟨minInv_empty, hgood, ?_, fun _ hr => absurd hr not_mem_nil, ?_⟩, hcov typeRam⟩; swap
  · simpa [MmblkType.empty, MmblkType.cnt, MmblkType.max] using h.fits
  have hsorted := sortEntries_sorted _ (Nat.le_refl (map.foldl Scan.round ([], 0)).1.reverse.length)
  refine (hsorted.and (hapart.perm hperm.symm fun h => h.symm)).imp_of_mem fun {e f} _ hf hef => ?_
  have := (hgood f hf).1
  simp only [Loader.Apart] at hef
  omega

theorem Firmware.setup (h : Firmware map) (reserved : MmblkType) (limit : Nat) :
    ∃ t, memorySetup (fillMmapInfo map).slot maxEntries 0 = some (fillMmapInfo map).entries ∧
      memblockSetup ⟨.empty maxEntries, reserved, limit⟩ (fillMmapInfo map).entries =
        some ⟨t, reserved, limit⟩ ∧
      MinInv t ∧ Paged t ∧ ∀ a, Memblock.Covers t.regions a ↔ Ram map a := by
  obtain ⟨hadding, hram⟩ := h.adding
  obtain ⟨t, hfold, hinv, hcov⟩ := @foldlM_addEntry _ ⟨.empty maxEntries, reserved, limit⟩ hadding
  replace hcov : ∀ a, Memblock.Covers t.regions a ↔ Ram map a := fun a => by
    rw [hcov, hram]
    simp [Memblock.Covers, MmblkType.empty]
  have hpage : Paged t := fun a b hab ha => (hcov b).mpr (h.ram_congr hab ((hcov a).mp ha))
  refine ⟨t, memorySetup_eq ?_ h.fits ?_ ?_, ?_, hinv, hpage, hcov⟩
  · intro e he
    obtain ⟨hpos, -, hknown⟩ := hadding.good e he
    exact ⟨hpos.ne', fun h0 => by simp [h0] at hknown⟩
  · intro k e he
    simp [Tag.slot, he]
  · simp [Tag.slot]
  · rw [memblockSetup, hfold]
    simp [memblockTrimMemory, trimLoop_of_pages hinv hpage]

theorem endOfRamLoop_le {last n : Nat} (hlast : last ≤ maxArchPfn)
    (hes : ∀ e ∈ es, 0 < e.len ∧ e.addr + e.len ≤ physAddrMax) :
    endOfRamLoop last es ≤ n ↔ last ≤ n ∧ ∀ e ∈ es, e.type = typeRam →
      e.addr / pageSize < maxArchPfn → min ((e.addr + e.len) / pageSize) maxArchPfn ≤ n := by
  induction es generalizing last with
  | nil => simp [endOfRamLoop]
  | cons e es ih =>
    rw [forall_mem_cons] at hes
    have hend : u64 (e.addr + e.len) = e.addr + e.len :=
      u64_of_lt (Nat.lt_of_le_of_lt hes.1.2 (by decide))
    rw [endOfRamLoop, hend, if_neg hes.1.1.ne', forall_mem_cons]
    split
    · rename_i hskip
      rw [ih hlast hes.2]
      grind
    · rename_i hskip
      split
      · grind
      · rw [ih (by omega) hes.2]
        grind

theorem Firmware.endOfRamPfn_le_iff (h : Firmware map) {n : Nat} :
    endOfRamPfn (fillMmapInfo map).entries ≤ n ↔ ∀ e ∈ (fillMmapInfo map).entries,
      e.type = typeRam → e.addr / pageSize < maxArchPfn →
        min ((e.addr + e.len) / pageSize) maxArchPfn ≤ n := by
  have hloop {n} := @endOfRamLoop_le (fillMmapInfo map).entries 0 n (Nat.zero_le _)
    fun e he => ⟨(h.adding.1.good e he).1, (h.adding.1.good e he).2.1⟩
  have hmax : endOfRamLoop 0 (fillMmapInfo map).entries ≤ maxArchPfn :=
    hloop.mpr ⟨Nat.zero_le _, fun _ _ _ _ => Nat.min_le_right ..⟩
  rw [endOfRamPfn, Nat.min_eq_left hmax, hloop]
  exact and_iff_right (Nat.zero_le n)

theorem Firmware.lt_endOfRamPfn (h : Firmware map) {f : Nat} (hpage : Ram map (f * pageSize)) :
    f < endOfRamPfn (fillMmapInfo map).entries ↔ f < maxArchPfn := by
  refine ⟨fun hf => Nat.lt_of_lt_of_le hf (Nat.min_le_right ..), fun hf => ?_⟩
  have hp : pageSize = 4096 := rfl
  obtain ⟨e, he, htype, hlo, hhi⟩ := (h.adding.2 (f * pageSize + 4095)).mpr
    (h.ram_congr (by rw [hp]; omega) hpage)
  have := h.endOfRamPfn_le_iff.mp (Nat.le_refl _) e he htype (by rw [hp] at hlo ⊢; omega)
  rw [hp] at *
  omega

/-- `e820__end_of_ram_pfn` is the least bound of the frames of RAM that the kernel can use. -/
theorem endOfRamPfn_least (h : Firmware map) (n : Nat) :
    endOfRamPfn (fillMmapInfo map).entries ≤ n ↔
      ∀ f < maxArchPfn, Ram map (f * pageSize) → f < n := by
  constructor
  · intro hle f hf hpage
    exact Nat.lt_of_lt_of_le ((h.lt_endOfRamPfn hpage).mpr hf) hle
  · refine fun hlt => h.endOfRamPfn_le_iff.mpr fun e he htype hstart => ?_
    have hcongr {a b : Nat} : a / 4096 = b / 4096 → Ram map a → Ram map b := h.ram_congr
    have hpos := (h.adding.1.good e he).1
    have hp : pageSize = 4096 := rfl
    rw [hp] at hlt hstart ⊢
    generalize maxArchPfn = limit at hstart hlt ⊢
    -- the entry's last address that is below the limit
    obtain ⟨a, hlo, hhi, ha⟩ : ∃ a, e.addr ≤ a ∧ a < e.addr + e.len ∧ a / 4096 < limit ∧
        min ((e.addr + e.len) / 4096) limit ≤ a / 4096 + 1 :=
      ⟨min (e.addr + e.len) (limit * 4096) - 1, by omega, by omega, by omega, by omega⟩
    have := hlt (a / 4096) ha.1 (hcongr (by omega) ((h.adding.2 a).mp ⟨e, he, htype, hlo, hhi⟩))
    omega

theorem firmware_mixed : Firmware mixed :=
  ⟨mixed_disjoint, by decide, by decide⟩

/-- The last descriptors of RAM in `mixed` end at frame 0x114. -/
theorem endOfRamPfn_mixed : endOfRamPfn (fillMmapInfo mixed).entries ≤ 0x114 :=
  (endOfRamPfn_least firmware_mixed 0x114).mpr fun f _ hram => by
    simp [Ram, mixed, memType, typeRam, Descriptor.Covers, pageSize, pageShift] at hram
    omega

/-- `memblock.memory` is the RAM of the firmware: its regions are in order, do not touch, have the
right total size, and cover what the descriptors cover. -/
theorem memory_of_firmware (h : Firmware map) (reserved : MmblkType) (limit : Nat) :
    ∃ table mb, memorySetup (fillMmapInfo map).slot maxEntries 0 = some table ∧
      memblockSetup ⟨.empty maxEntries, reserved, limit⟩ table = some mb ∧
      mb.reserved = reserved ∧ Minimal mb.memory ∧
      ∀ a, Memblock.Covers mb.memory.regions a ↔ Ram map a := by
  obtain ⟨t, htable, hsetup, hinv, -, hcov⟩ := h.setup reserved limit
  exact ⟨_, _, htable, hsetup, rfl, hinv.minimal, hcov⟩

/-- Descriptors in no order, one of them empty and two of them merged. -/
theorem memory_of_mixed :
    ∃ table mb, memorySetup (fillMmapInfo mixed).slot maxEntries 0 = some table ∧
      memblockSetup ⟨.empty maxEntries, .empty 256, 0⟩ table = some mb ∧
      mb.reserved = .empty 256 ∧ Minimal mb.memory ∧
      ∀ a, Memblock.Covers mb.memory.regions a ↔ Ram mixed a :=
  memory_of_firmware firmware_mixed (.empty 256) 0

/-! ## The page allocator -/

/-- Blocks in order, behind those released before, can be released one after the other. -/
theorem exists_released {bs : List (Nat × Nat)} {r : Buddy.AllocRun}
    {free : Buddy.ZoneType × Nat → List Nat} (h : r.InvWith free)
    (hbs : ∀ b ∈ bs, (b.2 ≤ maxOrder ∧ 2 ^ b.2 ∣ b.1) ∧ 1 ≤ b.1 ∧ b.1 + 2 ^ b.2 ≤ r.st.maxLowPfn)
    (hsorted : bs.Pairwise fun p q => p.1 + 2 ^ p.2 ≤ q.1)
    (hbehind : ∀ b ∈ r.managed, ∀ c ∈ bs, b.1 + 2 ^ b.2 ≤ c.1) :
    ∃ r' free', Reachable.run Buddy.AllocRun.step Buddy.AllocRun.Ok r
        (bs.map fun b => .release b.1 b.2) = some r' ∧
      r'.InvWith free' ∧ r'.held = r.held ∧ r'.managed = bs.reverse ++ r.managed := by
  induction bs generalizing r free with
  | nil => exact ⟨r, free, rfl, h, rfl, rfl⟩
  | cons b bs ih =>
    rw [forall_mem_cons] at hbs
    rw [pairwise_cons] at hsorted
    obtain ⟨⟨⟨horder, hdvd⟩, hlo, hhi⟩, hbs⟩ := hbs
    have hok : r.Ok (.release b.1 b.2) := ⟨horder, hdvd, ⟨hlo, hhi⟩, fun c hc =>
      Buddy.AllocRun.apart_iff.mpr (.inr (hbehind c hc b mem_cons_self))⟩
    obtain ⟨-, st, -, hst, hmax, -⟩ :=
      h.holds.memblockFreePages horder hdvd hlo hhi (h.unlisted hok.2.2.2)
    obtain ⟨r₁, free₁, hstep, hinv, -⟩ := h.release hok
    obtain rfl : { r with st := st, managed := b :: r.managed } = r₁ := by
      simpa [Buddy.AllocRun.step, hst] using hstep
    obtain ⟨r', free', hrun, hinv', hheld, hmanaged⟩ := ih hinv (by rwa [hmax]) hsorted.2
      (forall_mem_cons.mpr ⟨hsorted.1, fun c hc d hd => hbehind c hc d (mem_cons_of_mem _ hd)⟩)
    refine ⟨r', free', ?_, hinv', hheld, by rw [hmanaged, reverse_cons, append_assoc]; rfl⟩
    rw [map_cons, Reachable.run, if_pos hok, hstep]
    exact hrun

section

variable {reserved : MmblkType} (h : Firmware map) (hres : WellFormed reserved)
  (hbound : ∀ r ∈ reserved.regions, r.base + r.size ≤ 2 ^ 64 - pageSize)
  (hroom : reserved.cnt < reserved.max) (hzero : Ram map 0 → ∃ r ∈ reserved.regions, r.Touches 0)
  (limit : Nat)
include h hres hbound hroom hzero

/-- The blocks that are handed over make up the pages of RAM that no reserved region touches. -/
theorem Firmware.handOver :
    ∃ mb s, memorySetup (fillMmapInfo map).slot maxEntries 0 = some (fillMmapInfo map).entries ∧
      memblockSetup ⟨.empty maxEntries, reserved, limit⟩ (fillMmapInfo map).entries = some mb ∧
      memblockFreeAll (endOfRamPfn (fillMmapInfo map).entries)
        (endOfRamPfn (fillMmapInfo map).entries) mb = some s ∧
      Tiling (fun f => f < endOfRamPfn (fillMmapInfo map).entries ∧ Ram map (f * pageSize) ∧
        ∀ r ∈ reserved.regions, ¬ r.Touches f) s.released := by
  obtain ⟨t, htable, hsetup, hinv, hpage, hcov⟩ := h.setup reserved limit
  have hready := @ready_of_pages _ hinv hpage _ limit hres hbound (by rwa [hcov])
  have hlast : reserved.cnt < (reserved.regions ++ reserved.stale).length := by
    rw [length_append]
    exact hroom
  obtain ⟨s, hs, htile, -⟩ := hready.memblockFreeAll_spec (getElem?_eq_getElem hlast)
    (endOfRamPfn (fillMmapInfo map).entries) (endOfRamPfn (fillMmapInfo map).entries)
  refine ⟨_, s, htable, hsetup, hs, htile.congr fun f => ?_⟩
  rw [freeBlock_iff hinv hpage, hcov]

/-- When the kernel has booted, the free lists of the page allocator hold exactly the pages of RAM
that no reserved region touches, each once. -/
theorem free_of_firmware (flags : Nat → BitVec 64) :
    ∃ table mb s r, memorySetup (fillMmapInfo map).slot maxEntries 0 = some table ∧
      memblockSetup ⟨.empty maxEntries, reserved, limit⟩ table = some mb ∧
      memblockFreeAll (endOfRamPfn table) (endOfRamPfn table) mb = some s ∧
      Reachable.run Buddy.AllocRun.step Buddy.AllocRun.Ok ⟨.init (endOfRamPfn table) flags, [], []⟩
        (s.released.map fun b => .release b.1 b.2) = some r ∧ r.Conserved ∧
      ∀ f, (∃ zone order, ∃ pfn ∈ r.freeList zone order, Buddy.InBlock f (pfn, order)) ↔
        f < maxArchPfn ∧ Ram map (f * pageSize) ∧ ∀ r ∈ reserved.regions, ¬ r.Touches f := by
  obtain ⟨mb, s, htable, hsetup, hs, htile⟩ := h.handOver hres hbound hroom hzero limit
  have hblock : ∀ b ∈ s.released,
      1 ≤ b.1 ∧ b.1 + 2 ^ b.2 ≤ endOfRamPfn (fillMmapInfo map).entries := by
    intro b hb
    have hpos := Nat.two_pow_pos b.2
    obtain ⟨-, hram, hclear⟩ := (htile.covers b.1).mp ⟨b, hb, by omega, by omega⟩
    have hlast := (htile.covers (b.1 + 2 ^ b.2 - 1)).mp ⟨b, hb, by omega, by omega⟩
    refine ⟨Nat.one_le_iff_ne_zero.mpr fun h0 => ?_, by omega⟩
    rw [h0] at hram hclear
    obtain ⟨r, hr, htouch⟩ := hzero (Nat.zero_mul pageSize ▸ hram)
    exact hclear r hr htouch
  obtain ⟨r, free, hrun, hr, hheld, hmanaged⟩ := exists_released
    (Buddy.AllocRun.InvWith.start (endOfRamPfn (fillMmapInfo map).entries) flags)
    (fun b hb => ⟨htile.aligned b hb, hblock b hb⟩) htile.sorted
    fun _ hb => absurd hb not_mem_nil
  refine ⟨_, mb, s, r, htable, hsetup, hs, hrun, hr.conserved, fun f => ?_⟩
  have hfree := hr.conserved.accounted f
  simp only [hheld, not_mem_nil, false_and, exists_false, or_false, hmanaged, append_nil,
    mem_reverse] at hfree
  rw [← hfree]
  refine (htile.covers f).trans ?_
  exact and_congr_left fun hram => h.lt_endOfRamPfn hram.1

end

/-- A kernel that is loaded into the first page. -/
def firstPage : MmblkType := ⟨[⟨0, 0x1000, 0⟩], [⟨0, 0, 0⟩], 0x1000⟩

/-- The same map, with the first page reserved. -/
theorem free_of_mixed :
    ∃ table mb s r, memorySetup (fillMmapInfo mixed).slot maxEntries 0 = some table ∧
      memblockSetup ⟨.empty maxEntries, firstPage, 0⟩ table = some mb ∧
      memblockFreeAll (endOfRamPfn table) (endOfRamPfn table) mb = some s ∧
      Reachable.run Buddy.AllocRun.step Buddy.AllocRun.Ok
        ⟨.init (endOfRamPfn table) fun _ => 0, [], []⟩
        (s.released.map fun b => .release b.1 b.2) = some r ∧ r.Conserved := by
  have hres : WellFormed firstPage := ⟨⟨by simp [firstPage, physAddrMax], by simp [firstPage]⟩,
    by simp [firstPage], by decide, by decide⟩
  obtain ⟨table, mb, s, r, htable, hmb, hs, hrun, hr, -⟩ := free_of_firmware firmware_mixed hres
    (by decide) (by decide) (fun _ => ⟨_, mem_cons_self, by decide, by decide⟩) 0 fun _ => 0
  exact ⟨table, mb, s, r, htable, hmb, hs, hrun, hr⟩

end MyOS2.E820
