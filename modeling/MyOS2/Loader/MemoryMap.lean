import Mathlib.Algebra.Group.Nat.Defs
import Mathlib.Data.List.Perm.Basic
import Mathlib.Tactic.Common

/-!
# The memory map for the kernel (`myloader/uefi/bootloader.c`)

`fill_mmap_info` turns the descriptors of the firmware into entries of a multiboot tag: a
descriptor that goes on where the one before it ended, with the same type, makes its entry
longer. An exchange sort follows.
-/

namespace MyOS2.Loader

open List

/-- `EFI_MEMORY_TYPE`; the last one is for all other numbers. -/
inductive EfiType
  | reservedMemoryType | loaderCode | loaderData | bootServicesCode | bootServicesData
  | runtimeServicesCode | runtimeServicesData | conventionalMemory | unusableMemory
  | acpiReclaimMemory | acpiMemoryNvs | memoryMappedIo | memoryMappedIoPortSpace | palCode
  | persistentMemory
  | other (n : Nat)
  deriving DecidableEq

/-- `EFI_MEMORY_DESCRIPTOR`. A physical address has 52 bits at most. -/
structure Descriptor where
  type : EfiType
  physicalStart : Nat
  numberOfPages : Nat
  inRange : physicalStart + numberOfPages * 4096 ≤ 2 ^ 52

/-- `multiboot_mmap_entry` (`multiboot2.h:205-216`). -/
structure Entry where
  addr : Nat
  len : Nat
  type : Nat
  deriving DecidableEq

/-- The type that `fill_mmap_info` (`bootloader.c:165-288`) writes for a descriptor, if any. -/
def memType : EfiType → Option Nat
  | .reservedMemoryType | .memoryMappedIo | .memoryMappedIoPortSpace | .palCode => some 2
  | .unusableMemory => some 5
  | .acpiReclaimMemory => some 3
  | .loaderCode | .loaderData | .bootServicesCode | .bootServicesData | .runtimeServicesCode
  | .runtimeServicesData | .conventionalMemory | .persistentMemory => some 1
  | .acpiMemoryNvs => some 4
  | .other _ => none

/-- An entry for the descriptor alone, unless the loop goes on without one. -/
def Descriptor.entry (d : Descriptor) : Option Entry :=
  if d.numberOfPages = 0 then none
  else (memType d.type).map fun type => ⟨d.physicalStart, d.numberOfPages * 4096, type⟩

/-- The entries so far, the last one first, and `last_end`. -/
abbrev Scan := List Entry × Nat

/-- The end of a round: the last entry grows, or there is a new one. -/
def Scan.add : Scan → Entry → Scan
  | (last :: es, lastEnd), e =>
    if last.type = e.type ∧ e.addr = lastEnd then
      ({ last with len := last.len + e.len } :: es, lastEnd + e.len)
    else (e :: last :: es, e.addr + e.len)
  | ([], _), e => ([e], e.addr + e.len)

/-- One turn of the first loop of `fill_mmap_info` (`bootloader.c:165-288`). -/
def Scan.round (s : Scan) (d : Descriptor) : Scan := d.entry.elim s s.add

/-- The inner loop of the sort, with the entry that stands at place `i` and those behind it. -/
def exchange (x : Entry) : List Entry → Entry × List Entry
  | [] => (x, [])
  | y :: ys =>
    if x.addr > y.addr then ((exchange y ys).1, x :: (exchange y ys).2)
    else ((exchange x ys).1, y :: (exchange x ys).2)

/-- The sort at the end of `fill_mmap_info` (`bootloader.c:165-288`). -/
def sortEntries : Nat → List Entry → List Entry
  | n + 1, x :: xs => (exchange x xs).1 :: sortEntries n (exchange x xs).2
  | _, es => es

/-- The tag: what is written into the area, which was cleared before, and for how many entries there
is room according to `size`. -/
structure Tag where
  entries : List Entry
  room : Nat

def Tag.slot (tag : Tag) (i : Nat) : Entry := tag.entries[i]?.getD ⟨0, 0, 0⟩

/-- `fill_mmap_info` (`bootloader.c:165-288`). -/
def fillMmapInfo (map : List Descriptor) : Tag :=
  let es := (map.foldl Scan.round ([], 0)).1.reverse
  { entries := sortEntries es.length es, room := es.length + 1 }

/-! ## Sorting -/

variable {es : List Entry}

theorem exchange_perm (x : Entry) (xs : List Entry) :
    (exchange x xs).1 :: (exchange x xs).2 ~ x :: xs := by
  induction xs generalizing x with
  | nil => exact .refl _
  | cons y ys ih =>
    rw [exchange]
    split
    · exact (Perm.swap ..).trans ((ih y).cons x)
    · exact (Perm.swap ..).trans (((ih x).cons y).trans (.swap ..))

theorem exchange_le (x : Entry) (xs : List Entry) : (exchange x xs).1.addr ≤ x.addr ∧
    ∀ e ∈ (exchange x xs).2, (exchange x xs).1.addr ≤ e.addr := by
  induction xs generalizing x with
  | nil => simp [exchange]
  | cons y ys ih =>
    rw [exchange]
    split
    · next hlt =>
      obtain ⟨hy, hys⟩ := ih y
      exact ⟨Nat.le_trans hy (Nat.le_of_lt hlt), forall_mem_cons.mpr ⟨Nat.le_trans hy (Nat.le_of_lt hlt), hys⟩⟩
    · next hle =>
      obtain ⟨hx, hys⟩ := ih x
      exact ⟨hx, forall_mem_cons.mpr ⟨Nat.le_trans hx (Nat.not_lt.mp hle), hys⟩⟩

theorem sortEntries_perm (n : Nat) : sortEntries n es ~ es := by
  induction n generalizing es with
  | zero => simp [sortEntries]
  | succ n ih =>
    cases es with
    | nil => exact .refl _
    | cons x xs => exact (ih.cons _).trans (exchange_perm x xs)

theorem sortEntries_sorted (n : Nat) (h : es.length ≤ n) :
    (sortEntries n es).Pairwise fun e f => e.addr ≤ f.addr := by
  induction n generalizing es with
  | zero => simp [sortEntries, length_eq_zero_iff.mp (Nat.le_zero.mp h)]
  | succ n ih =>
    cases es with
    | nil => exact .nil
    | cons x xs =>
      have hlen : (exchange x xs).2.length = xs.length := by
        simpa using (exchange_perm x xs).length_eq
      rw [length_cons] at h
      refine pairwise_cons.mpr ⟨fun e he => ?_, ih (by omega)⟩
      exact (exchange_le x xs).2 e ((sortEntries_perm n).mem_iff.mp he)

/-! ## Merging -/

def Covers (es : List Entry) (type a : Nat) : Prop :=
  ∃ e ∈ es, e.type = type ∧ e.addr ≤ a ∧ a < e.addr + e.len

def Descriptor.Covers (d : Descriptor) (a : Nat) : Prop :=
  d.physicalStart ≤ a ∧ a < d.physicalStart + d.numberOfPages * 4096

def Descriptor.Disjoint (d d' : Descriptor) : Prop := ∀ a, d.Covers a → ¬ d'.Covers a

def Apart (e f : Entry) : Prop := e.addr + e.len ≤ f.addr ∨ f.addr + f.len ≤ e.addr

theorem Apart.symm {e f : Entry} (h : Apart e f) : Apart f e := Or.symm h

/-- What the scan keeps: the entries so far are apart and cover what was seen. -/
structure Merged (s : Scan) (seen todo : List Entry) : Prop where
  ends : ∀ e ∈ s.1.head?, s.2 = e.addr + e.len
  pos : ∀ e ∈ s.1 ++ todo, 0 < e.len
  apart : (s.1 ++ todo).Pairwise Apart
  covers : ∀ type a, Covers s.1 type a ↔ Covers seen type a

theorem covers_append (es fs : List Entry) (type a : Nat) :
    Covers (es ++ fs) type a ↔ Covers es type a ∨ Covers fs type a := by
  simp only [Covers, mem_append, or_and_right, exists_or]

variable {s : Scan} {seen todo : List Entry} {e : Entry}

theorem Merged.push (h : Merged s seen (e :: todo)) :
    Merged (e :: s.1, e.addr + e.len) (seen ++ [e]) todo := by
  have hperm : s.1 ++ e :: todo ~ e :: s.1 ++ todo := perm_middle
  refine ⟨by simp, fun f hf => h.pos f (hperm.mem_iff.mpr hf), ?_, fun type a => ?_⟩
  · exact h.apart.perm hperm fun h => h.symm
  · rw [covers_append, ← h.covers, or_comm, ← covers_append]
    rfl

/-- The last entry and the one behind it cover what the longer entry covers. -/
theorem Merged.grow {last : Entry} (hs : s.1 = last :: es) (htype : last.type = e.type)
    (haddr : e.addr = s.2) (h : Merged s seen (e :: todo)) :
    Merged ({ last with len := last.len + e.len } :: es, s.2 + e.len) (seen ++ [e]) todo := by
  have hend : s.2 = last.addr + last.len := h.ends last (by simp [hs])
  obtain ⟨-, hpos, hapart, hcovers⟩ := h
  rw [hs] at hpos hapart hcovers
  have hperm : last :: es ++ e :: todo ~ last :: e :: (es ++ todo) := perm_middle.cons last
  have hpos' : ∀ f ∈ last :: e :: (es ++ todo), 0 < f.len :=
    fun f hf => hpos f (hperm.mem_iff.mpr hf)
  have hpairs := hapart.perm hperm fun h => h.symm
  simp only [pairwise_cons, forall_mem_cons] at hpairs hpos'
  obtain ⟨⟨-, hlast⟩, he, hrest⟩ := hpairs
  refine ⟨?_, ?_, ?_, fun type a => ?_⟩
  · simp only [head?_cons, Option.mem_def, Option.some.injEq, forall_eq']
    omega
  · exact forall_mem_cons.mpr ⟨Nat.add_pos_left hpos'.1 _, hpos'.2.2⟩
  · refine pairwise_cons.mpr ⟨fun f hf => ?_, hrest⟩
    have hl := hlast f hf
    have hr := he f hf
    have := hpos'.2.2 f hf
    simp only [Apart] at hl hr ⊢
    omega
  · rw [covers_append, ← hcovers]
    have hone : Covers [{ last with len := last.len + e.len }] type a ↔
        Covers [last] type a ∨ Covers [e] type a := by
      simp only [Covers, mem_singleton, exists_eq_left, htype, ← and_or_left]
      omega
    have hcons : ∀ f : Entry, f :: es = [f] ++ es := fun _ => rfl
    rw [hcons, hcons last, covers_append, covers_append, hone, or_right_comm]

theorem Merged.add (h : Merged s seen (e :: todo)) : Merged (s.add e) (seen ++ [e]) todo := by
  obtain ⟨entries, lastEnd⟩ := s
  cases entries with
  | nil => exact h.push
  | cons last es =>
    rw [Scan.add]
    split
    · next hgrow => exact h.grow rfl hgrow.1 hgrow.2
    · exact h.push

theorem merged_foldl {map : List Descriptor} (h : Merged s seen (map.filterMap Descriptor.entry)) :
    Merged (map.foldl Scan.round s) (seen ++ map.filterMap Descriptor.entry) [] := by
  induction map generalizing s seen with
  | nil => simpa using h
  | cons d map ih =>
    rw [foldl_cons, Scan.round]
    cases hd : d.entry with
    | none =>
      rw [filterMap_cons_none hd] at h ⊢
      exact ih h
    | some e =>
      rw [filterMap_cons_some hd] at h ⊢
      rw [append_cons]
      exact ih h.add

/-! ## The tag -/

theorem entry_eq_some_iff {d : Descriptor} : d.entry = some e ↔ d.numberOfPages ≠ 0 ∧
    memType d.type = some e.type ∧ e.addr = d.physicalStart ∧ e.len = d.numberOfPages * 4096 := by
  obtain ⟨addr, len, type⟩ := e
  simp only [Descriptor.entry, Option.ite_none_left_eq_some, Option.map_eq_some_iff, Entry.mk.injEq]
  constructor
  · rintro ⟨hpages, type, htype, rfl, rfl, rfl⟩
    exact ⟨hpages, htype, rfl, rfl⟩
  · rintro ⟨hpages, htype, rfl, rfl⟩
    exact ⟨hpages, _, htype, rfl, rfl, rfl⟩

theorem covers_filterMap_entry (map : List Descriptor) (type a : Nat) :
    Covers (map.filterMap Descriptor.entry) type a ↔
      ∃ d ∈ map, memType d.type = some type ∧ d.Covers a := by
  simp only [Covers, mem_filterMap, entry_eq_some_iff]
  constructor
  · rintro ⟨e, ⟨d, hd, -, htype, haddr, hlen⟩, rfl, ha⟩
    exact ⟨d, hd, htype, by rwa [Descriptor.Covers, ← haddr, ← hlen]⟩
  · rintro ⟨d, hd, htype, ha⟩
    have hpages : d.numberOfPages ≠ 0 := fun h => by simp [Descriptor.Covers, h] at ha; omega
    exact ⟨⟨d.physicalStart, _, type⟩, ⟨d, hd, hpages, htype, rfl, rfl⟩, rfl, ha⟩

theorem merged_start {map : List Descriptor} (h : map.Pairwise Descriptor.Disjoint) :
    Merged ([], 0) [] (map.filterMap Descriptor.entry) := by
  refine ⟨by simp, fun e he => ?_, ?_, fun _ _ => .rfl⟩
  · obtain ⟨d, -, hd⟩ := mem_filterMap.mp he
    obtain ⟨hpages, -, -, hlen⟩ := entry_eq_some_iff.mp hd
    omega
  · refine pairwise_filterMap.mpr (h.imp fun {d d'} hdisjoint e hd e' hd' => ?_)
    obtain ⟨hpages, -, haddr, hlen⟩ := entry_eq_some_iff.mp hd
    obtain ⟨hpages', -, haddr', hlen'⟩ := entry_eq_some_iff.mp hd'
    by_contra hnot
    -- the later of the two starts is in both
    refine hdisjoint (max e.addr e'.addr) ?_ ?_ <;>
      simp only [Descriptor.Covers, Apart] at hnot ⊢ <;> omega

/-- The entries are not empty, sorted and apart; each type covers what the descriptors with that
type cover; and there is nothing in the slot that is left over. -/
theorem fillMmapInfo_faithful (map : List Descriptor) (h : map.Pairwise Descriptor.Disjoint) :
    (∀ e ∈ (fillMmapInfo map).entries, 0 < e.len) ∧
    (fillMmapInfo map).entries.Pairwise (fun e f => e.addr + e.len ≤ f.addr) ∧
    (∀ type a, Covers (fillMmapInfo map).entries type a ↔
      ∃ d ∈ map, memType d.type = some type ∧ d.Covers a) ∧
    ∀ i, (fillMmapInfo map).entries.length ≤ i → i < (fillMmapInfo map).room →
      ((fillMmapInfo map).slot i).len = 0 := by
  obtain ⟨-, hpos, hapart, hcovers⟩ := merged_foldl (merged_start h)
  rw [append_nil] at hpos hapart
  have hperm : (fillMmapInfo map).entries ~ (map.foldl Scan.round ([], 0)).1 :=
    (sortEntries_perm _).trans (reverse_perm _)
  have hpos' : ∀ e ∈ (fillMmapInfo map).entries, 0 < e.len :=
    fun e he => hpos e (hperm.mem_iff.mp he)
  refine ⟨hpos', ?_, fun type a => ?_, fun i hi _ => ?_⟩
  · have hsorted : (fillMmapInfo map).entries.Pairwise fun e f => e.addr ≤ f.addr :=
      sortEntries_sorted _ (Nat.le_refl _)
    have hboth := hsorted.and (hapart.perm hperm.symm fun h => h.symm)
    refine hboth.imp_of_mem fun {e f} _ hf hef => ?_
    have := hpos' f hf
    simp only [Apart] at hef
    omega
  · rw [← covers_filterMap_entry, ← nil_append (map.filterMap _), ← hcovers]
    simp only [Covers, hperm.mem_iff]
  · rw [Tag.slot, getElem?_eq_none hi]
    rfl

/-- Two descriptors that are merged, one without a page, and two that come too late. -/
def mixed : List Descriptor :=
  [⟨.conventionalMemory, 0x100000, 16, by decide⟩, ⟨.loaderData, 0x110000, 4, by decide⟩,
    ⟨.acpiReclaimMemory, 0x114000, 0, by decide⟩, ⟨.reservedMemoryType, 0x9f000, 1, by decide⟩,
    ⟨.conventionalMemory, 0, 16, by decide⟩]

theorem mixed_disjoint : mixed.Pairwise Descriptor.Disjoint := by
  simp only [mixed, pairwise_cons, forall_mem_cons, Descriptor.Disjoint, Descriptor.Covers]
  refine ⟨⟨?_, ?_, ?_, ?_, nofun⟩, ⟨?_, ?_, ?_, nofun⟩, ⟨?_, ?_, nofun⟩, ⟨?_, nofun⟩, nofun, .nil⟩
  all_goals omega

/-- Five descriptors in no order, one of them empty, become three entries. -/
theorem fillMmapInfo_mixed :
    (fillMmapInfo mixed).entries = [⟨0, 0x10000, 1⟩, ⟨0x9f000, 0x1000, 2⟩, ⟨0x100000, 0x14000, 1⟩] ∧
    (fillMmapInfo mixed).entries.Pairwise (fun e f => e.addr + e.len ≤ f.addr) ∧
    (∀ type a, Covers (fillMmapInfo mixed).entries type a ↔
      ∃ d ∈ mixed, memType d.type = some type ∧ d.Covers a) ∧
    ((fillMmapInfo mixed).slot 3).len = 0 :=
  have h := fillMmapInfo_faithful mixed mixed_disjoint
  ⟨by decide, h.2.1, h.2.2.1, h.2.2.2 3 (by decide) (by decide)⟩

end MyOS2.Loader
