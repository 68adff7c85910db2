import MyOS2.Fs.Fat.Fat32
import Mathlib.Data.List.Infix

/-!
# Growing the buffer of a directory (`fs/fat/myos_fat32_iobuf.c`)

`FAT32_iobuf_expand` looks for a free cluster in each round of its loop, and the
entry of a cluster it has found stays free until somebody writes it. It counts
down with a `size_t`.
-/

namespace MyOS2.Fat32

def eio : Int := 5

/-- `FAT32_IOBUF_DELETE` and `FAT32_IOBUF_NEWCLUS`. -/
def iobufDelete : Nat := 2

@[inherit_doc iobufDelete]
def iobufNewclus : Nat := 3

def entEof : Nat := 0x0fffffff

/-- `FAT32_iobuf_s`: the `nr_clus` clusters with their flags. The arrays have `max_nr_clus`
elements, and none if the directory has no cluster. -/
structure Iobuf where
  slots : List (Nat × Nat)
  maxNrClus : Nat
  fits : slots.length ≤ maxNrClus
  isInt : maxNrClus < 2 ^ 31
  missing : slots = [] → maxNrClus = 0

/-- The loop of `FAT32_iobuf_expand` (`myos_fat32_iobuf.c:127-163`) with `room` elements left: what
it adds and what is left of `nr`. `kmalloc` tells which of its calls get memory. -/
def expandLoop (sb : SbInfo) (disk : Bytes) (kmalloc : Nat → Bool) :
    Nat → List (Nat × Nat) → BitVec 64 → Option (List (Nat × Nat) × BitVec 64)
  | room, new, nr =>
    let cluster := findAvailableCluster sb disk
    -- `nr >= 0` is true of every `size_t`
    if 1 < cluster ∧ kmalloc new.length then
      match room with
      | 0 => none
      | room + 1 => expandLoop sb disk kmalloc room (new ++ [(cluster, iobufNewclus)]) (nr - 1)
    else some (new, nr)

/-- `FAT32_iobuf_expand` (`myos_fat32_iobuf.c:127-163`). -/
def Iobuf.expand (b : Iobuf) (sb : SbInfo) (disk : Bytes) (kmalloc : Nat → Bool) (nr : BitVec 64) :
    Option (Int × List (Nat × Nat)) := do
  let (new, left) ← expandLoop sb disk kmalloc (b.maxNrClus - b.slots.length) [] nr
  if 0 < left then some (-eio, b.slots) else some (0, b.slots ++ new)

/-- The entries that `FAT32_iobuf_release` (`myos_fat32_iobuf.c:236-269`) writes, from the last
cluster on. `clus_end_change` belongs to one round, and is not set when it is read. -/
def fatWrites (slots : List (Nat × Nat)) : List (Nat × Nat) :=
  (slots.reverse.filter fun slot => slot.2 = iobufDelete).map fun slot => (slot.1, 0)

/-- What the call has to do. A cluster is linked when the entry of the one before it is written, and
the last one gets the end mark. -/
def Grows (sb : SbInfo) (disk : Bytes) (b : Iobuf) (nr : Nat) : Int × List (Nat × Nat) → Prop
  | (ret, slots) =>
    (ret = 0 ∧ ∃ new, slots = b.slots ++ new ∧ new.length = nr ∧ (new.map Prod.fst).Nodup ∧
      (∀ c ∈ new.map Prod.fst, readFatEntry sb disk c = 0 ∧ c ∉ b.slots.map Prod.fst) ∧
      (∀ i x y, b.slots.length ≤ i + 1 → slots[i]? = some x → slots[i + 1]? = some y →
        (x.1, y.1) ∈ fatWrites slots) ∧
      ∀ y ∈ new.getLast?, (y.1, entEof) ∈ fatWrites slots) ∨
    ret < 0 ∧ slots = b.slots

/-- There is no free cluster, or the memory gives out inside the arrays with another number of
clusters than asked for. -/
def GivesUp (sb : SbInfo) (disk : Bytes) (b : Iobuf) (kmalloc : Nat → Bool) (nr : Nat) : Prop :=
  findAvailableCluster sb disk ≤ 1 ∨
    ∃ j ≤ b.maxNrClus - b.slots.length, (∀ i < j, kmalloc i = true) ∧ kmalloc j = false ∧
      (j = nr → nr = 0)

section Expand

variable {sb : SbInfo} {disk : Bytes} {kmalloc : Nat → Bool} {b : Iobuf}

def copies (sb : SbInfo) (disk : Bytes) (n : Nat) : List (Nat × Nat) :=
  List.replicate n (findAvailableCluster sb disk, iobufNewclus)

theorem expandLoop_end {k : Nat} (h : 1 < findAvailableCluster sb disk → kmalloc k = false)
    (room : Nat) (nr : BitVec 64) :
    expandLoop sb disk kmalloc room (copies sb disk k) nr = some (copies sb disk k, nr) := by
  unfold expandLoop
  refine if_neg fun hboth => ?_
  rw [copies, List.length_replicate, h hboth.1] at hboth
  exact absurd hboth.2 (by simp)

section Found

variable (hc : 1 < findAvailableCluster sb disk)
include hc

theorem expandLoop_step {k : Nat} (hk : kmalloc k = true) (room : Nat) (nr : BitVec 64) :
    expandLoop sb disk kmalloc (room + 1) (copies sb disk k) nr =
      expandLoop sb disk kmalloc room (copies sb disk (k + 1)) (nr - 1) := by
  rw [expandLoop, copies, List.length_replicate, if_pos ⟨hc, hk⟩, copies, ← List.replicate_succ']

theorem expandLoop_stop {room k d : Nat} (hroom : d ≤ room) (hfail : kmalloc (k + d) = false)
    (hbefore : ∀ i < k + d, kmalloc i = true) (nr : BitVec 64) :
    expandLoop sb disk kmalloc room (copies sb disk k) nr =
      some (copies sb disk (k + d), nr - BitVec.ofNat 64 d) := by
  induction d generalizing room k nr with
  | zero => simpa using expandLoop_end (fun _ => hfail) room nr
  | succ d ih =>
    obtain ⟨room, rfl⟩ := Nat.exists_eq_add_of_lt (Nat.lt_of_lt_of_le d.succ_pos hroom)
    rw [← Nat.succ_add_eq_add_succ] at hfail hbefore
    rw [Nat.zero_add, expandLoop_step hc (hbefore k (by omega)), ih (by omega) hfail hbefore,
      BitVec.ofNat_add, BitVec.sub_sub, BitVec.add_comm 1, Nat.succ_add_eq_add_succ]
    rfl

theorem expandLoop_overrun {room k : Nat} (hall : ∀ i ≤ k + room, kmalloc i = true)
    (nr : BitVec 64) : expandLoop sb disk kmalloc room (copies sb disk k) nr = none := by
  induction room generalizing k nr with
  | zero => rw [expandLoop, copies, List.length_replicate, if_pos ⟨hc, hall k (by omega)⟩]
  | succ room ih =>
    rw [expandLoop_step hc (hall k (by omega))]
    exact ih (fun i hi => hall i (by omega)) _

theorem expand_stop {j : Nat} (hroom : j ≤ b.maxNrClus - b.slots.length)
    (hbefore : ∀ i < j, kmalloc i = true) (hfail : kmalloc j = false) (nr : BitVec 64) :
    b.expand sb disk kmalloc nr =
      some (if j = nr.toNat then (0, b.slots ++ copies sb disk j) else (-eio, b.slots)) := by
  rw [← Nat.zero_add j] at hbefore hfail
  have hloop := expandLoop_stop hc hroom hfail hbefore nr
  have hisInt := b.isInt
  have hleft : 0 < nr - BitVec.ofNat 64 j ↔ j ≠ nr.toNat := by bv_omega
  rw [Nat.zero_add] at hloop
  rw [Iobuf.expand, show [] = copies sb disk 0 from rfl, hloop]
  simp only [Option.bind_eq_bind, Option.bind_some, hleft, ite_not]
  split <;> rfl

end Found

theorem not_mem_fatWrites {slots : List (Nat × Nat)} {x y : Nat} (hy : y ≠ 0) :
    (x, y) ∉ fatWrites slots := by
  simp [fatWrites, Ne.symm hy]

theorem grows_nil : Grows sb disk b 0 (0, b.slots) := by
  refine .inl ⟨rfl, [], by simp, rfl, by simp, by simp, fun i x y hi _ hy => ?_, by simp⟩
  rw [List.getElem?_eq_none hi] at hy
  contradiction

theorem grows_failed {nr : Nat} : Grows sb disk b nr (-eio, b.slots) :=
  .inr ⟨by decide, rfl⟩

theorem Grows.eq_zero {nr : Nat} (hc : 1 < findAvailableCluster sb disk)
    (hnr : nr ≤ b.maxNrClus - b.slots.length)
    (h : Grows sb disk b nr (0, b.slots ++ copies sb disk nr)) : nr = 0 := by
  obtain ⟨-, new, hnew, -, -, -, hlinked, -⟩ | ⟨hneg, -⟩ := h
  · obtain rfl := List.append_cancel_left hnew
    cases nr with
    | zero => rfl
    | succ nr =>
      have hne : b.slots ≠ [] := by
        intro hnil
        rw [b.missing hnil] at hnr
        omega
      have hpos := List.length_pos_iff.mpr hne
      have hnext : (b.slots ++ copies sb disk (nr + 1))[b.slots.length - 1 + 1]? =
          some (findAvailableCluster sb disk, iobufNewclus) := by
        rw [Nat.sub_add_cancel hpos]
        simp [copies]
      have hlast : b.slots.length - 1 < (b.slots ++ copies sb disk (nr + 1)).length := by
        rw [List.length_append]
        omega
      have hmem := hlinked _ _ _ (by omega) (List.getElem?_eq_getElem hlast) hnext
      exact absurd hmem (not_mem_fatWrites (by simp only; omega))
  · exact absurd hneg (by decide)

end Expand

/-- `FAT32_iobuf_expand` comes back with what was asked for, or with an error and nothing changed,
exactly when it has to give up. -/
theorem grows_iff_givesUp (sb : SbInfo) (disk : Bytes) (b : Iobuf) (kmalloc : Nat → Bool)
    (nr : BitVec 64) :
    (∃ out, b.expand sb disk kmalloc nr = some out ∧ Grows sb disk b nr.toNat out) ↔
      GivesUp sb disk b kmalloc nr.toNat := by
  by_cases hc : 1 < findAvailableCluster sb disk
  · constructor
    · rintro ⟨out, hout, hgrows⟩
      by_cases hex : ∃ j, j ≤ b.maxNrClus - b.slots.length ∧ kmalloc j = false
      · -- the first call without memory decides how many clusters there are
        obtain ⟨hroom, hfail⟩ := Nat.find_spec hex
        have hbefore : ∀ i < Nat.find hex, kmalloc i = true := by
          intro i hi
          by_contra hno
          exact Nat.find_min hex hi ⟨by omega, by simpa using hno⟩
        refine .inr ⟨_, hroom, hbefore, hfail, fun heq => ?_⟩
        rw [expand_stop hc hroom hbefore hfail, if_pos heq] at hout
        rw [← Option.some.inj hout] at hgrows
        rw [heq] at hroom hgrows
        exact hgrows.eq_zero hc hroom
      · have hall : ∀ i ≤ 0 + (b.maxNrClus - b.slots.length), kmalloc i = true := by
          intro i hi
          by_contra hno
          exact hex ⟨i, by omega, by simpa using hno⟩
        rw [Iobuf.expand, show [] = copies sb disk 0 from rfl, expandLoop_overrun hc hall] at hout
        exact absurd hout (by simp)
    · rintro (hle | ⟨j, hroom, hbefore, hfail, hzero⟩)
      · exact absurd hle (by omega)
      · refine ⟨_, expand_stop hc hroom hbefore hfail nr, ?_⟩
        split
        · rename_i heq
          rw [heq, hzero heq]
          simpa [copies] using grows_nil
        · exact grows_failed
  · refine iff_of_true ?_ (.inl (by omega))
    rw [Iobuf.expand, show [] = copies sb disk 0 from rfl, expandLoop_end (fun h => absurd h hc)]
    simp only [Option.bind_eq_bind, Option.bind_some]
    split
    · exact ⟨_, rfl, grows_failed⟩
    · obtain rfl : nr = 0 := by bv_omega
      exact ⟨_, rfl, by simpa [copies] using grows_nil⟩

/-- One free cluster, memory without end and one more cluster asked for: the loop takes the same
cluster again and again, and leaves the arrays. -/
theorem overruns_arrays :
    ∃ (sb : SbInfo) (disk : Bytes) (b : Iobuf), findAvailableCluster sb disk = 3 ∧
      b.maxNrClus = 0x4000000 / sb.bytesPerCluster ∧ b.expand sb disk (fun _ => true) 1 = none := by
  let sb : SbInfo := ⟨1, 512, 2, 1, 1, 1⟩
  let disk : Bytes := overwrite (fun _ => 1) 524 528 fun _ => 0
  let b : Iobuf := ⟨[(2, 0)], 0x4000000 / 512, by decide, by decide, by simp⟩
  have hfree : findAvailableCluster sb disk = 3 := by decide +kernel
  have hover : expandLoop sb disk (fun _ => true) (b.maxNrClus - b.slots.length) (copies sb disk 0) 1 = none :=
    expandLoop_overrun (by rw [hfree]; decide) (fun _ _ => rfl) 1
  refine ⟨sb, disk, b, hfree, rfl, ?_⟩
  rw [Iobuf.expand, show [] = copies sb disk 0 from rfl, hover]
  rfl

end MyOS2.Fat32
