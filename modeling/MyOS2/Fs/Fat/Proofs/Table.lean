import MyOS2.Fs.Fat.Proofs.Fat32

/-!
# An entry of the table is written to every copy

`FAT32_write_FAT_Entry` changes a sector of the first table and writes it to all of them.
-/

namespace MyOS2.Fat32

open Nat

def sectorAt (sb : SbInfo) (i e : Nat) : Nat :=
  sb.fat1Firstsector + sb.sectorPerFat * i + e / 128

def entryAt (sb : SbInfo) (i e : Nat) : Nat := sectorAt sb i e * sectorSize + e % 128 * 4

/-- The sector of an entry is the same in the `i`-th copy as in the first. -/
def Mirrors (sb : SbInfo) (disk : Bytes) (i e : Nat) : Prop := ∀ o < sectorSize,
  disk (sectorAt sb i e * sectorSize + o) = disk (sectorAt sb 0 e * sectorSize + o)

variable {sb : SbInfo} {disk buf : Bytes} {c d i n o v x : Nat}

/-! ## Bytes of the copies -/

theorem writeFats_of_mem (hi : i < n) (ho : o < sectorSize) :
    writeFats sb disk (c / 128) buf n (sectorAt sb i c * sectorSize + o) = buf o := by
  induction n with
  | zero => contradiction
  | succ n ih =>
    rw [writeFats, ← sectorAt]
    by_cases heq : sectorAt sb i c = sectorAt sb n c
    · rw [heq, transferWrite, overwrite_of_mem (by omega) (by rw [succ_mul]; omega),
        Nat.add_sub_cancel_left]
    · have hne : i ≠ n := fun h => heq (by rw [h])
      rw [transferWrite_of_not_mem (by simp only [sectorSize] at *; omega), ih (by omega)]

theorem writeFats_of_not_mem (hx : ∀ i < n, x / sectorSize ≠ sectorAt sb i c) :
    writeFats sb disk (c / 128) buf n x = disk x := by
  induction n with
  | zero => rfl
  | succ n ih =>
    have hn := hx n (by omega)
    rw [writeFats, ← sectorAt, transferWrite_of_not_mem, ih fun i hi => hx i (by omega)]
    simp only [sectorSize] at *
    omega

theorem transferRead_apply (ho : o < sectorSize) :
    transferRead disk (sectorAt sb 0 c) 1 zeroed o = disk (sectorAt sb 0 c * sectorSize + o) :=
  overwrite_of_mem (zero_le _) (by omega)

theorem offset_lt {k : Nat} (hk : k < 4) : d % 128 * 4 + k < sectorSize := by
  simp only [sectorSize]
  omega

theorem entryAt_add {k : Nat} :
    entryAt sb i d + k = sectorAt sb i d * sectorSize + (d % 128 * 4 + k) :=
  add_assoc ..

theorem getLe_transferRead : getLe (transferRead disk (sectorAt sb 0 d) 1 zeroed) (d % 128 * 4) 4 =
    getLe disk (entryAt sb 0 d) 4 := by
  refine getLe_shift fun k hk => ?_
  rw [entryAt_add]
  exact transferRead_apply (offset_lt hk)

theorem readFatEntry_eq : readFatEntry sb disk d = getLe disk (entryAt sb 0 d) 4 % 2 ^ 28 :=
  congrArg (· % 2 ^ 28) getLe_transferRead

theorem Mirrors.getLe_eq (h : Mirrors sb disk i c) :
    getLe disk (entryAt sb i c) 4 = getLe disk (entryAt sb 0 c) 4 := by
  refine getLe_shift fun k hk => ?_
  rw [entryAt_add, entryAt_add, h _ (offset_lt hk)]

theorem getLe_putLe_four {pos : Nat} : getLe (putLe buf pos 4 v) pos 4 = v % 2 ^ 32 := by
  simp [getLe, putLe, overwrite, add_assoc]
  omega

theorem getLe_four_lt (buf : Bytes) (pos : Nat) : getLe buf pos 4 < 2 ^ 32 := by
  have hlt : ∀ i, (buf i).toNat < 256 := fun i => (buf i).toNat_lt
  have := hlt pos
  have := hlt (pos + 1)
  have := hlt (pos + 1 + 1)
  have := hlt (pos + 1 + 1 + 1)
  simp only [getLe]
  omega

/-! ## The write -/

def newWord (sb : SbInfo) (disk : Bytes) (c v : Nat) : Nat :=
  getLe disk (entryAt sb 0 c) 4 / 2 ^ 28 * 2 ^ 28 + v % 2 ^ 28

theorem writeFatEntry_eq : writeFatEntry sb disk c v = writeFats sb disk (c / 128)
    (putLe (transferRead disk (sectorAt sb 0 c) 1 zeroed) (c % 128 * 4) 4 (newWord sb disk c v))
    sb.numFats := by
  rw [newWord, ← getLe_transferRead]
  rfl

theorem writeFatEntry_of_mem (hi : i < sb.numFats) (ho : o < sectorSize) :
    writeFatEntry sb disk c v (sectorAt sb i c * sectorSize + o) =
      putLe (transferRead disk (sectorAt sb 0 c) 1 zeroed) (c % 128 * 4) 4 (newWord sb disk c v) o := by
  rw [writeFatEntry_eq, writeFats_of_mem hi ho]

theorem getLe_writeFatEntry_self (hi : i < sb.numFats) :
    getLe (writeFatEntry sb disk c v) (entryAt sb i c) 4 = newWord sb disk c v := by
  have hlt := getLe_four_lt disk (entryAt sb 0 c)
  have hbytes (k) (hk : k < 4) :=
    (congrArg (writeFatEntry sb disk c v) entryAt_add).trans (writeFatEntry_of_mem hi (offset_lt hk))
  rw [getLe_shift hbytes]
  refine getLe_putLe_four.trans (mod_eq_of_lt ?_)
  rw [newWord]
  omega

theorem writeFatEntry_apply (hx : ∀ i < sb.numFats, x / sectorSize = sectorAt sb i c →
      Mirrors sb disk i c ∧ (x < entryAt sb i c ∨ entryAt sb i c + 4 ≤ x)) :
    writeFatEntry sb disk c v x = disk x := by
  by_cases hin : ∃ i < sb.numFats, x / sectorSize = sectorAt sb i c
  · obtain ⟨i, hi, hsector⟩ := hin
    obtain ⟨hm, hout⟩ := hx i hi hsector
    have ho : x % sectorSize < sectorSize := mod_lt _ (by decide)
    have hback : sectorAt sb i c * sectorSize + x % sectorSize = x := by
      rw [← hsector]
      exact div_add_mod' ..
    rw [entryAt] at hout
    rw [← hback, writeFatEntry_of_mem hi ho, putLe, overwrite_of_not_mem (by omega),
      transferRead_apply ho, hm _ ho]
  · rw [writeFatEntry_eq]
    exact writeFats_of_not_mem fun i hi h => hin ⟨i, hi, h⟩

theorem sectorAt_inj {j : Nat} (hc : c < sb.sectorPerFat * 128) (hd : d < sb.sectorPerFat * 128)
    (h : sectorAt sb i d = sectorAt sb j c) : i = j ∧ d / 128 = c / 128 := by
  have hpos : 0 < sb.sectorPerFat := by omega
  have hi := mul_add_div hpos i (d / 128)
  have hj := mul_add_div hpos j (c / 128)
  rw [Nat.div_eq_of_lt (by omega : d / 128 < _)] at hi
  rw [Nat.div_eq_of_lt (by omega : c / 128 < _)] at hj
  have hsum : sb.sectorPerFat * i + d / 128 = sb.sectorPerFat * j + c / 128 := by
    simp only [sectorAt] at h
    omega
  rw [hsum, hj] at hi
  obtain rfl : j = i := by omega
  exact ⟨rfl, by omega⟩

theorem getLe_writeFatEntry_of_ne (hc : c < sb.sectorPerFat * 128)
    (hd : d < sb.sectorPerFat * 128) (hne : d ≠ c) (hm : Mirrors sb disk i c) :
    getLe (writeFatEntry sb disk c v) (entryAt sb i d) 4 = getLe disk (entryAt sb i d) 4 := by
  refine getLe_shift fun k hk => writeFatEntry_apply fun j _ hj => ?_
  have hk := offset_lt (d := d) hk
  have hsector : sectorAt sb i d = sectorAt sb j c := by
    rw [← hj, entryAt]
    simp only [sectorSize] at *
    omega
  obtain ⟨rfl, hdiv⟩ := sectorAt_inj hc hd hsector
  refine ⟨hm, ?_⟩
  rw [entryAt, entryAt, hsector]
  omega

/-- The entry is read back and no other entry is read differently; the copies of its sector are the
same; and where a copy was the same before, no reserved bits and no bytes outside the entry have
changed. -/
theorem writeFatEntry_exact (hfats : 0 < sb.numFats) (hc : c < sb.sectorPerFat * 128)
    (hd : d < sb.sectorPerFat * 128) (v : Nat) :
    readFatEntry sb (writeFatEntry sb disk c v) c = v % 2 ^ 28 ∧
    (d ≠ c → readFatEntry sb (writeFatEntry sb disk c v) d = readFatEntry sb disk d) ∧
    (∀ i < sb.numFats, Mirrors sb (writeFatEntry sb disk c v) i c) ∧
    (∀ i < sb.numFats, Mirrors sb disk i c →
      getLe (writeFatEntry sb disk c v) (entryAt sb i d) 4 / 2 ^ 28 =
        getLe disk (entryAt sb i d) 4 / 2 ^ 28) ∧
    ∀ x, (∀ i < sb.numFats, x / sectorSize = sectorAt sb i c →
        Mirrors sb disk i c ∧ (x < entryAt sb i c ∨ entryAt sb i c + 4 ≤ x)) →
      writeFatEntry sb disk c v x = disk x := by
  refine ⟨?_, fun hne => ?_, fun i hi o ho => ?_, fun i hi hm => ?_, fun x => writeFatEntry_apply⟩
  · rw [readFatEntry_eq, getLe_writeFatEntry_self hfats, newWord]
    omega
  · rw [readFatEntry_eq, readFatEntry_eq, getLe_writeFatEntry_of_ne hc hd hne fun _ _ => rfl]
  · rw [writeFatEntry_of_mem hi ho, writeFatEntry_of_mem hfats ho]
  · by_cases hne : d = c
    · rw [hne, getLe_writeFatEntry_self hi, newWord, hm.getLe_eq]
      omega
    · rw [getLe_writeFatEntry_of_ne hc hd hne hm]

def twoFats : SbInfo where
  sectorPerCluster := 1
  bytesPerCluster := 512
  dataFirstsector := 2
  fat1Firstsector := 0
  sectorPerFat := 1
  numFats := 2

def differing : Bytes := fun a => if a = 516 then 7 else 0

/-- The tables differ in entry 1 before entry 3 is written. -/
theorem reads_back : readFatEntry twoFats (writeFatEntry twoFats differing 3 7) 3 = 7 ∧
    readFatEntry twoFats (writeFatEntry twoFats differing 3 7) 1 = readFatEntry twoFats differing 1 ∧
    ∀ i < 2, Mirrors twoFats (writeFatEntry twoFats differing 3 7) i 3 :=
  have h := @writeFatEntry_exact twoFats differing 3 1 (by decide) (by decide) (by decide) 7
  ⟨h.1, h.2.1 (by decide), h.2.2.1⟩

/-- A write of entry 0 puts the first copy's entry 1 in its place. -/
theorem overwrites_copy : getLe differing (entryAt twoFats 1 1) 4 = 7 ∧
    getLe (writeFatEntry twoFats differing 0 5) (entryAt twoFats 1 1) 4 = 0 := by
  decide

end MyOS2.Fat32
