import MyOS2.Fs.Fat.Fat32
import Mathlib.Data.Finset.Card

/-!
# Files on a FAT32 volume behave as arrays of bytes

A write that stays in one cluster changes the bytes it is given and, through
`fat32_write_inode`, bytes of a directory. Neither lies in the tables, so every
chain is still the same, and bytes of other clusters have other addresses.
-/

namespace MyOS2.Fat32

open Function Option List State Nat

variable {pos n : Nat}

/-! ## Transfers -/

section Transfers

variable {disk disk' buffer : Bytes} {sector count : Nat}

theorem transferWrite_overwrite {lo hi : Nat} {g : Bytes} (hhi : hi ≤ count * sectorSize) :
    transferWrite disk sector count (overwrite (transferRead disk sector count buffer) lo hi g) =
      overwrite disk (sector * sectorSize + lo) (sector * sectorSize + hi)
        fun a => g (a - sector * sectorSize) := by
  funext a
  by_cases ha : sector * sectorSize ≤ a ∧ a < (sector + count) * sectorSize
  · have hrel : a - sector * sectorSize < count * sectorSize := by
      rw [add_mul] at ha
      omega
    have hback : sector * sectorSize + (a - sector * sectorSize) = a := by omega
    rw [transferWrite, overwrite_of_mem ha.1 ha.2]
    by_cases hlo : lo ≤ a - sector * sectorSize ∧ a - sector * sectorSize < hi
    · rw [overwrite_of_mem hlo.1 hlo.2, overwrite_of_mem (by omega) (by omega)]
    · rw [overwrite_of_not_mem hlo, overwrite_of_not_mem (by omega), transferRead,
        overwrite_of_mem (zero_le _) hrel, hback]
  · rw [transferWrite, overwrite_of_not_mem ha, overwrite_of_not_mem]
    rw [add_mul] at ha
    omega

theorem transferWrite_of_not_mem {a : Nat}
    (ha : ¬ (sector * sectorSize ≤ a ∧ a < (sector + count) * sectorSize)) :
    transferWrite disk sector count buffer a = disk a :=
  overwrite_of_not_mem ha

theorem getLe_shift {b b' : Bytes} {pos' : Nat} (h : ∀ k < n, b' (pos' + k) = b (pos + k)) :
    getLe b' pos' n = getLe b pos n := by
  induction n generalizing pos pos' with
  | zero => rfl
  | succ n ih =>
    have hzero := h 0 (by omega)
    rw [add_zero, add_zero] at hzero
    rw [getLe, getLe, hzero, ih]
    intro k hk
    rw [add_assoc, add_assoc, h (1 + k) (by omega)]

theorem getLe_congr {b b' : Bytes} (h : ∀ i, pos ≤ i → i < pos + n → b' i = b i) :
    getLe b' pos n = getLe b pos n :=
  getLe_shift fun k hk => h _ (by omega) (by omega)

end Transfers

variable {j : Nat}

section Volume

variable {sb : SbInfo} {disk disk' : Bytes}

theorem readFatEntry_congr {e : Nat} (htable : sb.fat1Firstsector + sb.sectorPerFat ≤ n)
    (he : e / 128 < sb.sectorPerFat) (h : ∀ a < n * sectorSize, disk' a = disk a) :
    readFatEntry sb disk' e = readFatEntry sb disk e := by
  simp only [readFatEntry]
  have hsector : (sb.fat1Firstsector + e / 128 + 1) * sectorSize ≤ n * sectorSize :=
    mul_le_mul_right _ (by omega)
  rw [getLe_congr]
  intro i _ hi
  have hi' : i < 1 * sectorSize := by
    simp only [sectorSize]
    omega
  rw [transferRead, transferRead, overwrite_of_mem (zero_le _) hi',
    overwrite_of_mem (zero_le _) hi', h]
  rw [add_mul] at hsector
  omega

theorem walk_succ (c n : Nat) : walk sb disk c (n + 1) = readFatEntry sb disk (walk sb disk c n) := by
  induction n generalizing c with
  | zero => rfl
  | succ n ih => rw [walk, ih, walk]

theorem address_disjoint {c d i : Nat} (hbytes : sb.bytesPerCluster = sb.sectorPerCluster * sectorSize)
    (hc : 2 ≤ c) (hd : 2 ≤ d) (hcd : c ≠ d) (hi : i < sb.bytesPerCluster)
    (hj : j < sb.bytesPerCluster) : sb.address c + i ≠ sb.address d + j := by
  have key : ∀ {c d : Nat}, 2 ≤ c → c < d →
      sb.address c + sb.bytesPerCluster ≤ sb.address d := by
    intro c d hc hcd
    have hmul : (c - 2 + 1) * sb.sectorPerCluster ≤ (d - 2) * sb.sectorPerCluster :=
      mul_le_mul_right _ (by omega)
    rw [add_mul, one_mul] at hmul
    simp only [SbInfo.address, hbytes, ← add_mul]
    exact mul_le_mul_right _ (by omega)
  rcases lt_or_gt_of_ne hcd with hlt | hlt
  · have := key hc hlt
    omega
  · have := key hd hlt
    omega

end Volume

/-! ## Chains -/

section Chains

variable {s s' : State} {len : FileId → Nat} {f g : FileId} {i : Nat}

theorem State.cluster_succ (s : State) (f : FileId) (i : Nat) :
    s.cluster f (i + 1) = readFatEntry s.sb s.disk (s.cluster f i) :=
  walk_succ _ _

theorem Chains.bytes_pos (h : Chains s len) : 0 < s.sb.bytesPerCluster := by
  rw [h.bytes]
  exact mul_pos h.sectors (by decide)

theorem Chains.len_le (h : Chains s len) (f : FileId) : len f ≤ endOfChain := by
  have hcard := Finset.card_le_card_of_injOn (s := Finset.range (len f))
    (t := Finset.range endOfChain) (s.cluster f) ?_ ?_
  · simpa using hcard
  · intro i hi
    simp only [Finset.coe_range, Set.mem_Iio] at hi ⊢
    exact (h.cluster f i hi).2.1
  · intro i hi j hj hij
    simp only [Finset.coe_range, Set.mem_Iio] at hi hj
    exact (h.distinct f f i j hi hj hij).2

/-- The files are the same but for what they hold and their sizes, and so is the disk below the
data. -/
structure SameTables (s s' : State) : Prop where
  sb : s'.sb = s.sb
  first : ∀ f, (s'.inode f).firstCluster = (s.inode f).firstCluster
  location : ∀ f, (s'.inode f).dentryLocation = (s.inode f).dentryLocation
  tables : ∀ a < s.sb.dataFirstsector * sectorSize, s'.disk a = s.disk a

theorem Chains.cluster_eq (h : Chains s len) (hsame : SameTables s s') (hi : i ≤ len f) :
    s'.cluster f i = s.cluster f i := by
  induction i with
  | zero => exact hsame.first f
  | succ i ih =>
    have htable : s.sb.fat1Firstsector + s.sb.sectorPerFat ≤ s.sb.dataFirstsector := by
      have hcopies := Nat.le_mul_of_pos_right s.sb.sectorPerFat h.numFats
      have htables := h.tables
      omega
    rw [cluster_succ, cluster_succ, ih (le_of_succ_le hi), hsame.sb]
    exact readFatEntry_congr htable (h.cluster f i hi).2.2 hsame.tables

theorem Chains.same (h : Chains s len) (hsame : SameTables s s')
    (hsize : ∀ f, (s'.inode f).iSize ≤ len f * s.sb.bytesPerCluster) : Chains s' len := by
  have hcluster : ∀ f, ∀ i ≤ len f, s'.cluster f i = s.cluster f i :=
    fun f i hi => h.cluster_eq hsame hi
  constructor
  case first => intro f; rw [hsame.first]; exact h.first f
  case cluster =>
    intro f i hi
    rw [hcluster f i (le_of_lt hi), hsame.sb]
    exact h.cluster f i hi
  case last =>
    intro f hf
    rw [hcluster f _ (le_refl _)]
    exact h.last f hf
  case distinct =>
    intro f g i j hi hj hij
    rw [hcluster f i (le_of_lt hi), hcluster g j (le_of_lt hj)] at hij
    exact h.distinct f g i j hi hj hij
  case dentry =>
    intro f
    rw [hsame.location]
    refine (h.dentry f).imp_right ?_
    rintro ⟨hlo, hhi, hout⟩
    refine ⟨hlo, hhi, fun g i hi => ?_⟩
    rw [hcluster g i (le_of_lt hi)]
    exact hout g i hi
  case size => rw [hsame.sb]; exact hsize
  all_goals rw [hsame.sb]
  · exact h.sectors
  · exact h.bytes
  · exact h.small
  · exact h.numFats
  · exact h.tables
  · exact h.addresses

end Chains

/-! ## Writing -/

theorem toInt_of_lt (h : n < 2 ^ 31) : toInt n = n := by
  rw [toInt, BitVec.toInt_eq_toNat_of_lt]
  · rw [BitVec.toNat_ofNat, mod_eq_of_lt (by omega)]
  · rw [BitVec.toNat_ofNat, mod_eq_of_lt (by omega)]
    omega

theorem passes_natCast (h : n < 2 ^ 31) : passes n = n + 1 := by
  rw [passes]
  omega

section Write

variable {s : State} {len : FileId → Nat} {f g : FileId} {data : List UInt8} {pos : Nat}

theorem Chains.toNat_toInt (h : Chains s len) {i : Nat} (hi : i ≤ len f) :
    (toInt i).toNat = i := by
  have hlen := h.len_le f
  rw [endOfChain] at hlen
  rw [toInt_of_lt (by omega)]
  exact Int.toNat_natCast _

theorem Chains.sector_eq (h : Chains s len) {c d : Nat} (hc : c < 2 ^ 28) (hd : d = c - 2) :
    u64 (s.sb.dataFirstsector + d * s.sb.sectorPerCluster) * sectorSize = s.sb.address c := by
  have hmul : (c + 1) * s.sb.sectorPerCluster ≤ 2 ^ 28 * s.sb.sectorPerCluster :=
    mul_le_mul_right _ (by omega)
  have hle : d * s.sb.sectorPerCluster ≤ c * s.sb.sectorPerCluster := mul_le_mul_right _ (by omega)
  have haddr := h.addresses
  have hpos := h.sectors
  rw [add_mul, one_mul] at hmul
  rw [u64_of_lt (by omega), SbInfo.address, hd]

section

variable (s : State) (f : FileId) (data : List UInt8) (pos : Nat)

/-- The disk after the only pass of a write that stays in one cluster. -/
def State.overwritten : Bytes :=
  let start := s.sb.address (s.cluster f (pos / s.sb.bytesPerCluster)) + pos % s.sb.bytesPerCluster
  overwrite s.disk start (start + data.length) fun a => data.getD (a - start) 0

def State.written : State :=
  if (s.inode f).iSize < pos + data.length then
    let inode := { s.inode f with iSize := pos + data.length }
    { s with
      disk := writeInode s.sb (s.overwritten f data pos) inode
      inode := update s.inode f inode }
  else { s with disk := s.overwritten f data pos }

end

theorem Chains.block_lt (h : Chains s len) (hpos : pos ≤ (s.inode f).iSize)
    (hfirst : (s.inode f).firstCluster ≠ 0)
    (hchain : s.cluster f (pos / s.sb.bytesPerCluster) < endOfChain) :
    pos / s.sb.bytesPerCluster < len f := by
  have hle : pos / s.sb.bytesPerCluster ≤ len f :=
    Nat.div_le_of_le_mul (by rw [mul_comm]; exact hpos.trans (h.size f))
  refine lt_of_le_of_ne hle fun heq => ?_
  have hlast := h.last f (pos_of_ne_zero (mt (h.first f).mpr hfirst))
  rw [heq] at hchain
  omega

theorem Chains.pass_eq (h : Chains s len) {c : Cursor} (hflags : c.flags = false)
    (hdisk : c.disk = s.disk) (hcluster : 2 ≤ c.cluster ∧ c.cluster < endOfChain)
    (hindex : c.index = c.data.length) (hin : c.offset + c.data.length ≤ s.sb.bytesPerCluster) :
    (c.pass s.sb).index = 0 ∧ (c.pass s.sb).position = c.position + c.data.length ∧
      (c.pass s.sb).disk = overwrite s.disk (s.sb.address c.cluster + c.offset)
        (s.sb.address c.cluster + c.offset + c.data.length)
        fun a => c.data.getD (a - (s.sb.address c.cluster + c.offset)) 0 := by
  have hlength : passLength s.sb c.index c.offset = c.data.length := by
    rw [passLength, hindex, if_pos ⟨by omega, by omega⟩]
    exact Int.toNat_natCast _
  have hc : c.cluster < 2 ^ 28 := by
    have := hcluster.2
    rw [endOfChain] at this
    omega
  have hsector := h.sector_eq hc (d := (c.cluster + 2 ^ 32 - 2) % 2 ^ 32) (by omega)
  have hbytes := h.bytes
  refine ⟨?_, ?_, ?_⟩
  · simp only [Cursor.pass, hlength]
    rw [hindex, Int.sub_self]
  · simp only [Cursor.pass, hlength]
  · simp only [Cursor.pass, hlength, hflags, hdisk, Bool.false_eq_true, if_false]
    rw [transferWrite_overwrite (by omega), hsector]
    simp only [Nat.add_assoc, Nat.sub_sub]

theorem writeLoop_done {sb : SbInfo} {c : Cursor} (h : (c.pass sb).index = 0) :
    writeLoop sb (n + 1) c = some (.done, c.pass sb) := by
  have hin : ¬ underflows (c.pass sb).index := by
    rw [h, underflows]
    decide
  rw [writeLoop]
  simp only [if_neg hin]
  rw [if_pos h]

theorem Chains.write_eq (h : Chains s len) {junk : Bytes} (hpos : pos ≤ (s.inode f).iSize)
    (hsound : Sound s (.write f data pos junk)) :
    s.write f data pos junk = some ((data.length : Int), s.written f data pos) := by
  obtain ⟨hfirst, hchain, hin, hentry⟩ := hsound
  have hblock := h.block_lt hpos hfirst hchain
  obtain ⟨hlo, hhi, -⟩ := h.cluster f _ hblock
  have hsmall : data.length < 2 ^ 31 := by
    have := h.small
    omega
  have hfirst32 : (s.inode f).firstCluster % 2 ^ 32 = (s.inode f).firstCluster := by
    have hzero := (h.cluster f 0 (zero_lt_of_lt hblock)).2.1
    exact mod_eq_of_lt (lt_trans hzero (by decide))
  have hindex := h.toNat_toInt hblock.le
  have hne : walk s.sb s.disk (s.inode f).firstCluster (pos / s.sb.bytesPerCluster) ≠ 0 :=
    ne_of_gt (lt_of_lt_of_le (by decide) hlo)
  simp only [write, hfirst32, if_neg hfirst, hindex, if_neg hne]
  have hcursor : (s.cursor data pos (s.cluster f (pos / s.sb.bytesPerCluster)) false junk).index =
      data.length := toInt_of_lt hsmall
  obtain ⟨hzero, hposition, hdisk⟩ := h.pass_eq rfl rfl ⟨hlo, hhi⟩ hcursor hin
  have hloop := writeLoop_done (n := data.length) hzero
  rw [← passes_natCast hsmall, ← hcursor] at hloop
  have hposition' : (Cursor.pass s.sb (s.cursor data pos
      (s.cluster f (pos / s.sb.bytesPerCluster)) false junk)).position = pos + data.length :=
    hposition
  have hdisk' : (Cursor.pass s.sb (s.cursor data pos
      (s.cluster f (pos / s.sb.bytesPerCluster)) false junk)).disk = s.overwritten f data pos :=
    hdisk
  change s.writeFrom f data
    (s.cursor data pos (s.cluster f (pos / s.sb.bytesPerCluster)) false junk) = _
  rw [writeFrom, hloop]
  simp only [bind_eq_bind, bind_some, hzero, if_true, hposition', hdisk', written]
  split
  · rename_i hgrows
    exact if_pos (hentry hgrows)
  · rfl

theorem Chains.locate (h : Chains s len) (hj : j < len g * s.sb.bytesPerCluster) :
    j / s.sb.bytesPerCluster < len g ∧ j % s.sb.bytesPerCluster < s.sb.bytesPerCluster :=
  ⟨Nat.div_lt_of_lt_mul (by rwa [mul_comm]), mod_lt _ h.bytes_pos⟩

theorem Chains.writeInode_of_not_mem (h : Chains s len) {disk : Bytes} {inode : Inode} {a : Nat}
    (hloc : inode.dentryLocation = (s.inode f).dentryLocation)
    (ha : (s.inode f).dentryLocation ≠ 0 → ¬ (s.sb.address (s.inode f).dentryLocation ≤ a ∧
      a < s.sb.address (s.inode f).dentryLocation + s.sb.bytesPerCluster)) :
    writeInode s.sb disk inode a = disk a := by
  unfold writeInode
  rw [hloc]
  split <;> rename_i hzero
  · rfl
  · obtain ⟨hlo, hhi, -⟩ := (h.dentry f).resolve_left hzero
    apply transferWrite_of_not_mem
    have hhi' : (s.inode f).dentryLocation < 2 ^ 28 := lt_trans hhi (by decide)
    rw [add_mul, ← h.bytes, h.sector_eq hhi' (u64Sub_of_le (by omega) hlo)]
    exact ha hzero

theorem SbInfo.le_address (sb : SbInfo) (c : Nat) :
    sb.dataFirstsector * sectorSize ≤ sb.address c :=
  mul_le_mul_right _ (le_add_right _ _)

theorem update_proj {α β γ : Type*} [DecidableEq α] (p : β → γ) {m : α → β} {a : α} {v : β}
    (hv : p v = p (m a)) (x : α) : p (update m a v x) = p (m x) := by
  rw [apply_update fun _ => p, hv, update_eq_self]

theorem Chains.written_same (h : Chains s len) : SameTables s (s.written f data pos) := by
  have htables : ∀ a < s.sb.dataFirstsector * sectorSize, s.overwritten f data pos a = s.disk a := by
    intro a ha
    have hle := s.sb.le_address (s.cluster f (pos / s.sb.bytesPerCluster))
    apply overwrite_of_not_mem
    omega
  unfold written
  split
  · refine ⟨rfl, update_proj Inode.firstCluster rfl, update_proj Inode.dentryLocation rfl,
      fun a ha => ?_⟩
    have hle := s.sb.le_address (s.inode f).dentryLocation
    rw [← htables a ha]
    exact h.writeInode_of_not_mem rfl fun _ => by omega
  · exact ⟨rfl, fun _ => rfl, fun _ => rfl, htables⟩

theorem written_size : ((s.written f data pos).inode f).iSize =
    max (s.inode f).iSize (pos + data.length) := by
  unfold written
  split
  · simp only [update_self]
    omega
  · simp only
    omega

theorem written_inode (hg : g ≠ f) : (s.written f data pos).inode g = s.inode g := by
  unfold written
  split
  · exact update_of_ne hg _ _
  · rfl

theorem arrayWrite_map_range {g : Nat → UInt8} {data : List UInt8} {size : Nat}
    (hpos : pos ≤ size) :
    arrayWrite ((range size).map g) data pos = (range (max size (pos + data.length))).map fun j =>
        if pos ≤ j ∧ j < pos + data.length then data.getD (j - pos) 0 else g j := by
  apply ext_getElem
  · simp only [arrayWrite, length_append, length_take, length_drop, length_map,
      length_range]
    omega
  · intro j hj hj'
    simp only [arrayWrite, getElem_append, length_append, length_take,
      length_map, length_range, getElem_take, getElem_map, getElem_range,
      getElem_drop, min_eq_left hpos]
    by_cases hbefore : j < pos
    · rw [dif_pos (by omega), dif_pos hbefore, if_neg (by omega)]
    · by_cases hin : j < pos + data.length
      · rw [dif_pos hin, dif_neg hbefore, if_pos (by omega), getD_eq_getElem _ _ (by omega)]
      · rw [dif_neg hin, if_neg (by omega)]
        congr 1
        omega

section

variable (h : Chains s len) (hblock : pos / s.sb.bytesPerCluster < len f)
  (hin : pos % s.sb.bytesPerCluster + data.length ≤ s.sb.bytesPerCluster)
include h hblock hin

theorem Chains.overwritten_byte (hj : j < len g * s.sb.bytesPerCluster) :
    s.overwritten f data pos (s.sb.address (s.cluster g (j / s.sb.bytesPerCluster)) +
        j % s.sb.bytesPerCluster) =
      if g = f ∧ pos ≤ j ∧ j < pos + data.length then data.getD (j - pos) 0 else s.byteAt g j := by
  obtain ⟨hjlt, hjmod⟩ := h.locate hj
  have hjdiv := div_add_mod j s.sb.bytesPerCluster
  have hposdiv := div_add_mod pos s.sb.bytesPerCluster
  by_cases hsame : g = f ∧ j / s.sb.bytesPerCluster = pos / s.sb.bytesPerCluster
  · obtain ⟨rfl, hk⟩ := hsame
    rw [hk] at hjdiv ⊢
    by_cases hmem : pos ≤ j ∧ j < pos + data.length
    · rw [if_pos ⟨rfl, hmem⟩, overwritten, overwrite_of_mem (by omega) (by omega)]
      congr 1
      omega
    · rw [if_neg (fun hc => hmem hc.2), overwritten, overwrite_of_not_mem (by omega),
        byteAt, hk]
  · have hcluster : s.cluster g (j / s.sb.bytesPerCluster) ≠
        s.cluster f (pos / s.sb.bytesPerCluster) := fun heq =>
      hsame (h.distinct g f _ _ hjlt hblock heq)
    have hlow := (h.cluster g _ hjlt).1
    have hlow' := (h.cluster f _ hblock).1
    have hout : ¬ (g = f ∧ pos ≤ j ∧ j < pos + data.length) := by
      rintro ⟨rfl, hle, hlt⟩
      refine hsame ⟨rfl, Nat.div_eq_of_lt_le ?_ ?_⟩
      · rw [mul_comm]
        omega
      · rw [succ_mul, mul_comm]
        omega
    rw [if_neg hout, overwritten, overwrite_of_not_mem, byteAt]
    rintro ⟨hle, hlt⟩
    refine address_disjoint h.bytes hlow hlow' hcluster hjmod
      (j := s.sb.address (s.cluster g (j / s.sb.bytesPerCluster)) + j % s.sb.bytesPerCluster -
        s.sb.address (s.cluster f (pos / s.sb.bytesPerCluster))) (by omega) (by omega)

theorem Chains.written_byte (hj : j < len g * s.sb.bytesPerCluster) :
    (s.written f data pos).byteAt g j =
      if g = f ∧ pos ≤ j ∧ j < pos + data.length then data.getD (j - pos) 0 else s.byteAt g j := by
  obtain ⟨hjlt, hjmod⟩ := h.locate hj
  have hsame : SameTables s (s.written f data pos) := h.written_same
  rw [← h.overwritten_byte hblock hin hj, byteAt, hsame.sb, h.cluster_eq hsame (le_of_lt hjlt)]
  unfold written
  split
  · refine h.writeInode_of_not_mem rfl ?_
    rintro hzero ⟨hle, hlt⟩
    obtain ⟨hlo, -, hout⟩ := (h.dentry f).resolve_left hzero
    exact address_disjoint h.bytes (h.cluster g _ hjlt).1 hlo (hout g _ hjlt) hjmod
      (j := s.sb.address (s.cluster g (j / s.sb.bytesPerCluster)) + j % s.sb.bytesPerCluster -
        s.sb.address (s.inode f).dentryLocation) (by omega) (by omega)
  · rfl

omit h in
theorem written_end : pos + data.length ≤ len f * s.sb.bytesPerCluster := by
  have hdiv := div_add_mod pos s.sb.bytesPerCluster
  have hmul : (pos / s.sb.bytesPerCluster + 1) * s.sb.bytesPerCluster ≤
      len f * s.sb.bytesPerCluster := mul_le_mul_right _ hblock
  rw [succ_mul, mul_comm (pos / _)] at hmul
  omega

theorem Chains.written : Chains (s.written f data pos) len := by
  refine h.same h.written_same fun g => ?_
  by_cases hg : g = f
  · subst hg
    rw [written_size]
    exact Nat.max_le.mpr ⟨h.size g, written_end hblock hin⟩
  · rw [written_inode hg]
    exact h.size g

theorem Chains.contents_of_ne (hg : g ≠ f) : (s.written f data pos).contents g = s.contents g := by
  rw [contents, contents, written_inode hg]
  apply map_congr_left
  intro j hj
  have hlt := lt_of_lt_of_le (mem_range.mp hj) (h.size g)
  rw [h.written_byte hblock hin hlt, if_neg fun hc => hg hc.1]

theorem Chains.contents_self (hpos : pos ≤ (s.inode f).iSize) :
    (s.written f data pos).contents f = arrayWrite (s.contents f) data pos := by
  have hmax : max (s.inode f).iSize (pos + data.length) ≤ len f * s.sb.bytesPerCluster :=
    Nat.max_le.mpr ⟨h.size f, written_end hblock hin⟩
  rw [contents, contents, written_size, arrayWrite_map_range hpos]
  apply map_congr_left
  intro j hj
  have hlt := lt_of_lt_of_le (mem_range.mp hj) hmax
  rw [h.written_byte hblock hin hlt]
  simp only [true_and]

end

end Write

/-! ## Reading -/

section Read

variable {s : State} {len : FileId → Nat} {f : FileId} {k off m : Nat}

theorem Chains.slice_eq (h : Chains s len) (hk : 0 < m → k < len f)
    (hin : off + m ≤ s.sb.bytesPerCluster) :
    slice (transferRead s.disk (u64 (s.sb.dataFirstsector +
        u64Sub (s.cluster f k) 2 * s.sb.sectorPerCluster)) s.sb.sectorPerCluster zeroed) off m =
      (List.range' (k * s.sb.bytesPerCluster + off) m).map (s.byteAt f) := by
  rcases Nat.eq_zero_or_pos m with rfl | hm
  · rfl
  obtain ⟨hlo, hhi, -⟩ := h.cluster f k (hk hm)
  have hhi' : s.cluster f k < 2 ^ 28 := lt_trans hhi (by decide)
  rw [slice, List.range'_eq_map_range, List.map_map]
  apply List.map_congr_left
  intro i hi
  have hi' : off + i < s.sb.bytesPerCluster := by
    have := mem_range.mp hi
    omega
  have hdiv : (k * s.sb.bytesPerCluster + off + i) / s.sb.bytesPerCluster = k := by
    rw [add_assoc, mul_comm, mul_add_div h.bytes_pos, div_eq_of_lt hi', add_zero]
  have hmod : (k * s.sb.bytesPerCluster + off + i) % s.sb.bytesPerCluster = off + i := by
    rw [add_assoc, mul_comm, mul_add_mod, mod_eq_of_lt hi']
  rw [transferRead, overwrite_of_mem (zero_le _) (by rwa [← h.bytes]),
    h.sector_eq hhi' (u64Sub_of_le (by omega) hlo), comp_apply, byteAt, hdiv, hmod]

theorem not_underflows {index : Int} (h : 0 ≤ index) : ¬ underflows index := by
  rw [underflows]
  omega

theorem Chains.readLoop_eq (h : Chains s len) {fuel : Nat} (hoff : off < s.sb.bytesPerCluster)
    (hend : k * s.sb.bytesPerCluster + off + m ≤ len f * s.sb.bytesPerCluster) (hfuel : m < fuel) :
    readLoop s.sb s.disk fuel (s.cluster f k) off m =
      some ((range' (k * s.sb.bytesPerCluster + off) m).map (s.byteAt f), 0) := by
  induction fuel generalizing k off m with
  | zero => exact absurd hfuel (not_lt_zero _)
  | succ fuel ih =>
    have hk : 0 < m → k < len f := by
      intro hm
      refine Nat.lt_of_mul_lt_mul_right (a := s.sb.bytesPerCluster) ?_
      omega
    rw [readLoop]
    by_cases hlast : m ≤ s.sb.bytesPerCluster - off
    · have hlength : passLength s.sb m off = m := by
        rw [passLength, if_pos ⟨by omega, by omega⟩]
        exact Int.toNat_natCast _
      simp only [hlength, Int.sub_self, h.slice_eq hk (by omega : off + m ≤ _)]
      rw [if_neg (not_underflows (Int.le_refl 0)), if_pos trivial]
    · have hlength : passLength s.sb m off = s.sb.bytesPerCluster - off := by
        rw [passLength, if_neg (by omega)]
      -- the next cluster, from its first byte on
      obtain ⟨m', rfl⟩ : ∃ m', m = s.sb.bytesPerCluster - off + (m' + 1) :=
        ⟨m - (s.sb.bytesPerCluster - off) - 1, by omega⟩
      have hnext : k * s.sb.bytesPerCluster + off + (s.sb.bytesPerCluster - off) =
          (k + 1) * s.sb.bytesPerCluster := by
        rw [succ_mul]
        omega
      have hk' : k + 1 < len f := by
        refine Nat.lt_of_mul_lt_mul_right (a := s.sb.bytesPerCluster) ?_
        omega
      have hindex : ((s.sb.bytesPerCluster - off + (m' + 1) : Nat) : Int) -
          (s.sb.bytesPerCluster - off : Nat) = (m' + 1 : Nat) := by omega
      have hne : readFatEntry s.sb s.disk (s.cluster f k) ≠ 0 := by
        rw [← cluster_succ]
        exact ne_of_gt (lt_of_lt_of_le (by decide) (h.cluster f _ hk').1)
      have hrest : readLoop s.sb s.disk fuel (s.cluster f (k + 1)) 0 (m' + 1 : Nat) =
          some ((range' ((k + 1) * s.sb.bytesPerCluster + 0) (m' + 1)).map (s.byteAt f), 0) :=
        ih h.bytes_pos (by omega) (by omega)
      simp only [hlength, hindex, h.slice_eq (fun _ => hk (by omega))
        (by omega : off + (s.sb.bytesPerCluster - off) ≤ _)]
      rw [if_neg (not_underflows (by omega)), if_neg (by omega), if_neg hne, ← cluster_succ, hrest]
      simp only [bind_eq_bind, bind_some, ← map_append, add_zero]
      rw [← hnext, range'_append_1]

theorem arrayRead_map_range {g : Nat → UInt8} {count size : Nat} :
    arrayRead ((range size).map g) count pos = (range' pos (min count (size - pos))).map g := by
  rw [arrayRead, ← map_drop, ← map_take, range_eq_range', drop_range',
    mul_one, zero_add, range'_eq_map_range, ← map_take, take_range,
    ← range'_eq_map_range]

theorem Chains.size_lt (h : Chains s len) (f : FileId) : (s.inode f).iSize < 2 ^ 64 := by
  have hmul := mul_le_mul (h.len_le f) (le_of_lt h.small)
  have hsize := h.size f
  simp only [endOfChain] at hmul
  omega

theorem Chains.read_eq (h : Chains s len) {count : Nat} (hsound : Sound s (.read f count pos)) :
    s.read f count pos = some (((arrayRead (s.contents f) count pos).length : Int),
      arrayRead (s.contents f) count pos) := by
  obtain ⟨hfirst, hpos, hwrap, hsmall⟩ := hsound
  have hblock : pos / s.sb.bytesPerCluster ≤ len f :=
    Nat.div_le_of_le_mul (by rw [mul_comm]; exact hpos.trans (h.size f))
  have hindex := h.toNat_toInt hblock
  have hcount : (if (s.inode f).iSize < u64 (pos + count) then u64Sub (s.inode f).iSize pos
      else count) = min count ((s.inode f).iSize - pos) := by
    rw [u64_of_lt hwrap, u64Sub_of_le (h.size_lt f) hpos]
    split <;> omega
  obtain ⟨m, hm⟩ : ∃ m, min count ((s.inode f).iSize - pos) = m := ⟨_, rfl⟩
  rw [hm] at hcount hsmall
  have hstart : pos / s.sb.bytesPerCluster * s.sb.bytesPerCluster + pos % s.sb.bytesPerCluster =
      pos := div_add_mod' _ _
  have hend : pos / s.sb.bytesPerCluster * s.sb.bytesPerCluster + pos % s.sb.bytesPerCluster + m ≤
      len f * s.sb.bytesPerCluster := by
    have hsize := h.size f
    omega
  have hloop : readLoop s.sb s.disk (m + 1) (s.cluster f (pos / s.sb.bytesPerCluster))
      (pos % s.sb.bytesPerCluster) m = some ((range' pos m).map (s.byteAt f), 0) := by
    rw [h.readLoop_eq (mod_lt _ h.bytes_pos) hend (lt_succ_self m), hstart]
  rw [contents, arrayRead_map_range, hm]
  rw [State.cluster] at hloop
  simp [State.read, if_neg hfirst, hindex, hcount, toInt_of_lt hsmall, passes_natCast hsmall,
    hloop]

end Read

/-! ## Runs -/

theorem Chains.step {s : State} {len : FileId → Nat} (h : Chains s len) {op : Op}
    (hok : StepOk s op) :
    ∃ out s', step s op = some (out, s') ∧ Chains s' len ∧ Behaves s op out s' := by
  obtain ⟨hok, hsound⟩ := hok
  cases op with
  | write f data position junk =>
    obtain ⟨hfirst, hchain, hin, hentry⟩ := hsound
    have hblock := h.block_lt hok.1 hfirst hchain
    refine ⟨(data.length, []), s.written f data position, ?_, h.written hblock hin, rfl,
      h.contents_self hblock hin hok.1, written_size, fun g hg => h.contents_of_ne hblock hin hg⟩
    simp only [Fat32.step, h.write_eq hok.1 ⟨hfirst, hchain, hin, hentry⟩, bind_eq_bind, bind_some]
  | read f count position =>
    have hread : Fat32.step s (.read f count position) =
        some ((((arrayRead (s.contents f) count position).length : Int),
          arrayRead (s.contents f) count position), s) := by
      simp only [Fat32.step, h.read_eq hsound, bind_eq_bind, bind_some]
    exact ⟨_, s, hread, h, rfl, rfl, rfl⟩

end MyOS2.Fat32
