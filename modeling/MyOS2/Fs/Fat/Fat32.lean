import MyOS2.Misc.Overwrite
import MyOS2.Misc.Runs
import MyOS2.Misc.Word

/-!
# Reading and writing files on a FAT32 volume (`fs/fat/myos_fat32.c`)

The disk is a function from byte addresses to bytes, and a transfer moves whole
sectors between it and a buffer; transfers and copies from and to the caller's
memory do not fail. `int` variables keep their sign: they are `Int` here and
the loops stop without a result where one would leave its range.
-/

namespace MyOS2.Fat32

abbrev Bytes := Nat → UInt8
abbrev FileId := Nat

/-- `FAT32_SBinfo_s` (`fat32.h:86-104`). -/
structure SbInfo where
  sectorPerCluster : Nat
  bytesPerCluster : Nat
  dataFirstsector : Nat
  fat1Firstsector : Nat
  sectorPerFat : Nat
  numFats : Nat

/-- `i_size` of an inode and its `FAT32_inode_info_s`. -/
structure Inode where
  iSize : Nat
  firstCluster : Nat
  dentryLocation : Nat
  dentryPosition : Nat

/-- A volume, and the inodes of its files in memory. -/
structure State where
  sb : SbInfo
  disk : Bytes
  inode : FileId → Inode

def efault : Int := 14
def enospc : Int := 28

/-- The entry of the last cluster of a file. -/
def endOfChain : Nat := 0x0ffffff8

def sectorSize : Nat := 512

/-- The value an `int` gets from an unsigned one. -/
def toInt (n : Nat) : Int := (BitVec.ofNat 32 n).toInt

/-! ## Transfers -/

section

variable (disk : Bytes) (sector count : Nat) (buffer : Bytes)

def transferRead : Bytes :=
  overwrite buffer 0 (count * sectorSize) fun i => disk (sector * sectorSize + i)

def transferWrite : Bytes :=
  overwrite disk (sector * sectorSize) ((sector + count) * sectorSize)
    fun a => buffer (a - sector * sectorSize)

end

def getLe (b : Bytes) (pos : Nat) : Nat → Nat
  | 0 => 0
  | n + 1 => (b pos).toNat + 256 * getLe b (pos + 1) n

def putLe (b : Bytes) (pos n v : Nat) : Bytes :=
  overwrite b pos (pos + n) fun i => UInt8.ofNat (v / 256 ^ (i - pos))

def zeroed : Bytes := fun _ => 0

/-! ## The table -/

/-- `FAT32_read_FAT_Entry` (`myos_fat32.c:35-42`). -/
def readFatEntry (sb : SbInfo) (disk : Bytes) (fatEntry : Nat) : Nat :=
  let buf := transferRead disk (sb.fat1Firstsector + fatEntry / 128) 1 zeroed
  getLe buf (fatEntry % 128 * 4) 4 % 2 ^ 28

/-- `FAT32_find_available_cluster` (`myos_fat32.c:64-86`). -/
def findAvailableCluster (sb : SbInfo) (disk : Bytes) : Nat :=
  ((List.range (sb.sectorPerFat * 128)).find? fun e => readFatEntry sb disk e = 0).getD 0

def writeFats (sb : SbInfo) (disk : Bytes) (sector : Nat) (buf : Bytes) : Nat → Bytes
  | 0 => disk
  | i + 1 =>
    transferWrite (writeFats sb disk sector buf i)
      (sb.fat1Firstsector + sb.sectorPerFat * i + sector) 1 buf

/-- `FAT32_write_FAT_Entry` (`myos_fat32.c:88-103`). -/
def writeFatEntry (sb : SbInfo) (disk : Bytes) (fatEntry value : Nat) : Bytes :=
  let buf := transferRead disk (sb.fat1Firstsector + fatEntry / 128) 1 zeroed
  let pos := fatEntry % 128 * 4
  let word := getLe buf pos 4 / 2 ^ 28 * 2 ^ 28 + value % 2 ^ 28
  writeFats sb disk (fatEntry / 128) (putLe buf pos 4 word) sb.numFats

def walk (sb : SbInfo) (disk : Bytes) (cluster : Nat) : Nat → Nat
  | 0 => cluster
  | n + 1 => walk sb disk (readFatEntry sb disk cluster) n

/-- The entry that `fat32_write_inode` changes lies in its buffer. It takes `dentry_position` for the
number of an entry, where `FAT32_lookup` (`myos_fat32_namei.c:76`) has stored a byte offset. -/
def EntryInside (sb : SbInfo) (inode : Inode) : Prop :=
  inode.dentryLocation = 0 ∨ (inode.dentryPosition + 1) * 32 ≤ sb.bytesPerCluster

instance (sb : SbInfo) (inode : Inode) : Decidable (EntryInside sb inode) :=
  inferInstanceAs (Decidable (_ ∨ _))

/-- `fat32_write_inode` (`myos_fat32.c:380-408`) for an entry in its buffer. -/
def writeInode (sb : SbInfo) (disk : Bytes) (inode : Inode) : Bytes :=
  if inode.dentryLocation = 0 then disk
  else
    let sector := u64 (sb.dataFirstsector + u64Sub inode.dentryLocation 2 * sb.sectorPerCluster)
    let buf := transferRead disk sector sb.sectorPerCluster zeroed
    let fdentry := inode.dentryPosition * 32
    let starthi := getLe buf (fdentry + 20) 2 / 2 ^ 12 * 2 ^ 12 ||| inode.firstCluster / 2 ^ 16
    let buf := putLe buf (fdentry + 28) 4 inode.iSize
    let buf := putLe buf (fdentry + 26) 2 inode.firstCluster
    let buf := putLe buf (fdentry + 20) 2 starthi
    transferWrite disk sector sb.sectorPerCluster buf

/-! ## Reading -/

/-- How many bytes a pass of either loop moves: `index` is compared as an unsigned number. -/
def passLength (sb : SbInfo) (index : Int) (offset : Nat) : Nat :=
  if 0 ≤ index ∧ index ≤ sb.bytesPerCluster - offset then index.toNat
  else sb.bytesPerCluster - offset

def underflows (index : Int) : Prop := index < -2 ^ 31

instance (index : Int) : Decidable (underflows index) := inferInstanceAs (Decidable (_ < _))

def slice (buffer : Bytes) (offset length : Nat) : List UInt8 :=
  (List.range length).map fun i => buffer (offset + i)

/-- The loop of `FAT32_read` (`myos_fat32.c:111-164`). -/
def readLoop (sb : SbInfo) (disk : Bytes) :
    Nat → Nat → Nat → Int → Option (List UInt8 × Int)
  | 0, _, _, _ => none
  | fuel + 1, cluster, offset, index =>
    let sector := u64 (sb.dataFirstsector + u64Sub cluster 2 * sb.sectorPerCluster)
    let buffer := transferRead disk sector sb.sectorPerCluster zeroed
    let length := passLength sb index offset
    let copied := slice buffer offset length
    let index := index - length
    if underflows index then none
    else if index = 0 then some (copied, index)
    else
      let cluster := readFatEntry sb disk cluster
      if cluster = 0 then some (copied, index)
      else do
        let (rest, index) ← readLoop sb disk fuel cluster 0 index
        some (copied ++ rest, index)

def passes (index : Int) : Nat := (index % 2 ^ 32).toNat + 1

/-- `FAT32_read` (`myos_fat32.c:111-164`): the result and the bytes that the caller's buffer gets.
-/
def State.read (s : State) (f : FileId) (count position : Nat) : Option (Int × List UInt8) :=
  let inode := s.inode f
  if inode.firstCluster = 0 then some (-efault, [])
  else
    let cluster := walk s.sb s.disk inode.firstCluster (toInt (position / s.sb.bytesPerCluster)).toNat
    let count := if inode.iSize < u64 (position + count) then u64Sub inode.iSize position else count
    do
      let (copied, index) ← readLoop s.sb s.disk (passes (toInt count)) cluster
        (position % s.sb.bytesPerCluster) (toInt count)
      some (if index = 0 then count else 0, copied)

/-! ## Writing -/

/-- The variables of the loop in `FAT32_write`; `data` is what `buf` still points to. -/
structure Cursor where
  disk : Bytes
  buffer : Bytes
  cluster : Nat
  sector : Nat
  flags : Bool
  data : List UInt8
  offset : Nat
  index : Int
  position : Nat

/-- How the loop is left: through its end or with `-ENOSPC`. -/
inductive Exit
  | done
  | full

/-- A pass up to the transfer back to the disk. -/
def Cursor.pass (sb : SbInfo) (c : Cursor) : Cursor :=
  let sector :=
    if c.flags then c.sector
    else u64 (sb.dataFirstsector + (c.cluster + 2 ^ 32 - 2) % 2 ^ 32 * sb.sectorPerCluster)
  let buffer := if c.flags then c.buffer else transferRead c.disk sector sb.sectorPerCluster zeroed
  let length := passLength sb c.index c.offset
  let buffer := overwrite buffer c.offset (c.offset + length) fun i => c.data.getD (i - c.offset) 0
  { c with
    disk := transferWrite c.disk sector sb.sectorPerCluster buffer
    buffer := buffer
    sector := sector
    data := c.data.drop length
    offset := 0
    index := c.index - length
    position := c.position + length }

/-- The loop of `FAT32_write` (`myos_fat32.c:166-273`). -/
def writeLoop (sb : SbInfo) : Nat → Cursor → Option (Exit × Cursor)
  | 0, _ => none
  | fuel + 1, c =>
    let c := c.pass sb
    if underflows c.index then none
    else if c.index = 0 then some (.done, c)
    else if readFatEntry sb c.disk c.cluster < endOfChain then writeLoop sb fuel c
    else
      let nextCluster := findAvailableCluster sb c.disk
      if nextCluster = 0 then some (.full, c)
      else
        let disk := writeFatEntry sb c.disk c.cluster nextCluster
        let disk := writeFatEntry sb disk nextCluster endOfChain
        writeLoop sb fuel { c with disk := disk, cluster := nextCluster, flags := true }

namespace State

/-- `FAT32_write` gives the first cluster to an empty file (`myos_fat32.c:166-273`). -/
def setFirst (s : State) (f : FileId) (cluster : Nat) : State :=
  let inode := { s.inode f with firstCluster := cluster }
  let disk := writeInode s.sb s.disk inode
  { s with
    disk := writeFatEntry s.sb disk cluster endOfChain
    inode := Function.update s.inode f inode }

/-- The variables before the loop; `junk` is what the memory of the buffer held. -/
def cursor (s : State) (data : List UInt8) (position cluster : Nat) (flags : Bool)
    (junk : Bytes) : Cursor :=
  { disk := s.disk
    buffer := junk
    cluster := cluster
    sector := 0
    flags := flags
    data := data
    offset := position % s.sb.bytesPerCluster
    index := toInt data.length
    position := position }

section

variable (s : State) (f : FileId)

def writeFrom (data : List UInt8) (c : Cursor) : Option (Int × State) := do
  let (exit, c) ← writeLoop s.sb (passes c.index) c
  match exit with
  | .full => some (-enospc, { s with disk := c.disk })
  | .done =>
    let ret := if c.index = 0 then (data.length : Int) else 0
    if (s.inode f).iSize < c.position then
      let inode := { s.inode f with iSize := c.position }
      if EntryInside s.sb inode then
        some (ret, { s with
          disk := writeInode s.sb c.disk inode
          inode := Function.update s.inode f inode })
      else none
    else some (ret, { s with disk := c.disk })

/-- `FAT32_write` (`myos_fat32.c:166-273`). -/
def write (data : List UInt8) (position : Nat) (junk : Bytes) : Option (Int × State) :=
  let first := (s.inode f).firstCluster % 2 ^ 32
  if first = 0 then
    let cluster := findAvailableCluster s.sb s.disk
    if cluster = 0 then some (-enospc, s)
    else if EntryInside s.sb (s.inode f) then
      let s := s.setFirst f cluster
      s.writeFrom f data (s.cursor data position cluster true junk)
    else none
  else
    let cluster := walk s.sb s.disk first (toInt (position / s.sb.bytesPerCluster)).toNat
    if cluster = 0 then some (-enospc, s)
    else s.writeFrom f data (s.cursor data position cluster false junk)

/-! ## Files as byte arrays -/

def cluster (i : Nat) : Nat :=
  walk s.sb s.disk (s.inode f).firstCluster i

end

end State

def SbInfo.address (sb : SbInfo) (cluster : Nat) : Nat :=
  (sb.dataFirstsector + (cluster - 2) * sb.sectorPerCluster) * sectorSize

namespace State

def byteAt (s : State) (f : FileId) (i : Nat) : UInt8 :=
  s.disk (s.sb.address (s.cluster f (i / s.sb.bytesPerCluster)) + i % s.sb.bytesPerCluster)

def contents (s : State) (f : FileId) : List UInt8 :=
  (List.range (s.inode f).iSize).map (s.byteAt f)

end State

/-- What a write to an array of bytes is: the bytes from `position` on are replaced, past the end
too. -/
def arrayWrite (array : List UInt8) (data : List UInt8) (position : Nat) : List UInt8 :=
  array.take position ++ data ++ array.drop (position + data.length)

def arrayRead (array : List UInt8) (count position : Nat) : List UInt8 :=
  (array.drop position).take count

/-- A volume on which file `f` has `len f` clusters: chains do not close, no cluster is in two
chains or in a directory, and the tables lie before the data. -/
structure Chains (s : State) (len : FileId → Nat) : Prop where
  sectors : 0 < s.sb.sectorPerCluster
  bytes : s.sb.bytesPerCluster = s.sb.sectorPerCluster * sectorSize
  small : s.sb.bytesPerCluster < 2 ^ 31
  numFats : 0 < s.sb.numFats
  tables : s.sb.fat1Firstsector + s.sb.sectorPerFat * s.sb.numFats ≤ s.sb.dataFirstsector
  addresses : s.sb.dataFirstsector + 2 ^ 28 * s.sb.sectorPerCluster ≤ 2 ^ 64
  first : ∀ f, (s.inode f).firstCluster = 0 ↔ len f = 0
  cluster : ∀ f, ∀ i < len f, 2 ≤ s.cluster f i ∧ s.cluster f i < endOfChain ∧
    s.cluster f i / 128 < s.sb.sectorPerFat
  last : ∀ f, 0 < len f → endOfChain ≤ s.cluster f (len f)
  distinct : ∀ f g i j, i < len f → j < len g → s.cluster f i = s.cluster g j → f = g ∧ i = j
  size : ∀ f, (s.inode f).iSize ≤ len f * s.sb.bytesPerCluster
  dentry : ∀ f, (s.inode f).dentryLocation = 0 ∨
    2 ≤ (s.inode f).dentryLocation ∧ (s.inode f).dentryLocation < endOfChain ∧
      ∀ g, ∀ i < len g, s.cluster g i ≠ (s.inode f).dentryLocation

def WellFormed (s : State) : Prop := ∃ len, Chains s len

/-- A call; `junk` is what `kmalloc` leaves in the buffer. -/
inductive Op
  | write (f : FileId) (data : List UInt8) (position : Nat) (junk : Bytes)
  | read (f : FileId) (count position : Nat)

/-- A call gives back its result and the bytes it copied to the caller. -/
def step (s : State) : Op → Option ((Int × List UInt8) × State)
  | .write f data position junk => do
    let (ret, s') ← s.write f data position junk
    some ((ret, []), s')
  | .read f count position => do
    let out ← s.read f count position
    some (out, s)

/-- A write begins inside the file or at its end; sizes and positions are 64-bit. -/
def Ok (s : State) : Op → Prop
  | .write f data position _ => position ≤ (s.inode f).iSize ∧ data.length < 2 ^ 64
  | .read _ count position => count < 2 ^ 64 ∧ position < 2 ^ 63

instance (s : State) (op : Op) : Decidable (Ok s op) := by
  cases op <;> exact inferInstanceAs (Decidable (_ ∧ _))

/-- The calls that the loops are right for. A write stays inside one cluster of the file: the loop
does not follow the chain, and with a new cluster it keeps the old `sector`. If the file grows, its
directory entry is found. A read begins inside the file, which has a cluster, with a number of bytes
that is an `int`. -/
def Sound (s : State) : Op → Prop
  | .write f data position _ =>
    (s.inode f).firstCluster ≠ 0 ∧
      s.cluster f (position / s.sb.bytesPerCluster) < endOfChain ∧
      position % s.sb.bytesPerCluster + data.length ≤ s.sb.bytesPerCluster ∧
      ((s.inode f).iSize < position + data.length → EntryInside s.sb (s.inode f))
  | .read f count position =>
    (s.inode f).firstCluster ≠ 0 ∧ position ≤ (s.inode f).iSize ∧ position + count < 2 ^ 64 ∧
      min count ((s.inode f).iSize - position) < 2 ^ 31

def StepOk (s : State) (op : Op) : Prop := Ok s op ∧ Sound s op

/-- The call does to the files what it would do to arrays of bytes. -/
def Behaves (s : State) : Op → (Int × List UInt8) → State → Prop
  | .write f data position _, out, s' =>
    out.1 = data.length ∧ s'.contents f = arrayWrite (s.contents f) data position ∧
      (s'.inode f).iSize = max (s.inode f).iSize (position + data.length) ∧
      ∀ g, g ≠ f → s'.contents g = s.contents g
  | .read f count position, out, s' =>
    out.2 = arrayRead (s.contents f) count position ∧ out.1 = out.2.length ∧ s' = s

end MyOS2.Fat32
