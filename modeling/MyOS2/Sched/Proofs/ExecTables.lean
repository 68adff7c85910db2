import MyOS2.Sched.Proofs.Exec

/-!
# What the new program finds

The strings lie one above the other, so walking their lengths upwards gives back the
address of each. The table of pointers ends below the first string.
-/

namespace MyOS2.Exec

open List

variable {a : Answers} {b : Bprm} {e : Elf} {s : CString} {strs argv envp : List CString}
  {mem : Memory} {p sp : Nat}

/-! ## The loops over the pointers -/

/-- Where the strings start when the first is at `p`. -/
def addresses : Nat → List CString → List Nat
  | _, [] => []
  | p, s :: rest => p :: addresses (p + s.size) rest

theorem addresses_length : (addresses p strs).length = strs.length := by
  induction strs generalizing p with
  | nil => rfl
  | cons s rest ih => rw [addresses, length_cons, ih, length_cons]

theorem wordBytes_length (w : Nat) : (wordBytes w).length = 8 := by
  rw [wordBytes, length_map, length_range]

theorem tableBytes_length (ws : List Nat) : (tableBytes ws).length = 8 * ws.length := by
  induction ws with
  | nil => rfl
  | cons w ws ih =>
    rw [tableBytes, flatMap_cons, length_append, wordBytes_length, length_cons]
    rw [tableBytes] at ih
    omega

theorem auxv_length_le (exec platform : Nat) : (auxv e exec platform).length ≤ 28 := by
  rcases h : e.execfd with _ | fd <;> simp [auxv, auxEntries, h]

/-- What `create_elf_tables` finds: the strings from `bprm->p` on, below the end of the area, with
room for the table under them. -/
structure Prepared (b : Bprm) (filename : CString) (argv envp : List CString) : Prop where
  argc : b.argc = argv.length
  envc : b.envc = envp.length
  exec : b.exec = b.p + totalSize (argv ++ envp)
  held : Holds b.mem b.p (storedAll (argv ++ envp ++ [filename]))
  short : ∀ s ∈ argv ++ envp, s.size ≤ maxArgStrlen
  top : b.p ≤ b.vmEnd
  room : b.vmStart + 8 * (argv.length + envp.length) + 512 ≤ b.p

def table (e : Elf) (b : Bprm) (argv envp : List CString) : List Nat :=
  argv.length :: addresses b.p argv ++ 0 :: (addresses (b.p + totalSize argv) envp ++
    0 :: auxv e b.exec (align16 b.p - elfPlatform.length))

def tableAt (e : Elf) (b : Bprm) : Nat :=
  align16 (align16 b.p - elfPlatform.length
    - 8 * (auxv e b.exec (align16 b.p - elfPlatform.length)).length
    - 8 * ((b.argc + 1) + (b.envc + 1) + 1))

theorem table_length :
    (table e b argv envp).length = argv.length + envp.length + 3
      + (auxv e b.exec (align16 b.p - elfPlatform.length)).length := by
  simp only [table, length_cons, length_append, addresses_length]
  omega

theorem elfPlatform_length : elfPlatform.length = 7 := rfl

theorem align16_le (n : Nat) : align16 n ≤ n := Nat.div_mul_le_self ..

theorem lt_align16 (n : Nat) : n < align16 n + 16 := by
  rw [align16]
  omega

theorem Prepared.bounds {filename : CString} (h : Prepared b filename argv envp) :
    b.vmStart ≤ tableAt e b ∧
      tableAt e b + 8 * (table e b argv envp).length ≤ align16 b.p - elfPlatform.length ∧
      align16 b.p - elfPlatform.length + elfPlatform.length ≤ b.p := by
  rw [table_length, tableAt, h.argc, h.envc]
  have haux := auxv_length_le (e := e) b.exec (align16 b.p - elfPlatform.length)
  generalize (auxv e b.exec (align16 b.p - elfPlatform.length)).length = n at haux
  have hroom := h.room
  have hle := align16_le b.p
  have hlt := lt_align16 b.p
  rw [elfPlatform_length]
  generalize hsp : align16 b.p - 7 - 8 * n - 8 * (argv.length + 1 + (envp.length + 1) + 1) = sp
  have hsple := align16_le sp
  have hsplt := lt_align16 sp
  omega

variable {filename : CString}

def copied (filename : CString) (argv envp : List CString) (mem : Memory) : Bprm :=
  let p := stackTopMax - 8 - totalSize (passed filename argv envp)
  ⟨p, (passedArgv argv).length, envp.length, stackTopMax - 8 - filename.size,
    stackTopMax - pageSize, stackTopMax, putBytes mem p (storedAll (passed filename argv envp))⟩

theorem Prepared.frame (h : Prepared b filename argv envp) {x : Nat}
    (hx : x < b.vmStart ∨ b.vmEnd ≤ x) :
    putBytes (putBytes b.mem (align16 b.p - elfPlatform.length) elfPlatform) (tableAt e b)
      (tableBytes (table e b argv envp)) x = b.mem x := by
  obtain ⟨hlo, hhi, hplat⟩ := h.bounds (e := e)
  rw [← tableBytes_length] at hhi
  have htop := h.top
  rcases hx with hx | hx
  · rw [putBytes_of_lt (by omega), putBytes_of_lt (by omega)]
  · rw [putBytes_of_le (by omega), putBytes_of_le (by omega)]

section

variable (hpage : a.givePage = true) (hlt : ptrSize argv envp < stackLimit)
include hpage hlt

end

end MyOS2.Exec
