import Mathlib.Algebra.Group.Nat.Defs
import Mathlib.Algebra.Ring.Int.Defs
import MyOS2.Misc.Bytes

/-!
# Vectored writes (`fs/vfs/read_write.c`)

`vfs_writev` hands one buffer after the other to the `write` of the file and adds
up what it gets back. A `write` stores as much of the buffer as it says and moves
the position behind it; one that fails may have done so with a part of the buffer.
-/

namespace MyOS2.Writev

open Option List

/-- What a call of `f_op->write` for so many bytes comes to. `FAT32_write` (`myos_fat32.c:166-273`)
has stored the clusters before the one that it finds no room for, or cannot read or write. -/
inductive Outcome (len : Nat)
  | wrote (n : Nat) (h : n ≤ len)
  | failed (n : Nat) (h : n ≤ len) (errno : Nat) (hpos : 0 < errno)

/-- The bytes of an `iov_s`, and what comes of writing them. -/
structure Piece where
  data : List UInt8
  outcome : Outcome data.length

namespace Piece

def error (p : Piece) : Option Int :=
  match p.outcome with
  | .wrote .. => none
  | .failed _ _ errno _ => some (-errno)

def stored (p : Piece) : List UInt8 :=
  match p.outcome with
  | .wrote n _ | .failed n _ _ _ => p.data.take n

def ret (p : Piece) : Int := p.error.getD p.stored.length

def Full (p : Piece) : Prop := p.ret = p.data.length

instance (p : Piece) : Decidable p.Full := inferInstanceAs (Decidable (_ = _))

end Piece

/-- A `file_s`, and what it holds; `writable` is `FMODE_WRITE`. -/
structure File where
  writable : Bool
  fPos : Nat
  bytes : Nat → UInt8

/-- The variables of `vfs_writev`; `calls` counts the calls of `write`. -/
structure Loop where
  ret : Int
  pos : Nat
  bytes : Nat → UInt8
  calls : Nat

def ebadf : Int := 9

def Loop.write (s : Loop) (p : Piece) : Loop where
  ret := s.ret + p.ret
  pos := s.pos + p.stored.length
  bytes := putBytes s.bytes s.pos p.stored
  calls := s.calls + 1

/-- `vfs_writev` (`read_write.c:340-383`). The counter `i` is an `int`, and the position a `loff_t`.
-/
def vfsWritev (f : File) (vec : List Piece) : Option Loop :=
  if f.writable then
    let s := vec.foldl Loop.write ⟨0, f.fPos, f.bytes, 0⟩
    if vec.length < 2 ^ 31 ∧ s.pos < 2 ^ 63 then some s else none
  else some ⟨-ebadf, f.fPos, f.bytes, 0⟩

/-- `do_writev` (`385-407`) on the file of a descriptor: the result, the file afterwards and the number
of calls of `write`. -/
def doWritev (f : File) (vec : List Piece) : Option (Int × File × Nat) := do
  let s ← vfsWritev f vec
  some (s.ret, { f with fPos := if 0 ≤ s.ret then s.pos else f.fPos, bytes := s.bytes }, s.calls)

/-- The pieces up to the first that is not written in full. -/
def upToStop : List Piece → List Piece
  | [] => []
  | p :: ps => if p.Full then p :: upToStop ps else [p]

/-- The bytes that were stored are the first ones of all the buffers, and the result is their number
or, if there are none, the first error. -/
def Reports (f : File) (vec : List Piece) (ret : Int) (f' : File) : Prop :=
  let n := (vec.flatMap Piece.stored).length
  f'.bytes = putBytes f.bytes f.fPos ((vec.flatMap Piece.data).take n) ∧
    f'.fPos = f.fPos + n ∧ (ret = n ∨ n = 0 ∧ vec.findSome? Piece.error = some ret)

/-- What `do_writev` has to do; it stops at a piece that is not written in full. -/
def Concatenates (f : File) (vec : List Piece) : Int × File × Nat → Prop
  | (ret, f', calls) =>
    if f.writable then calls = (upToStop vec).length ∧ Reports f vec ret f'
    else ret = -ebadf ∧ f' = f ∧ calls = 0

/-- No piece but the last is short or fails, and if the last one fails it has stored nothing and
there was nothing to write before it. -/
def Sound (vec : List Piece) : Prop :=
  (∀ p ∈ vec.dropLast, p.Full) ∧
    ∀ p ∈ vec.getLast?, p.error.isSome → p.stored = [] ∧ ∀ q ∈ vec.dropLast, q.data = []

section Pieces

variable {p : Piece} {ps : List Piece}

theorem error_neg {e : Int} (h : p.error = some e) : e < 0 := by
  cases hout : p.outcome with
  | wrote => simp [Piece.error, hout] at h
  | failed n _ errno hpos =>
    simp only [Piece.error, hout, some.injEq] at h
    omega

theorem take_stored (p : Piece) : p.data.take p.stored.length = p.stored := by
  rw [Piece.stored]
  split <;> simp

theorem Piece.Full.eq (h : p.Full) : p.error = none ∧ p.stored = p.data := by
  have hnone : p.error = none := by
    rw [eq_none_iff_forall_ne_some]
    intro e he
    have hneg := error_neg he
    simp only [Piece.Full, Piece.ret, he, getD_some] at h
    omega
  refine ⟨hnone, ?_⟩
  simp only [Piece.Full, Piece.ret, hnone, getD_none, Int.natCast_inj] at h
  rw [← take_stored, h, take_length]

theorem flatMap_stored (h : ∀ p ∈ ps, p.Full) : ps.flatMap Piece.stored = ps.flatMap Piece.data :=
  flatMap_congr fun p hp => (h p hp).eq.2

theorem sum_ret (h : ∀ p ∈ ps, p.Full) :
    (ps.map Piece.ret).sum = ((ps.flatMap Piece.data).length : Int) := by
  induction ps with
  | nil => rfl
  | cons p ps ih =>
    obtain ⟨hp, hps⟩ := forall_mem_cons.mp h
    rw [map_cons, sum_cons, ih hps, hp, flatMap_cons, length_append]
    omega

theorem foldl_write (vec : List Piece) (s : Loop) :
    vec.foldl Loop.write s =
      { ret := s.ret + (vec.map Piece.ret).sum
        pos := s.pos + (vec.flatMap Piece.stored).length
        bytes := putBytes s.bytes s.pos (vec.flatMap Piece.stored)
        calls := s.calls + vec.length } := by
  induction vec generalizing s with
  | nil => simp
  | cons p vec ih =>
    rw [foldl_cons, ih, Loop.write]
    simp only [putBytes_append', map_cons, sum_cons, flatMap_cons,
      length_append, length_cons, Loop.mk.injEq, true_and]
    omega

theorem length_upToStop (vec : List Piece) :
    vec.length = (upToStop vec).length ↔ ∀ p ∈ vec.dropLast, p.Full := by
  induction vec with
  | nil => simp [upToStop]
  | cons p vec ih =>
    rw [upToStop]
    cases vec with
    | nil => split <;> simp [upToStop]
    | cons q vec =>
      rw [dropLast_cons_cons, forall_mem_cons, ← ih]
      split <;> simp [*]

theorem findSome?_error (h : ∀ p ∈ ps, p.Full) (p : Piece) :
    (ps ++ [p]).findSome? Piece.error = p.error := by
  have hnone : ps.findSome? Piece.error = none :=
    findSome?_eq_none_iff.mpr fun q hq => (h q hq).eq.1
  rw [findSome?_append, hnone, none_or]
  cases hp : p.error <;> simp [hp]

end Pieces

def written (f : File) (vec : List Piece) : Int × File :=
  let s := vec.foldl Loop.write ⟨0, f.fPos, f.bytes, 0⟩
  (s.ret, { f with fPos := if 0 ≤ s.ret then s.pos else f.fPos, bytes := s.bytes })

/-- If every piece but the last is written in full, the last one may only fail when nothing has been
stored. -/
theorem reports_append_iff (f : File) {ps : List Piece} (hfull : ∀ q ∈ ps, q.Full) (p : Piece) :
    Reports f (ps ++ [p]) (written f (ps ++ [p])).1 (written f (ps ++ [p])).2 ↔
      (p.error.isSome → p.stored = [] ∧ ∀ q ∈ ps, q.data = []) := by
  simp only [Reports, written, foldl_write, map_append, sum_append, sum_ret hfull,
    flatMap_append, flatMap_stored hfull, findSome?_error hfull, map_singleton,
    sum_singleton, flatMap_singleton, length_append, Int.zero_add]
  generalize hD : ps.flatMap Piece.data = D
  rw [take_length_add_append, take_stored]
  cases he : p.error with
  | none =>
    have hret : p.ret = p.stored.length := by rw [Piece.ret, he, getD_none]
    refine iff_of_true ⟨rfl, ?_, .inl ?_⟩ (by simp)
    · rw [hret, if_pos (by omega)]
    · rw [hret]
      omega
  | some e =>
    have hneg := error_neg he
    have hret : p.ret = e := by rw [Piece.ret, he, getD_some]
    have hempty : (∀ q ∈ ps, q.data = []) ↔ D = [] := by rw [← hD, flatMap_eq_nil_iff]
    rw [hret, hempty, ← length_eq_zero_iff, ← length_eq_zero_iff]
    simp only [some.injEq, true_and, isSome_some, forall_const]
    constructor
    · -- the position is behind all that was stored, or where it was
      rintro ⟨hpos, hn⟩
      split at hpos <;> omega
    · rintro ⟨hnone, hzero⟩
      rw [hnone, hzero, if_neg (by omega)]
      exact ⟨rfl, .inr ⟨rfl, by omega⟩⟩

/-- `do_writev` writes the concatenation of the buffers exactly where `Sound` holds of what comes of
the pieces. -/
theorem concatenates_iff_sound (f : File) (vec : List Piece) :
    (∃ out, doWritev f vec = some out ∧ Concatenates f vec out) ↔
      (f.writable = true → (vec.length < 2 ^ 31 ∧
        f.fPos + (vec.flatMap Piece.stored).length < 2 ^ 63) ∧ Sound vec) := by
  cases hf : f.writable with
  | false =>
    refine iff_of_true ⟨(-ebadf, f, 0), ?_, ?_⟩ (by simp)
    · rw [doWritev, vfsWritev, if_neg (by simp [hf])]
      rfl
    · simp [Concatenates, hf]
  | true =>
    have hpos : (vec.foldl Loop.write ⟨0, f.fPos, f.bytes, 0⟩).pos =
        f.fPos + (vec.flatMap Piece.stored).length := by rw [foldl_write]
    by_cases hfits : vec.length < 2 ^ 31 ∧ f.fPos + (vec.flatMap Piece.stored).length < 2 ^ 63
    · have hcall : doWritev f vec = some ((written f vec).1, (written f vec).2, vec.length) := by
        have hcalls : (vec.foldl Loop.write ⟨0, f.fPos, f.bytes, 0⟩).calls = vec.length := by
          rw [foldl_write, Nat.zero_add]
        rw [doWritev, vfsWritev, if_pos hf, if_pos (hpos ▸ hfits), ← hcalls]
        rfl
      simp only [hcall, some.injEq, exists_eq_left', Concatenates, hf, if_true,
        length_upToStop, hfits, true_and, forall_const, Sound]
      refine and_congr_right fun hfull => ?_
      rcases eq_nil_or_concat' vec with rfl | ⟨ps, p, rfl⟩
      · simp [Reports, written]
      · rw [dropLast_concat] at hfull
        simpa using reports_append_iff f hfull p
    · refine iff_of_false ?_ fun h => hfits (h rfl).1
      rw [doWritev, vfsWritev, if_pos hf, if_neg (hpos ▸ hfits)]
      simp

/-- Three bytes are written, and the next piece fails with `-ENOSPC`: the result is neither, and the
position stays in front of what was stored. -/
theorem failed_piece_subtracted :
    ∃ out, doWritev ⟨true, 0, fun _ => 0⟩
        [⟨[1, 2, 3], .wrote 3 (by decide)⟩, ⟨[4], .failed 0 (by decide) 28 (by decide)⟩] = some out ∧
      out.1 = -25 ∧ out.2.1.bytes 0 = 1 ∧ out.2.1.fPos = 0 ∧
      ¬ Concatenates ⟨true, 0, fun _ => 0⟩
        [⟨[1, 2, 3], .wrote 3 (by decide)⟩, ⟨[4], .failed 0 (by decide) 28 (by decide)⟩] out := by
  refine ⟨_, rfl, rfl, rfl, rfl, ?_⟩
  rintro ⟨-, -, -, hn | ⟨hn, -⟩⟩
  · exact absurd hn (by decide)
  · exact absurd hn (by decide)

end MyOS2.Writev
