import Mathlib.Data.List.Chain

/-!
# Scan codes (`arch/x86_64/myos/keyboard.c`)

With every call `kbd_parse_scancode` takes the codes of one sequence from the keyboard. A
sequence that is not what its start promised falls through to the plain keys.
-/

namespace MyOS2.Keyboard

open List

/-- `shift_l` and the flags next to it. -/
structure Held where
  (shiftL shiftR ctrlL ctrlR altL altR : Bool)
  deriving DecidableEq

/-- The modifiers after a code of one byte, in `kbd_parse_scancode` (`keyboard.c:145-257`). -/
def Held.plain (held : Held) (x : UInt8) : Held :=
  let make := x &&& 0x80 == 0
  match x &&& 0x7F with
  | 0x2A => { held with shiftL := make }
  | 0x36 => { held with shiftR := make }
  | 0x1D => { held with ctrlL := make }
  | 0x38 => { held with altL := make }
  | _ => held

/-- A key with `E0` in front goes down or up. -/
def Held.extended (held : Held) : UInt8 → Held
  | 0x1D => { held with ctrlR := true }
  | 0x9D => { held with ctrlR := false }
  | 0x38 => { held with altR := true }
  | 0xB8 => { held with altR := false }
  | _ => held

/-- The columns of `keycode_map_normal`, for a code and whether there is a shift. -/
abbrev Map := UInt8 → Bool → UInt8

/-- The character of a plain key; a modifier and a key that goes up have none. -/
def Map.char (map : Map) (held : Held) (x : UInt8) : UInt8 :=
  if x &&& 0x7F ∈ [0x2A, 0x36, 0x1D, 0x38] ∨ x &&& 0x80 ≠ 0 then 0
  else map (x &&& 0x7F) (held.shiftL || held.shiftR)

/-- Codes are taken while they are the given ones. `none` is for a call that waits. -/
def expect : List UInt8 → List UInt8 → Option (Bool × List UInt8)
  | [], input => some (true, input)
  | _ :: _, [] => none
  | c :: cs, x :: input => if x = c then expect cs input else some (false, input)

/-- The code that has to follow, behind `E0`, when this one comes from print screen. -/
def printScreen : UInt8 → Option UInt8
  | 0x2A => some 0x37
  | 0xB7 => some 0xAA
  | _ => none

def pausebreakScode : List UInt8 := [0xE1, 0x1D, 0x45, 0xE1, 0x9D, 0xC5]

/-- What a call leaves: the key, whether the code was read as a plain key, the flags, and the codes
behind. -/
structure Call where
  key : UInt8
  plain : Bool
  held : Held
  rest : List UInt8

/-- The end of the call; `key` is 0 when the codes did not match. -/
def finish (map : Map) (held : Held) (x key : UInt8) : Bool × List UInt8 → Call
  | (true, rest) => ⟨key, false, held, rest⟩
  | (false, rest) => ⟨map.char held x, true, held.plain x, rest⟩

/-- `kbd_parse_scancode` (`keyboard.c:145-257`). -/
def kbdParseScancode (map : Map) (held : Held) : List UInt8 → Option Call
  | [] => none
  | 0xE1 :: input => (expect pausebreakScode.tail input).map (finish map held 0xE1 1)
  | [0xE0] => none
  | 0xE0 :: x :: input =>
    match printScreen x with
    | some c => (expect [0xE0, c] input).map (finish map held x 2)
    | none => some ⟨4, false, held.extended x, input⟩
  | x :: input => some (finish map held x 0 (false, input))

/-- Calls until one waits: the flags, and for each plain key how many codes were left and the
character. -/
def run (map : Map) : Nat → Held → List UInt8 → Held × List (Nat × UInt8)
  | 0, held, _ => (held, [])
  | n + 1, held, input =>
    match kbdParseScancode map held input with
    | none => (held, [])
    | some call =>
      let (held, keys) := run map n call.held call.rest
      (held, if call.plain then (input.length, call.key) :: keys else keys)

/-! ## What the keyboard sends -/

/-- A key goes down or up, with a fake shift like a key of its own. Print screen is `E0 2A E0 37`
and `E0 B7 E0 AA`. -/
inductive Sequence
  | plain (x : UInt8) (h : x ≠ 0xE0 ∧ x ≠ 0xE1)
  | extended (x : UInt8)
  | pause
  deriving DecidableEq

def Sequence.codes : Sequence → List UInt8
  | .plain x _ => [x]
  | .extended x => [0xE0, x]
  | .pause => pausebreakScode

def codes (seqs : List Sequence) : List UInt8 := seqs.flatMap Sequence.codes

/-- The keys that are held in the end, and the characters of the plain keys. -/
def typed (map : Map) : Held → List Sequence → Held × List (Nat × UInt8)
  | held, [] => (held, [])
  | held, .plain x h :: seqs =>
    let (held', keys) := typed map (held.plain x) seqs
    (held', ((codes (.plain x h :: seqs)).length, map.char held x) :: keys)
  | held, .extended x :: seqs => typed map (held.extended x) seqs
  | held, .pause :: seqs => typed map held seqs

/-- The flags are those of the keys that are held, and nothing else is read as a plain key. -/
def Tracks (map : Map) (held : Held) (seqs : List Sequence) : Prop :=
  run map (codes seqs).length held (codes seqs) = typed map held seqs

/-- What starts like print screen goes on like it. -/
def Sequence.Follows : Sequence → Sequence → Prop
  | .extended x, s => ∀ c ∈ printScreen x, s = .extended c
  | _, _ => True

variable {map : Map} {held held' : Held} {seqs : List Sequence} {s : Sequence} {n : Nat}
  {x c key : UInt8} {plain : Bool} {input rest : List UInt8}

end MyOS2.Keyboard
