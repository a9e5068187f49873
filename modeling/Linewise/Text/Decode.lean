/-
  Bytes as text.

  Well-formed UTF-8 sequences are read one by one. A byte that starts none, together with the
  bytes after it that could still have continued one, is one ill-formed sequence. A strict reader
  refuses it, a lenient one puts U+FFFD in its place.
-/
import Linewise.Text.Basic

namespace Linewise.Utf8

/-- The range the byte after a first byte must lie in, and how many bytes follow the first. -/
def sequence? (first : UInt8) : Option (Nat × UInt8 × UInt8) :=
  if 0xC2 ≤ first && first ≤ 0xDF then some (1, 0x80, 0xBF)
  else if first == 0xE0 then some (2, 0xA0, 0xBF)
  else if first == 0xED then some (2, 0x80, 0x9F)
  else if 0xE1 ≤ first && first ≤ 0xEF then some (2, 0x80, 0xBF)
  else if first == 0xF0 then some (3, 0x90, 0xBF)
  else if 0xF1 ≤ first && first ≤ 0xF3 then some (3, 0x80, 0xBF)
  else if first == 0xF4 then some (3, 0x80, 0x8F)
  else none

/-- `count` more bytes of a sequence, the first of them between `lo` and `hi`: the code point they
    complete, if they do, and how many of them there are. -/
def continuation (acc : Nat) (lo hi : UInt8) : Nat → List UInt8 → Option Nat × Nat
  | 0, _ => (some acc, 0)
  | _ + 1, [] => (none, 0)
  | count + 1, b :: r =>
    if lo ≤ b && b ≤ hi then
      let (point, n) := continuation (acc * 64 + (b.toNat - 0x80)) 0x80 0xBF count r
      (point, n + 1)
    else (none, 0)

/-- The payload of a first byte that is followed by `count` bytes. -/
def payload (first : UInt8) (count : Nat) : Nat :=
  if count == 1 then first.toNat % 32 else if count == 2 then first.toNat % 16 else first.toNat % 8

/-- The sequence that starts with `first`: its character, none if it is ill-formed, and how many
    bytes after `first` it takes. -/
def decodeOne (first : UInt8) (rest : List UInt8) : Option Char × Nat :=
  if first < 0x80 then (some (Char.ofNat first.toNat), 0)
  else
    match sequence? first with
    | some (count, lo, hi) =>
      let (point, n) := continuation (payload first count) lo hi count rest
      (point.map Char.ofNat, n)
    | none => (none, 0)

/-- The characters of a byte sequence, with none for each ill-formed sequence. -/
def scalars (bytes : List UInt8) : List (Option Char) :=
  match bytes with
  | [] => []
  | b :: r => (decodeOne b r).1 :: scalars (r.drop (decodeOne b r).2)
termination_by bytes.length
decreasing_by
  simp only [List.length_drop, List.length_cons]
  omega

/-- The text of well-formed bytes. -/
def decode? (bytes : List UInt8) : Option Text := (scalars bytes).mapM id

/-- The text of any bytes, with U+FFFD for each ill-formed sequence. -/
def decodeLenient (bytes : List UInt8) : Text := (scalars bytes).map (·.getD '�')

end Linewise.Utf8
