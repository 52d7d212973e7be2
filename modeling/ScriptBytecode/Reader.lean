/-
Module: ScriptBytecode.Reader
Purpose: Reading little-endian values off a blob. A reader moves over the bytes that are left and keeps the
  offset of the next one; when it fails, the place it stopped at is kept as well.
Main exports: DecodeError, DecodeError.message, Input, Reader, Reader.take, Reader.byte, Reader.word,
  Reader.dword, Reader.int, Reader.single, Reader.compactIndex, Reader.ansiString, Reader.wideString
-/
import ScriptBytecode.Single
import ScriptBytecode.Text.Hex
import ScriptBytecode.Text.Utf16

namespace ScriptBytecode

/-- Why bytes could not be read. Offsets are storage offsets. -/
inductive DecodeError where
  | truncated (offset wanted : Nat)
  | unterminatedString (offset : Nat)
  | invalidCompactIndex (offset : Nat)
  | nestingTooDeep (offset : Nat)
deriving Repr, Inhabited, DecidableEq

namespace DecodeError

/-- Where reading stopped. -/
def offset : DecodeError → Nat
  | .truncated offset _ | .unterminatedString offset | .invalidCompactIndex offset
  | .nestingTooDeep offset => offset

/-- Text of an error. -/
def message : DecodeError → String
  | .truncated offset wanted =>
    s!"unexpected end of code at {Text.address offset} (wanted {wanted} bytes)"
  | .unterminatedString offset => s!"unterminated string at {Text.address offset}"
  | .invalidCompactIndex offset => s!"invalid compact index at {Text.address offset}"
  | .nestingTooDeep offset => s!"operands nested too deeply at {Text.address offset}"

end DecodeError

/-- What is left of a blob, and the offset of its first byte. -/
structure Input where
  offset : Nat
  rest : List UInt8
deriving Repr, Inhabited, DecidableEq

/-- A whole blob. -/
def Input.ofBytes (bytes : List UInt8) : Input := ⟨0, bytes⟩

/-- Reads a value off an input. -/
abbrev Reader := EStateM DecodeError Input

/-- The number whose digits to base 256 are the given bytes, the lowest first. -/
def littleEndian : List UInt8 → Nat
  | [] => 0
  | byte :: rest => byte.toNat + 256 * littleEndian rest

/-- The first `n` elements and the others, if there are that many. -/
def splitExactly {α : Type} : Nat → List α → Option (List α × List α)
  | 0, rest => some ([], rest)
  | _ + 1, [] => none
  | n + 1, x :: rest => (splitExactly n rest).map fun (taken, left) => (x :: taken, left)

/-- The UTF-16 units up to a zero unit, and what follows it. Without a zero unit nothing follows, and a last
    single byte is dropped. -/
def splitUnits : List UInt8 → List UInt16 × Option (List UInt8)
  | low :: high :: rest =>
    let unit := UInt16.ofNat (littleEndian [low, high])
    if unit = 0 then ([], some rest)
    else
      let (units, left) := splitUnits rest
      (unit :: units, left)
  | _ => ([], none)

namespace Reader

/-- The next byte, without moving. -/
def peek : Reader (Option UInt8) := return (← get).rest.head?

/-- The next `n` bytes. Nothing is read when there are fewer. -/
def take (n : Nat) : Reader (List UInt8) := fun input =>
  match splitExactly n input.rest with
  | some (bytes, rest) => .ok bytes ⟨input.offset + n, rest⟩
  | none => .error (.truncated input.offset n) input

/-- One byte. -/
def byte : Reader UInt8 := fun input =>
  match input.rest with
  | next :: rest => .ok next ⟨input.offset + 1, rest⟩
  | [] => .error (.truncated input.offset 1) input

/-- Two bytes, unsigned. -/
def word : Reader UInt16 := return UInt16.ofNat (littleEndian (← take 2))

/-- Four bytes, unsigned. -/
def dword : Reader UInt32 := return UInt32.ofNat (littleEndian (← take 4))

/-- Four bytes, signed. -/
def int : Reader Int32 := return (← dword).toInt32

/-- Four bytes, a single-precision number. -/
def single : Reader Single := return ⟨← dword⟩

/-- The higher digits of a compact index: seven bits a byte, the lowest first, for as long as the high bit
    is set, in at most `left` bytes. `scale` is the value of the lowest of these bits. -/
def compactTail (start : Nat) : (left scale : Nat) → Reader Nat
  | 0, _ => throw (.invalidCompactIndex start)
  | left + 1, scale => do
    let next ← byte
    let digit := next.toNat % 0x80 * scale
    if 0x80 ≤ next.toNat then
      return digit + (← compactTail start left (scale * 0x80))
    else
      return digit

/-- The magnitude of a compact index with a given first byte, which holds its six lowest bits and says whether more
    follow. -/
def compactMagnitude (start : Nat) (first : UInt8) : Reader Nat :=
  let low := first.toNat % 0x40
  if 0x40 ≤ first.toNat % 0x80 then return low + (← compactTail start 4 0x40) else return low

/-- A magnitude with the sign that the first byte of a compact index holds. -/
def compactValue (start : Nat) (first : UInt8) (magnitude : Nat) : Reader Int32 :=
  if 0x7FFFFFFF < magnitude then throw (.invalidCompactIndex start)
  else if 0x80 ≤ first.toNat then return Int32.ofInt (-(magnitude : Int))
  else return Int32.ofNat magnitude

/-- Variable-length signed index. The first byte holds the sign, a continuation bit and six bits of the
    magnitude; up to four more hold seven bits each. -/
def compactIndex : Reader Int32 := do
  let start := (← get).offset
  let first ← byte
  let magnitude ← compactMagnitude start first
  compactValue start first magnitude

/-- Single-byte characters up to a zero byte, and the number of bytes read. -/
def ansiString : Reader (String × Nat) := fun input =>
  match input.rest.span (· != 0) with
  | (text, _ :: rest) =>
    .ok (String.ofList (text.map fun b => Char.ofNat b.toNat), text.length + 1)
      ⟨input.offset + text.length + 1, rest⟩
  | (_, []) => .error (.unterminatedString input.offset) input

/-- UTF-16 units up to a zero unit, and the number of bytes read. Without a zero unit the whole units that
    are there have been read. -/
def wideString : Reader (String × Nat) := fun input =>
  match splitUnits input.rest with
  | (units, some rest) =>
    .ok (String.ofList (Text.decodeUnits units), 2 * (units.length + 1))
      ⟨input.offset + 2 * (units.length + 1), rest⟩
  | (units, none) =>
    .error (.unterminatedString input.offset)
      ⟨input.offset + 2 * units.length, input.rest.drop (2 * units.length)⟩

end Reader

end ScriptBytecode
