import AlphaMiner.Lib.Endian

/-!
# UTF-8 (`compat/jansson/utf.c`)

The characters of the JSON library. A string is the bytes in front of its
terminator, so a byte that is read behind them is the terminator, and the loops
that read continuation bytes end there. `int32_t` is a natural number where it
cannot be negative.
-/

namespace AlphaMiner.Jansson

open Lib

/-- The bytes that are written, or `none` for the answer -1. -/
def utf8Encode (codepoint : Int) : Option Bytes :=
  let c := codepoint.toNat
  if codepoint < 0 then none
  else if c < 0x80 then some [UInt8.ofNat c]
  else if c < 0x800 then
    some [UInt8.ofNat (0xC0 + ((c &&& 0x7C0) >>> 6)), UInt8.ofNat (0x80 + (c &&& 0x03F))]
  else if c < 0x10000 then
    some [UInt8.ofNat (0xE0 + ((c &&& 0xF000) >>> 12)),
      UInt8.ofNat (0x80 + ((c &&& 0x0FC0) >>> 6)), UInt8.ofNat (0x80 + (c &&& 0x003F))]
  else if c ≤ 0x10FFFF then
    some [UInt8.ofNat (0xF0 + ((c &&& 0x1C0000) >>> 18)),
      UInt8.ofNat (0x80 + ((c &&& 0x03F000) >>> 12)),
      UInt8.ofNat (0x80 + ((c &&& 0x000FC0) >>> 6)), UInt8.ofNat (0x80 + (c &&& 0x00003F))]
  else none

/-- How long the sequence is that a byte begins, and zero for no sequence. -/
def utf8CheckFirst (byte : UInt8) : Nat :=
  if byte < 0x80 then 1
  else if 0x80 ≤ byte ∧ byte ≤ 0xBF then 0
  else if byte = 0xC0 ∨ byte = 0xC1 then 0
  else if 0xC2 ≤ byte ∧ byte ≤ 0xDF then 2
  else if 0xE0 ≤ byte ∧ byte ≤ 0xEF then 3
  else if 0xF0 ≤ byte ∧ byte ≤ 0xF4 then 4
  else 0

/-- The loop over the bytes `buffer[i]` that are left. -/
def utf8CheckFull.loop (buffer : Bytes) : (left i value : Nat) → Option Nat
  | 0, _, value => some value
  | left + 1, i, value =>
      let u := buffer.getD i 0
      if u < 0x80 ∨ 0xBF < u then none
      else utf8CheckFull.loop buffer left (i + 1) ((value <<< 6) + (u &&& 0x3F).toNat)

/-- The code point, or `none` for the answer 0. -/
def utf8CheckFull (buffer : Bytes) (size : Nat) : Option Nat :=
  let u := buffer.getD 0 0
  let first? :=
    if size = 2 then some (u &&& 0x1F).toNat
    else if size = 3 then some (u &&& 0xF).toNat
    else if size = 4 then some (u &&& 0x7).toNat
    else none
  match first?.bind (utf8CheckFull.loop buffer (size - 1) 1) with
  | none => none
  | some value =>
      if 0x10FFFF < value then none
      else if 0xD800 ≤ value ∧ value ≤ 0xDFFF then none
      else if (size = 2 ∧ value < 0x80) ∨ (size = 3 ∧ value < 0x800) ∨
          (size = 4 ∧ value < 0x10000) then none
      else some value

/-- How far the next character is away and its code point, which is not written at the
end of the string. `none` is `NULL`. -/
def utf8Iterate (buffer : Bytes) : Option (Nat × Option Nat) :=
  let c := buffer.headD 0
  if c = 0 then some (0, none)
  else
    let count := utf8CheckFirst c
    if count = 0 then none
    else if count = 1 then some (1, some c.toNat)
    else (utf8CheckFull buffer count).map fun value => (count, some value)

/-- The loop of `utf8_check_string` on what is left of the string. -/
def utf8CheckString.loop : Nat → Bytes → Bool
  | _, [] => true
  | 0, _ :: _ => false
  | fuel + 1, c :: rest =>
      let count := utf8CheckFirst c
      if count = 0 then false
      else if count > 1 then
        if (c :: rest).length < count then false
        else if (utf8CheckFull (c :: rest) count).isNone then false
        else utf8CheckString.loop fuel ((c :: rest).drop count)
      else utf8CheckString.loop fuel rest

/-- `utf8_check_string(string, -1)`. The length that is measured is an `int`, and nothing is
looked at if that is negative. In the last three bytes below 2³¹ the sum `i + count` can
overflow, which is left out. -/
def utf8CheckString (string : Bytes) : Bool :=
  let length := ((string.length : Int).bmod (2 ^ 32)).toNat
  utf8CheckString.loop length (string.take length)

end AlphaMiner.Jansson
