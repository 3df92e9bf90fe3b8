import AlphaMiner.Lib.CSearch
import AlphaMiner.Model.JsonNumbers

/-!
# The memory of `hack_json_numbers` (`util.c`)

The function once more with its two blocks and its three indices, for both ways in
which it can be built. `in` is read byte by byte up to its terminator, and `out` is
cleared memory of `2 * strlen(in) + 1` bytes. `i`, `off` and `intoff` are of type `int`,
and an increment past `INT_MAX` has no result. Neither has an access outside of a block.
-/

namespace AlphaMiner

open Lib

/-- How a number that is too big is told. -/
inductive NumberTest where
  | strtoll
  | strtol (long : LongWidth)

/-- The test on the string at `out + intoff`. -/
def NumberTest.tooBig : NumberTest → Bytes → Bool
  | .strtoll, s =>
      let l := AlphaMiner.strtol .bits64 s
      l.rest = [] && l.erange
  | .strtol long, s =>
      let l := AlphaMiner.strtol long s
      l.rest = [] && (l.erange || decide (l.value > intMax))

namespace HackJsonNumbers

structure Locals where
  out : Bytes
  i : Nat
  off : Nat
  intoff : Nat
  inStr : Bool
  inInt : Bool

/-- `out[off++] = c`. -/
def Locals.put (l : Locals) (c : UInt8) : Option Locals := do
  let out ← store? l.out l.off [c]
  let off ← increment l.off
  some { l with out := out, off := off }

/-- The end of a round: `out[off++] = in[i]`, and `i++`. -/
def Locals.advance (input : Bytes) (l : Locals) : Option Locals := do
  let l ← l.put (← input[l.i]?)
  let i ← increment l.i
  some { l with i := i }

/-- What ends a number. -/
def Locals.endNumber (test : NumberTest) (l : Locals) : Option Locals :=
  let l := { l with inInt := false }
  if l.off - l.intoff > 4 then do
    if test.tooBig (← str? (l.out.drop l.intoff)) then
      let l ← l.put 46
      l.put 48
    else some l
  else some l

def Locals.loop (test : NumberTest) (input : Bytes) : Nat → Locals → Option Locals
  | 0, _ => none
  | fuel + 1, l => do
      let c ← input[l.i]?
      if c = 0 then some l
      else if c = 34 then
        Locals.loop test input fuel (← Locals.advance input { l with inStr := !l.inStr })
      else if c = 92 then
        let l ← l.put c
        let i ← increment l.i
        let l := { l with i := i }
        if (← input[i]?) = 0 then some l
        else Locals.loop test input fuel (← l.advance input)
      else if !l.inStr && !l.inInt && isdigit c then
        Locals.loop test input fuel
          (← Locals.advance input { l with intoff := l.off, inInt := true })
      else if l.inInt && !isdigit c then
        if c ≠ 46 ∧ c ≠ 101 ∧ c ≠ 69 ∧ c ≠ 43 ∧ c ≠ 45 then
          Locals.loop test input fuel (← (← l.endNumber test).advance input)
        else Locals.loop test input fuel (← l.advance input)
      else Locals.loop test input fuel (← l.advance input)

/-- The block that is returned for a string. -/
def block (test : NumberTest) (text : Bytes) : Option Bytes :=
  (Locals.loop test (text ++ [0]) (text.length + 1)
    ⟨.replicate (2 * text.length + 1) 0, 0, 0, 0, false, false⟩).map Locals.out

end HackJsonNumbers

end AlphaMiner
