import AlphaMiner.Model.Util

/-!
# Big numbers in a JSON text (`hack_json_numbers`, `util.c`)

The text in front of its terminator is a list. So is what has been written of
`out`, which is cleared memory behind it: a string that begins in `out` ends where
the list does. Without `JSON_INTEGER_IS_LONG_LONG` the numbers are read by `strtol`.
-/

namespace AlphaMiner

open Lib

/-- How wide a `long` is. -/
inductive LongWidth where
  | bits32
  | bits64

def LongWidth.max : LongWidth → Int
  | .bits32 => 2 ^ 31 - 1
  | .bits64 => 2 ^ 63 - 1

def isdigit (c : UInt8) : Bool := 48 ≤ c && c ≤ 57

structure Strtol where
  value : Int
  erange : Bool
  /-- The string at `*end`. -/
  rest : Bytes

/-- `strtol(s, &end, 10)`. -/
def strtol (long : LongWidth) (s : Bytes) : Strtol :=
  let t := s.dropWhile isSpace
  let digits := if t.head? = some 45 ∨ t.head? = some 43 then t.tail else t
  let value : Int := if t.head? = some 45 then -digitsValue digits else digitsValue digits
  if (digits.head?.any isdigit) = false then ⟨0, false, s⟩
  else if long.max < value then ⟨long.max, true, digits.dropWhile isdigit⟩
  else if value < -long.max - 1 then ⟨-long.max - 1, true, digits.dropWhile isdigit⟩
  else ⟨value, false, digits.dropWhile isdigit⟩

namespace HackJsonNumbers

structure State where
  out : Bytes
  inStr : Bool
  inInt : Bool
  intoff : Nat

def State.off (st : State) : Nat := st.out.length

def State.put (st : State) (c : UInt8) : State := { st with out := st.out ++ [c] }

/-- What ends a number also settles it. -/
def endNumber (long : LongWidth) (st : State) : State :=
  let st := { st with inInt := false }
  if st.off - st.intoff > 4 then
    let l := strtol long (st.out.drop st.intoff)
    if l.rest = [] ∧ (l.erange = true ∨ l.value > intMax) then (st.put 46).put 48 else st
  else st

def loop (long : LongWidth) : Bytes → State → State
  | [], st => st
  | c :: rest, st =>
      if c = 34 then loop long rest ({ st with inStr := !st.inStr }.put c)
      else if c = 92 then
        match rest with
        | [] => st.put c
        | d :: rest => loop long rest ((st.put c).put d)
      else if !st.inStr && !st.inInt && isdigit c then
        loop long rest ({ st with intoff := st.off, inInt := true }.put c)
      else if st.inInt && !isdigit c then
        if c ≠ 46 ∧ c ≠ 101 ∧ c ≠ 69 ∧ c ≠ 43 ∧ c ≠ 45 then
          loop long rest ((endNumber long st).put c)
        else loop long rest (st.put c)
      else loop long rest (st.put c)

end HackJsonNumbers

def hackJsonNumbers (long : LongWidth) (text : Bytes) : Bytes :=
  (HackJsonNumbers.loop long text ⟨[], false, false, 0⟩).out

end AlphaMiner
