import AlphaMiner.Model.Jansson.Utf
import AlphaMiner.Model.Jansson.Value
import AlphaMiner.Model.Util

/-!
# Writing a value out (`compat/jansson/dump.c`, `json_equal`)

`json_dumps` appends to a string buffer, so that `dump` only fails without memory, and
that is left out. A function that fails after it has written something has written it,
which only matters for `dump_string`: what it answers for the key of a member is not
looked at.

A value here is a tree and cannot contain itself. `%.17g` is a parameter. `qsort` is a
sort by its comparison.
-/

namespace AlphaMiner.Jansson

open Lib

/-! ## Flags -/

def jsonIndent (flags : Nat) : Nat := flags &&& 0xFF

def jsonCompact (flags : Nat) : Bool := flags &&& 0x100 ≠ 0

def jsonEnsureAscii (flags : Nat) : Bool := flags &&& 0x200 ≠ 0

def jsonSortKeys (flags : Nat) : Bool := flags &&& 0x400 ≠ 0

def jsonPreserveOrder (flags : Nat) : Bool := flags &&& 0x800 ≠ 0

/-- The spaces come from a string of 256. -/
def dumpIndent (flags depth : Nat) (space : Bool) : Bytes :=
  if jsonIndent flags > 0 then
    10 :: (List.replicate depth (List.replicate (jsonIndent flags) (32 : UInt8))).flatten
  else if space && !jsonCompact flags then [32]
  else []

/-! ## Strings -/

/-- What `%04x` prints for a number below `0x10000`. -/
def sprintf04x (n : Nat) : Bytes :=
  [n / 4096, n / 256 % 16, n / 16 % 16, n % 16].map fun d => hexDigit (UInt8.ofNat d)

/-- The text in the place of a code point. -/
def escapeText (codepoint : Nat) : Bytes :=
  if codepoint = 92 then [92, 92]
  else if codepoint = 34 then [92, 34]
  else if codepoint = 8 then [92, 98]
  else if codepoint = 12 then [92, 102]
  else if codepoint = 10 then [92, 110]
  else if codepoint = 13 then [92, 114]
  else if codepoint = 9 then [92, 116]
  else if codepoint < 0x10000 then 92 :: 117 :: sprintf04x codepoint
  else
    let codepoint := codepoint - 0x10000
    let first := 0xD800 ||| ((codepoint &&& 0xffc00) >>> 10)
    let last := 0xDC00 ||| (codepoint &&& 0x003ff)
    92 :: 117 :: sprintf04x first ++ 92 :: 117 :: sprintf04x last

/-- What ends the inner loop of `dump_string`. -/
def needsEscape (ascii : Bool) (codepoint : Nat) : Bool :=
  codepoint = 92 || codepoint = 34 || codepoint < 0x20 || (ascii && codepoint > 0x7F)

/-- The inner loop from `pos`: how much of the string is written as it is, and the length
and the code point of what has to be escaped there, if the string is not over. `none` is
a sequence that is not UTF-8. -/
def dumpPlain (ascii : Bool) : Nat → Bytes → Option (Nat × Option (Nat × Nat))
  | 0, _ => none
  | fuel + 1, pos =>
      if pos.headD 0 = 0 then some (0, none)
      else
        match utf8Iterate pos with
        | some (length, some codepoint) =>
            if needsEscape ascii codepoint then some (0, some (length, codepoint))
            else (dumpPlain ascii fuel (pos.drop length)).map fun (n, stop) => (length + n, stop)
        | _ => none

/-- The outer loop, with what it has written. -/
def dumpStringFrom (ascii : Bool) : Nat → Bytes → Bytes × Bool
  | 0, _ => ([], false)
  | fuel + 1, str =>
      match dumpPlain ascii (str.length + 1) str with
      | none => ([], false)
      | some (n, none) => (str.take n ++ [34], true)
      | some (n, some (length, codepoint)) =>
          let (rest, rc) := dumpStringFrom ascii fuel (str.drop (n + length))
          (str.take n ++ escapeText codepoint ++ rest, rc)

def dumpString (str : Bytes) (ascii : Bool) : Bytes × Bool :=
  let (text, rc) := dumpStringFrom ascii (str.length + 1) str
  (34 :: text, rc)

/-! ## Keys -/

/-- `strcmp`, of which only the sign is used. -/
def strcmp : Bytes → Bytes → Int
  | [], [] => 0
  | [], c :: _ => 0 - c.toNat
  | c :: _, [] => c.toNat
  | c :: s, d :: t => if c = d then strcmp s t else (c.toNat : Int) - d.toNat

def objectKeyCompareKeys (key₁ key₂ : ObjectKey) : Int := strcmp key₁.key key₂.key

/-- The difference is an `unsigned long` and becomes an `int`. -/
def objectKeyCompareSerials (key₁ key₂ : ObjectKey) : Int :=
  ((key₁.serial : Int) - key₂.serial).bmod (2 ^ 32)

/-- The keys of an object in the order in which they are written. -/
def dumpOrder (flags : Nat) (keys : List ObjectKey) : List ObjectKey :=
  if jsonSortKeys flags then keys.mergeSort fun a b => decide (objectKeyCompareKeys a b ≤ 0)
  else if jsonPreserveOrder flags then
    keys.mergeSort fun a b => decide (objectKeyCompareSerials a b ≤ 0)
  else keys

/-! ## Values -/

/-- `snprintf` of an integer takes 11 bytes of its 100. -/
def dumpInteger (value : Int) : Bytes := ascii (toString value)

/-- `printed` is what `%.17g` gives. -/
def dumpReal (printed : Bytes) : Option Bytes :=
  if 100 ≤ printed.length then none
  else if 46 ∉ printed ∧ 101 ∉ printed then
    if 100 ≤ printed.length + 2 then none else some (printed ++ [46, 48])
  else some printed

/-- The elements, each with what comes behind it. -/
def joinDumped (flags depth : Nat) : List Bytes → Bytes
  | [] => []
  | [text] => text ++ dumpIndent flags depth false
  | text :: rest =>
      text ++ 44 :: dumpIndent flags (depth + 1) true ++ joinDumped flags depth rest

section
variable (printReal : Rat → Bytes)

mutual

/-- `none` is the answer -1. -/
def doDump (flags : Nat) : Nat → JsonT → Option Bytes
  | _, .null => some (ascii "null")
  | _, .true => some (ascii "true")
  | _, .false => some (ascii "false")
  | _, .integer value => some (dumpInteger value)
  | _, .real value => dumpReal (printReal value)
  | _, .string value =>
      let (text, rc) := dumpString value (jsonEnsureAscii flags)
      if rc then some text else none
  | depth, .array elems =>
      (dumpElements flags (depth + 1) elems).map fun texts =>
        if texts = [] then [91, 93]
        else 91 :: dumpIndent flags (depth + 1) false ++ joinDumped flags depth texts ++ [93]
  | depth, .object _ numBuckets pairs =>
      (dumpMembers flags (depth + 1) pairs).map fun values =>
        if pairs = [] then [123, 125]
        else
          let order := dumpOrder flags (values.map Prod.fst)
          let texts := order.map fun k =>
            (dumpString k.key (jsonEnsureAscii flags)).1 ++
              (if jsonCompact flags then [58] else [58, 32]) ++
              (Table.get hashKey keyEqual ⟨numBuckets, values⟩ k).getD []
          123 :: dumpIndent flags (depth + 1) false ++ joinDumped flags depth texts ++ [125]

def dumpElements (flags depth : Nat) : List JsonT → Option (List Bytes)
  | [] => some []
  | json :: elems => do
      let text ← doDump flags depth json
      let texts ← dumpElements flags depth elems
      return text :: texts

/-- The values of an object, each dumped, before they are put in order. -/
def dumpMembers (flags depth : Nat) : List (ObjectKey × JsonT) → Option (List (ObjectKey × Bytes))
  | [] => some []
  | (key, json) :: pairs => do
      let text ← doDump flags depth json
      let values ← dumpMembers flags depth pairs
      return (key, text) :: values

end

def jsonDumps (flags : Nat) (json : JsonT) : Option Bytes :=
  match json with
  | .array _ | .object _ _ _ => doDump printReal flags 0 json
  | _ => none

end

/-! ## Equality -/

mutual

def jsonEqual : JsonT → JsonT → Bool
  | .null, .null => true
  | .true, .true => true
  | .false, .false => true
  | .integer i, .integer k => i = k
  | .real r, .real q => r = q
  | .string s, .string t => s = t
  | .array elems, .array others => elems.length = others.length && elementsEqual elems others
  | .object _ _ pairs, .object serial numBuckets others =>
      pairs.length = others.length && membersEqual pairs (.object serial numBuckets others)
  | _, _ => false

def elementsEqual : List JsonT → List JsonT → Bool
  | json :: elems, other :: others => jsonEqual json other && elementsEqual elems others
  | _, _ => true

def membersEqual : List (ObjectKey × JsonT) → JsonT → Bool
  | [], _ => true
  | (key, json) :: pairs, object =>
      (match jsonObjectGet object key.key with
        | some other => jsonEqual json other
        | none => false) && membersEqual pairs object

end

end AlphaMiner.Jansson
