import AlphaMiner.Lib.Endian
import Mathlib.Data.Rat.Defs

/-!
# JSON values as the code reads them (jansson)

The readers of the library the code uses to take a reply apart. They accept any
value, and `NULL`, which is `none` here: a reader that is handed the wrong kind
of value, or nothing, answers as if the value were absent, and several callers
rely on that instead of checking.

A real is the rational number its double stands for. The members of an object
are listed in the order the library's iterator visits them.
-/

namespace AlphaMiner

open Lib

inductive Json where
  | null
  | bool (b : Bool)
  | integer (i : Int)
  | real (r : Rat)
  | string (s : Bytes)
  | array (elems : List Json)
  | object (members : List (String × Json))

def jsonObjectGet (j : Option Json) (key : String) : Option Json :=
  match j with
  | some (.object members) => members.lookup key
  | _ => none

def jsonArrayGet (j : Option Json) (i : Nat) : Option Json :=
  match j with
  | some (.array elems) => elems[i]?
  | _ => none

def jsonStringValue (j : Option Json) : Option Bytes :=
  match j with
  | some (.string s) => some s
  | _ => none

def jsonIntegerValue (j : Option Json) : Int :=
  match j with
  | some (.integer i) => i
  | _ => 0

def jsonNumberValue (j : Option Json) : Rat :=
  match j with
  | some (.integer i) => i
  | some (.real r) => r
  | _ => 0

def jsonIsTrue (j : Option Json) : Bool :=
  match j with
  | some (.bool true) => true
  | _ => false

def jsonIsFalse (j : Option Json) : Bool :=
  match j with
  | some (.bool false) => true
  | _ => false

def jsonIsNull (j : Option Json) : Bool :=
  match j with
  | some .null => true
  | _ => false

end AlphaMiner
