import AlphaMiner.Lib.Endian
import Mathlib.Data.Rat.Defs

/-!
# The values of the JSON library (`compat/jansson/value.c`)

An object keeps its members in a hash table. What the rest of the library sees of
the table is the order of its iterator, so here a table is the list of its pairs
in that order: the pairs of one bucket stand together, a new pair goes in front of
them, and the first pair of a bucket goes to the end. The buckets and the pointers
are in `Hashtable`.

A real is the rational number its double stands for. `json_true` and its like are
single values, and reference counts are left out. So is running out of memory.
-/

namespace AlphaMiner.Jansson

open Lib

/-! ## The table -/

def primes : List Nat :=
  [5, 13, 23, 53, 97, 193, 389, 769, 1543, 3079, 6151, 12289, 24593, 49157, 98317, 196613,
    393241, 786433, 1572869, 3145739, 6291469, 12582917, 25165843, 50331653, 100663319,
    201326611, 402653189, 805306457, 1610612741]

structure Table (K V : Type) where
  /-- The index to `primes`. -/
  numBuckets : Nat
  pairs : List (K × V)

namespace Table

variable {K V : Type}

def size (t : Table K V) : Nat := t.pairs.length

/-- `num_buckets(hashtable)`. -/
def buckets (t : Table K V) : Nat := primes.getD t.numBuckets 0

section
variable (hash : K → UInt32) (cmp : K → K → Bool)

def index (buckets : Nat) (key : K) : Nat := (hash key).toNat % buckets

def insertToBucket (buckets : Nat) (pair : K × V) : List (K × V) → List (K × V)
  | [] => [pair]
  | p :: rest =>
      if index hash buckets p.1 = index hash buckets pair.1 then pair :: p :: rest
      else p :: insertToBucket buckets pair rest

def rehash (t : Table K V) : Table K V :=
  let buckets := primes.getD (t.numBuckets + 1) 0
  ⟨t.numBuckets + 1, t.pairs.foldl (fun pairs p => insertToBucket hash buckets p pairs) []⟩

def isKey (key : K) (pair : K × V) : Bool := hash pair.1 = hash key && cmp pair.1 key

def set (t : Table K V) (key : K) (value : V) : Table K V :=
  let t := if t.size ≥ t.buckets then rehash hash t else t
  if t.pairs.any (isKey hash cmp key) then
    { t with pairs := t.pairs.map fun p => if isKey hash cmp key p then (p.1, value) else p }
  else { t with pairs := insertToBucket hash t.buckets (key, value) t.pairs }

def get (t : Table K V) (key : K) : Option V :=
  (t.pairs.find? (isKey hash cmp key)).map Prod.snd

end

end Table

/-! ## Values -/

structure ObjectKey where
  serial : Nat
  key : Bytes
  deriving DecidableEq

/-- `char` is signed. -/
def hashKey (k : ObjectKey) : UInt32 :=
  k.key.foldl (fun hash c => (hash <<< 5) + hash + c.toInt8.toInt32.toUInt32) 5381

def keyEqual (k₁ k₂ : ObjectKey) : Bool := k₁.key = k₂.key

/-- The last two fields of an object are its table. -/
inductive JsonT where
  | null
  | true
  | false
  | integer (value : Int)
  | real (value : Rat)
  | string (value : Bytes)
  | array (elems : List JsonT)
  | object (serial numBuckets : Nat) (pairs : List (ObjectKey × JsonT))

def jsonObject : JsonT := .object 0 0 []

def jsonArray : JsonT := .array []

/-- `json_object_set_new_nocheck`, and `none` for the answer -1. -/
def jsonObjectSetNewNocheck (json : JsonT) (key : Bytes) (value : JsonT) : Option JsonT :=
  match json with
  | .object serial numBuckets pairs =>
      let t := Table.set hashKey keyEqual ⟨numBuckets, pairs⟩ ⟨serial, key⟩ value
      some (.object (serial + 1) t.numBuckets t.pairs)
  | _ => none

/-- Only the string of a key that is looked for is used. -/
def jsonObjectGet (json : JsonT) (key : Bytes) : Option JsonT :=
  match json with
  | .object _ numBuckets pairs => Table.get hashKey keyEqual ⟨numBuckets, pairs⟩ ⟨0, key⟩
  | _ => none

/-- What `json_object_iter` and `json_object_iter_next` go through. -/
def jsonObjectIter (json : JsonT) : List (Bytes × JsonT) :=
  match json with
  | .object _ _ pairs => pairs.map fun p => (p.1.key, p.2)
  | _ => []

def jsonArrayAppendNew (json value : JsonT) : Option JsonT :=
  match json with
  | .array elems => some (.array (elems ++ [value]))
  | _ => none

end AlphaMiner.Jansson
