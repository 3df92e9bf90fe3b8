import AlphaMiner.Model.Jansson.Value
import AlphaMiner.Model.ThreadList

/-!
# The hash table (`compat/jansson/hashtable.c`)

All pairs of a table are in one list of `list_head`s, which goes around through the
`list` of the table, and the pairs of one bucket stand together there. A bucket has its
first and its last pair, and one that is empty has the table's `list` twice.

A pair is known by where its `list` is, so that `list_to_pair` has nothing to do. NULL
is `none`. Reading or writing through NULL or what is not allocated is a fault, and so
is a prime past the end of `primes`, a NULL that is stored in a bucket, and a loop that
has gone past more pairs than there are. `malloc` may fail, also under a rehash, where
the table is left with `buckets` at NULL.

Keys and values belong to the table once it has them, and it calls `free_key` and
`free_value` for what it is done with.
-/

namespace AlphaMiner.Jansson

open Lib

variable {K V : Type}

/-! ## The list -/

def listInit (m : ListHeads) (list : Nat) : Option ListHeads := do
  let m ← setNext m list list
  setPrev m list list

/-- A pointer is read where the source reads it. -/
def listInsert (m : ListHeads) (list node : Nat) : Option ListHeads := do
  let m ← setNext m node list
  let l ← m list
  let m ← setPrev m node l.prev
  let l ← m list
  let m ← setNext m l.prev node
  setPrev m list node

def listRemove (m : ListHeads) (list : Nat) : Option ListHeads := do
  let l ← m list
  let m ← setNext m l.prev l.next
  let l ← m list
  setPrev m l.next l.prev

/-! ## The table -/

structure Pair (K V : Type) where
  key : K
  value : V
  hash : UInt32

structure Bucket where
  first : Nat
  last : Nat

/-- `list` is where the table's own `list` is, and the last two fields are what
`free_key` and `free_value` were called with. -/
structure Hashtable (K V : Type) where
  size : Nat
  buckets : Option (List Bucket)
  numBuckets : Nat
  list : Nat
  heads : ListHeads
  pairs : Nat → Option (Pair K V)
  freedKeys : List K
  freedValues : List V

/-- `num_buckets(hashtable)`. -/
def Hashtable.bucketCount (ht : Hashtable K V) : Option Nat := primes[ht.numBuckets]?

/-- `hashtable_init`, which got its memory, for a table whose `list` is at `list`. -/
def hashtableInit (K V : Type) (list : Nat) : Hashtable K V where
  size := 0
  buckets := some (List.replicate (primes.getD 0 0) ⟨list, list⟩)
  numBuckets := 0
  list := list
  heads := Function.update (fun _ => none) list (some ⟨some list, some list⟩)
  pairs _ := none
  freedKeys := []
  freedValues := []

def bucketIsEmpty (ht : Hashtable K V) (bucket : Bucket) : Bool :=
  bucket.first = ht.list && bucket.first = bucket.last

/-- The bucket is known by its place in the array. -/
def htInsertToBucket (ht : Hashtable K V) (index list : Nat) : Option (Hashtable K V) := do
  let buckets ← ht.buckets
  let bucket ← buckets[index]?
  if bucketIsEmpty ht bucket then
    let heads ← listInsert ht.heads ht.list list
    return { ht with heads := heads, buckets := some (buckets.set index ⟨list, list⟩) }
  else
    let heads ← listInsert ht.heads bucket.first list
    return { ht with
      heads := heads
      buckets := some (buckets.set index { bucket with first := list }) }

section
variable (hashKey : K → UInt32) (cmpKeys : K → K → Bool)

/-- The loop of `hashtable_find_pair`. -/
def findPairFrom (ht : Hashtable K V) (bucket : Bucket) (key : K) (hash : UInt32) :
    Nat → Nat → Option (Option Nat)
  | 0, _ => none
  | fuel + 1, list => do
      let pair ← ht.pairs list
      if pair.hash = hash ∧ cmpKeys pair.key key then return some list
      else if list = bucket.last then return none
      else
        let l ← ht.heads list
        let next ← l.next
        findPairFrom ht bucket key hash fuel next

def hashtableFindPair (ht : Hashtable K V) (bucket : Bucket) (key : K) (hash : UInt32) :
    Option (Option Nat) :=
  if bucketIsEmpty ht bucket then some none
  else findPairFrom cmpKeys ht bucket key hash ht.size bucket.first

/-- The bucket in `hashtable_do_del`, when the pair with the links `l` goes. -/
def bucketWithout (list : Nat) (bucket : Bucket) (pair : Nat) (l : Link Nat) : Option Bucket :=
  if pair = bucket.first ∧ pair = bucket.last then some ⟨list, list⟩
  else if pair = bucket.first then l.next.map fun next => { bucket with first := next }
  else if pair = bucket.last then l.prev.map fun prev => { bucket with last := prev }
  else some bucket

/-- `hashtable_do_del` behind the search, which has found `pair`. -/
def delPair (ht : Hashtable K V) (index : Nat) (bucket : Bucket) (pair : Nat) :
    Option (Hashtable K V) := do
  let buckets ← ht.buckets
  let l ← ht.heads pair
  let bucket ← bucketWithout ht.list bucket pair l
  let heads ← listRemove ht.heads pair
  let p ← ht.pairs pair
  let heads ← free heads pair
  return { ht with
    size := ht.size - 1
    buckets := some (buckets.set index bucket)
    heads := heads
    pairs := Function.update ht.pairs pair none
    freedKeys := p.key :: ht.freedKeys
    freedValues := p.value :: ht.freedValues }

/-- With whether the answer is 0. -/
def hashtableDoDel (ht : Hashtable K V) (key : K) (hash : UInt32) :
    Option (Bool × Hashtable K V) := do
  let count ← ht.bucketCount
  let buckets ← ht.buckets
  let bucket ← buckets[hash.toNat % count]?
  match ← hashtableFindPair cmpKeys ht bucket key hash with
  | none => return (false, ht)
  | some pair => return (true, ← delPair ht (hash.toNat % count) bucket pair)

/-- The loop of `hashtable_do_clear`. -/
def doClearFrom (ht : Hashtable K V) : Nat → Nat → Option (Hashtable K V)
  | 0, _ => none
  | fuel + 1, list =>
      if list = ht.list then some ht
      else do
        let l ← ht.heads list
        let next ← l.next
        let pair ← ht.pairs list
        let heads ← free ht.heads list
        doClearFrom { ht with
          heads := heads
          pairs := Function.update ht.pairs list none
          freedKeys := pair.key :: ht.freedKeys
          freedValues := pair.value :: ht.freedValues } fuel next

def hashtableDoClear (ht : Hashtable K V) : Option (Hashtable K V) := do
  let l ← ht.heads ht.list
  let first ← l.next
  doClearFrom ht (ht.size + 1) first

/-- The second loop of `hashtable_do_rehash`. -/
def doRehashFrom (newSize : Nat) (ht : Hashtable K V) : Nat → Nat → Option (Hashtable K V)
  | 0, _ => none
  | fuel + 1, list =>
      if list = ht.list then some ht
      else do
        let l ← ht.heads list
        let next ← l.next
        let pair ← ht.pairs list
        doRehashFrom newSize (← htInsertToBucket ht (pair.hash.toNat % newSize) list) fuel next

/-- `memory` says if `malloc` has any. -/
def hashtableDoRehash (ht : Hashtable K V) (memory : Bool) : Option (Bool × Hashtable K V) := do
  let newSize ← primes[ht.numBuckets + 1]?
  if !memory then
    return (false, { ht with buckets := none, numBuckets := ht.numBuckets + 1 })
  else
    let l ← ht.heads ht.list
    let first ← l.next
    let heads ← listInit ht.heads ht.list
    let ht ← doRehashFrom newSize { ht with
      buckets := some (List.replicate newSize ⟨ht.list, ht.list⟩)
      numBuckets := ht.numBuckets + 1
      heads := heads } (ht.size + 1) first
    return (true, ht)

/-- `hashtable_set` from the hash of the key on. The pair that `malloc` gives is `new`. -/
def setPair (ht : Hashtable K V) (key : K) (value : V) (new : Option Nat) :
    Option (Bool × Hashtable K V) := do
  let hash := hashKey key
  let count ← ht.bucketCount
  let buckets ← ht.buckets
  let bucket ← buckets[hash.toNat % count]?
  match ← hashtableFindPair cmpKeys ht bucket key hash with
  | some pair =>
      let p ← ht.pairs pair
      return (true, { ht with
        pairs := Function.update ht.pairs pair (some { p with value := value })
        freedKeys := key :: ht.freedKeys
        freedValues := p.value :: ht.freedValues })
  | none =>
      match new with
      | none => return (false, ht)
      | some pair =>
          let heads ← listInit (Function.update ht.heads pair (some ⟨none, none⟩)) pair
          let ht ← htInsertToBucket { ht with
            heads := heads
            pairs := Function.update ht.pairs pair (some ⟨key, value, hash⟩) }
            (hash.toNat % count) pair
          return (true, { ht with size := ht.size + 1 })

def hashtableSet (ht : Hashtable K V) (key : K) (value : V) (memory : Bool) (new : Option Nat) :
    Option (Bool × Hashtable K V) := do
  let count ← ht.bucketCount
  if ht.size ≥ count then
    match ← hashtableDoRehash ht memory with
    | (false, ht) => return (false, ht)
    | (true, ht) => setPair hashKey cmpKeys ht key value new
  else setPair hashKey cmpKeys ht key value new

/-- `hashtable_iter_at`, on which `hashtable_get` goes on in the same way. -/
def hashtableIterAt (ht : Hashtable K V) (key : K) : Option (Option Nat) := do
  let hash := hashKey key
  let count ← ht.bucketCount
  let buckets ← ht.buckets
  let bucket ← buckets[hash.toNat % count]?
  hashtableFindPair cmpKeys ht bucket key hash

def hashtableGet (ht : Hashtable K V) (key : K) : Option (Option V) := do
  match ← hashtableIterAt hashKey cmpKeys ht key with
  | none => return none
  | some pair =>
      let p ← ht.pairs pair
      return some p.value

def hashtableDel (ht : Hashtable K V) (key : K) : Option (Bool × Hashtable K V) :=
  hashtableDoDel cmpKeys ht key (hashKey key)

end

def hashtableClear (ht : Hashtable K V) : Option (Hashtable K V) := do
  let ht ← hashtableDoClear ht
  let count ← ht.bucketCount
  let _ ← ht.buckets
  let heads ← listInit ht.heads ht.list
  return { ht with
    buckets := some (List.replicate count ⟨ht.list, ht.list⟩)
    heads := heads
    size := 0 }

/-- The table's own `list` is no longer its own. -/
def hashtableClose (ht : Hashtable K V) : Option (Hashtable K V) := do
  let ht ← hashtableDoClear ht
  return { ht with buckets := none }

/-! ## The iterator -/

def hashtableIterNext (ht : Hashtable K V) (iter : Nat) : Option (Option Nat) := do
  let list ← ht.heads iter
  let next ← list.next
  if next = ht.list then return none else return some next

def hashtableIter (ht : Hashtable K V) : Option (Option Nat) := hashtableIterNext ht ht.list

def hashtableIterKey (ht : Hashtable K V) (iter : Nat) : Option K := (ht.pairs iter).map Pair.key

def hashtableIterValue (ht : Hashtable K V) (iter : Nat) : Option V :=
  (ht.pairs iter).map Pair.value

def hashtableIterSet (ht : Hashtable K V) (iter : Nat) (value : V) : Option (Hashtable K V) := do
  let pair ← ht.pairs iter
  return { ht with
    freedValues := pair.value :: ht.freedValues
    pairs := Function.update ht.pairs iter (some { pair with value := value }) }

/-- The loop that the users of an iterator write. -/
def iterateFrom (ht : Hashtable K V) : Nat → Option Nat → Option (List (K × V))
  | _, none => some []
  | 0, some _ => none
  | fuel + 1, some iter => do
      let key ← hashtableIterKey ht iter
      let value ← hashtableIterValue ht iter
      let next ← hashtableIterNext ht iter
      let rest ← iterateFrom ht fuel next
      return (key, value) :: rest

def iterate (ht : Hashtable K V) : Option (List (K × V)) := do
  iterateFrom ht ht.size (← hashtableIter ht)

/-! ## Calls -/

/-- `iterSet` is `hashtable_iter_at`, and `hashtable_iter_set` with what it found. -/
inductive HashtableCall (K V : Type) where
  | set (key : K) (value : V) (memory : Bool) (new : Option Nat)
  | get (key : K)
  | del (key : K)
  | clear
  | iterate
  | iterSet (key : K) (value : V)

/-- A call that returns nothing is `ok true`. -/
inductive HashtableAnswer (K V : Type) where
  | ok (found : Bool)
  | value (value : Option V)
  | pairs (pairs : List (K × V))

section
variable (hashKey : K → UInt32) (cmpKeys : K → K → Bool)

def hashtableCall (ht : Hashtable K V) :
    HashtableCall K V → Option (HashtableAnswer K V × Hashtable K V)
  | .set key value memory new => do
      let (rc, ht) ← hashtableSet hashKey cmpKeys ht key value memory new
      return (.ok rc, ht)
  | .get key => do
      return (.value (← hashtableGet hashKey cmpKeys ht key), ht)
  | .del key => do
      let (rc, ht) ← hashtableDel hashKey cmpKeys ht key
      return (.ok rc, ht)
  | .clear => do
      return (.ok true, ← hashtableClear ht)
  | .iterate => do
      return (.pairs (← iterate ht), ht)
  | .iterSet key value => do
      match ← hashtableIterAt hashKey cmpKeys ht key with
      | none => return (.ok false, ht)
      | some iter => return (.ok true, ← hashtableIterSet ht iter value)

/-- The calls one after the other, each with its answer. -/
def hashtableCalls (ht : Hashtable K V) :
    List (HashtableCall K V) → Option (List (HashtableAnswer K V) × Hashtable K V)
  | [] => some ([], ht)
  | call :: calls => do
      let (answer, ht) ← hashtableCall hashKey cmpKeys ht call
      let (answers, ht) ← hashtableCalls ht calls
      return (answer :: answers, ht)

end

end AlphaMiner.Jansson
