import AlphaMiner.Lib.Buffer

/-!
# The nonce scan (`randomx-miner.c`)

The two functions that look for a share: `scanhash_randomx`, which asks the
RandomX library for one hash at a time, and `scanhash_randomx_batch`, which
keeps the library's pipeline filled and therefore writes the nonce of the next
candidate into the header before it has the hash of the current one.

RandomX itself is not part of the repository. `RandomX` is its two functions,
taken as they come, and `RandomxVm` is the one thing a machine remembers
between calls of the pipelined interface, the input it was last given. The
flag `work_restart[thr_id].restart` belongs to other threads: a scan sees it
as a schedule, a function of the number of hashes it has tested so far.

`ScanResult.calls` is not returned by the code. It records the arguments of
each `randomx_calculate_commitment`, in order, which is the list of headers
the scan has really tried.
-/

namespace AlphaMiner

open Lib

abbrev Hash := Vector UInt8 32

structure RandomX where
  hash : Bytes → Hash
  commitment : Bytes → Hash → Hash

structure RandomxVm where
  input : Bytes

def randomxCalculateHash (rx : RandomX) (_vm : RandomxVm) (input : Bytes) : Hash :=
  rx.hash input

def randomxCalculateHashFirst (_vm : RandomxVm) (input : Bytes) : RandomxVm := ⟨input⟩

def randomxCalculateHashNext (rx : RandomX) (vm : RandomxVm) (nextInput : Bytes) :
    Hash × RandomxVm :=
  (rx.hash vm.input, ⟨nextInput⟩)

def randomxCalculateCommitment (rx : RandomX) (input : Bytes) (rxHash : Hash) : Hash :=
  rx.commitment input rxHash

/-! ## `fulltest`

The comparison loop runs from the top word down; `go (i + 1)` is its
iteration at word `i`. -/

def fulltest.go (hash target : Vector UInt32 8) : (i : Nat) → i ≤ 8 → Bool
  | 0, _ => true
  | i + 1, h =>
      if hash[i] > target[i] then false
      else if hash[i] < target[i] then true
      else fulltest.go hash target i (Nat.le_of_succ_le h)

def fulltest (hash target : Vector UInt32 8) : Bool :=
  fulltest.go hash target 8 (Nat.le_refl 8)

/-! ## Words

The words that go by their number: the first twenty, which are the header, the
time `data[17]` and the nonce `data[19]` among them, and the top word of a
256-bit integer. -/

def headerWord (data : Vector UInt32 32) (i : Fin 20) : UInt32 := data[i]

def timeWord (data : Vector UInt32 32) : UInt32 := data[17]

def nonceWord (data : Vector UInt32 32) : UInt32 := data[19]

def setNonceWord (data : Vector UInt32 32) (n : UInt32) : Vector UInt32 32 := data.set 19 n

def highWord (v : Vector UInt32 8) : UInt32 := v[7]

@[simp] theorem nonceWord_setNonceWord (data : Vector UInt32 32) (n : UInt32) :
    nonceWord (setNonceWord data n) = n :=
  Vector.getElem_set_self ..

@[simp] theorem timeWord_setNonceWord (data : Vector UInt32 32) (n : UInt32) :
    timeWord (setNonceWord data n) = timeWord data :=
  Vector.getElem_set_ne _ _ (by decide)

/-- The words in front of the nonce. -/
theorem take_setNonceWord (data : Vector UInt32 32) (n : UInt32) :
    (setNonceWord data n).toList.take 19 = data.toList.take 19 := by
  rw [setNonceWord, Vector.toList_set, List.take_set_of_le (Nat.le_refl 19)]

/-! ## The scan

`blockHeader` is the buffer both functions start from, the first twenty words
of `pdata` big-endian in front of a zeroed RandomX hash field, and `encNonce`
is `le32enc(noncePtr, n)` with `noncePtr` its twentieth word. `shareTest` is
the pair of tests on a commitment, its top word against `Htarg` and then all of
it; both read the commitment's bytes through a word pointer.

In the loops `n` is the nonce and `k` the number of hashes tested before it.
They run on fuel, and `maxNonce + 1` units are always enough: a start at or
above the limit still tests one nonce in the do-while form, and wraps at most
once. -/

structure ScanResult where
  rc : Int
  pdata : Vector UInt32 32
  outRxHash : Hash
  hashesDone : Nat
  calls : List (Bytes × Hash)

def blockHeader (pdata : Vector UInt32 32) : Bytes :=
  (List.finRange 20).foldl
    (fun buf (i : Fin 20) => store buf (4 * i) (be32enc (headerWord pdata i)))
    (List.replicate 112 0)

def encNonce (header : Bytes) (n : UInt32) : Bytes := store header 76 (le32enc n)

def shareTest (host : ByteOrder) (ptarget : Vector UInt32 8) (rxCm : Hash) : Bool :=
  let cm := host.words 8 rxCm.toList
  decide (highWord cm < highWord ptarget) && fulltest cm ptarget

-- The nonce goes back into pdata as big endian, so it gets flipped back to
-- little endian when submitting to the node.
def scanFound (host : ByteOrder) (pdata : Vector UInt32 32) (n : UInt32) (rxHash : Hash)
    (calls : List (Bytes × Hash)) : ScanResult :=
  { rc := 1
    pdata := setNonceWord pdata (host.dec (be32enc n))
    outRxHash := rxHash
    hashesDone := (n - nonceWord pdata + 1).toNat
    calls := calls }

def scanMissed (pdata : Vector UInt32 32) (n : UInt32) (outRxHash : Hash)
    (calls : List (Bytes × Hash)) : ScanResult :=
  { rc := 0
    pdata := setNonceWord pdata n
    outRxHash := outRxHash
    hashesDone := (n - nonceWord pdata).toNat
    calls := calls }

section

variable (host : ByteOrder) (rx : RandomX) (restart : Nat → Bool)
  (pdata : Vector UInt32 32) (ptarget : Vector UInt32 8) (maxNonce : UInt32)
  (outRxHash : Hash)

def scanhashRandomx.loop (vm : RandomxVm) :
    Nat → UInt32 → Nat → Bytes → List (Bytes × Hash) → ScanResult
  | 0, n, _, _, calls => scanMissed pdata n outRxHash calls
  | fuel + 1, n, k, header, calls =>
      let header := encNonce header n
      let rxHash := randomxCalculateHash rx vm header
      let rxCm := randomxCalculateCommitment rx header rxHash
      let calls := calls ++ [(header, rxHash)]
      if shareTest host ptarget rxCm then scanFound host pdata n rxHash calls
      else
        let n := n + 1
        let k := k + 1
        if n < maxNonce && !restart k then
          scanhashRandomx.loop vm fuel n k header calls
        else scanMissed pdata n outRxHash calls

def scanhashRandomx (vm : RandomxVm) : ScanResult :=
  scanhashRandomx.loop host rx restart pdata ptarget maxNonce outRxHash vm
    (maxNonce.toNat + 1) (nonceWord pdata) 0 (blockHeader pdata) []

def scanhashRandomxBatch.loop :
    Nat → UInt32 → Nat → RandomxVm → Bytes → List (Bytes × Hash) → ScanResult
  | 0, n, _, _, _, calls => scanMissed pdata n outRxHash calls
  | fuel + 1, n, k, vm, header, calls =>
      if n < maxNonce && !restart k then
        let header := encNonce header (n + 1)
        let (rxHash, vm) := randomxCalculateHashNext rx vm header
        let header := encNonce header n
        let rxCm := randomxCalculateCommitment rx header rxHash
        let calls := calls ++ [(header, rxHash)]
        if shareTest host ptarget rxCm then scanFound host pdata n rxHash calls
        else scanhashRandomxBatch.loop fuel (n + 1) (k + 1) vm header calls
      else scanMissed pdata n outRxHash calls

def scanhashRandomxBatch (vm : RandomxVm) : ScanResult :=
  let header := encNonce (blockHeader pdata) (nonceWord pdata)
  let vm := randomxCalculateHashFirst vm header
  scanhashRandomxBatch.loop host rx restart pdata ptarget maxNonce outRxHash
    (maxNonce.toNat + 1) (nonceWord pdata) 0 vm header []

end

end AlphaMiner
