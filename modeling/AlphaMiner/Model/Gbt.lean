import AlphaMiner.Lib.Significand
import AlphaMiner.Model.Work

/-!
# Reading a block template (`gbt_work_decode`)

The longest function of the miner: it checks a `getblocktemplate` reply, builds
the coinbase transaction and the transaction tree, and fills the work record as
it goes along. It has some twenty ways to give up, spread between its writes,
so it is modelled as a computation that keeps its state when it stops:
`GbtStop.out` is `goto out`, with the message that is logged, and
`GbtStop.fault` is a run that C gives no meaning to, a division by zero, an `int`
that overflows or an access outside a buffer.

Every access to the blocks it allocates is checked, against the size it asked
for, so that a fault is a theorem away. `sha256d` and the heap's old contents
are parameters.

A reply has fewer than 2³¹ bytes, so that the length of a string and the count of
the transactions are an `int` as they stand. What is summed and multiplied from
them need not be.
-/

namespace AlphaMiner

open Lib

/-- The globals the function writes. -/
structure GbtGlobals where
  haveGbt : Bool
  haveLongpoll : Bool
  lpId : Option Bytes
  longpollQueue : List Bytes

/-- The globals it only reads, and what its allocations find on the heap. -/
structure GbtConfig where
  pkScriptSize : Nat
  pkScript : Bytes
  allowGetwork : Bool
  coinbaseSig : Bytes
  wantLongpoll : Bool
  rpcUrl : Bytes
  heap : Nat → UInt8

structure GbtState where
  globals : GbtGlobals
  work : Work

inductive GbtStop where
  | out (log : String)
  | fault
  deriving DecidableEq

abbrev GbtM := EStateM GbtStop GbtState

namespace Gbt

def modifyWork (f : Work → Work) : GbtM Unit :=
  modify fun s => { s with work := f s.work }

def modifyGlobals (f : GbtGlobals → GbtGlobals) : GbtM Unit :=
  modify fun s => { s with globals := f s.globals }

def poke (buf : Bytes) (off : Nat) (bs : Bytes) : GbtM Bytes :=
  match store? buf off bs with
  | some buf => pure buf
  | none => throw .fault

def peek (buf : Bytes) (off n : Nat) : GbtM Bytes :=
  match slice? buf off n with
  | some bs => pure bs
  | none => throw .fault

/-! ## The fields of the template -/

/-- The strings of an array member, whatever else it holds. -/
def stringElems (val : Option Json) (key : String) : List Bytes :=
  match jsonObjectGet val key with
  | some (.array elems) => elems.filterMap fun e => jsonStringValue (some e)
  | _ => []

def segwit (val : Option Json) : Bool :=
  (stringElems val "rules").any fun s => s == ascii "segwit" || s == ascii "!segwit"

def mutableHas (val : Option Json) (name : String) : Bool :=
  (stringElems val "mutable").any fun s => s == ascii name

def integerField (val : Option Json) (key log : String) : GbtM Int :=
  match jsonObjectGet val key with
  | some (.integer i) => pure i
  | _ => throw (.out log)

/-- `jobj_binary` into a local buffer, which nobody reads once it has failed. -/
def binaryField (heap : Nat → UInt8) (val : Option Json) (key log : String) (n : Nat) :
    GbtM Bytes :=
  match jobjBinary val key (malloc heap n) n with
  | (true, buf) => pure buf
  | (false, _) => throw (.out log)

/-- What the first half of the function reads off the template. -/
structure Fields where
  version : UInt32
  prevhash : Bytes
  epochDuration : UInt32
  curtime : UInt32
  bits : Bytes
  txa : List Json
  txSize : Int

def txHex (tx : Json) : Option Bytes := jsonStringValue (jsonObjectGet (some tx) "data")

def transactions (val : Option Json) : GbtM (List Json) :=
  match jsonObjectGet val "transactions" with
  | some (.array txa) => pure txa
  | _ => throw (.out "JSON invalid transactions")

/-- The sum is a `size_t`, and `tx_size` takes its low 32 bits. -/
def txSizes (txa : List Json) : GbtM Int :=
  txa.foldlM (fun size tx =>
    match txHex tx with
    | some hex => pure ((size + (hex.length / 2 : Nat)).bmod (2 ^ 32))
    | none => throw (.out "JSON invalid transactions")) 0

def fields (cfg : GbtConfig) (val : Option Json) : GbtM Fields := do
  let height ← integerField val "height" "JSON invalid height"
  modifyWork fun w => { w with height := height.bmod (2 ^ 32) }
  let version ← integerField val "version" "JSON invalid version"
  let prevhash ← binaryField cfg.heap val "previousblockhash"
    "JSON invalid previousblockhash" 32
  let epochDuration ← integerField val "rx_epoch_duration" "JSON invalid rx_epoch_duration"
  let curtime ← integerField val "curtime" "JSON invalid curtime"
  let bits ← binaryField cfg.heap val "bits" "JSON invalid bits" 4
  let txa ← transactions val
  let txSize ← txSizes txa
  pure { version := .ofInt version, prevhash := prevhash
         epochDuration := .ofInt epochDuration, curtime := .ofInt curtime
         bits := bits, txa := txa, txSize := txSize }

/-! ## Hash trees

Both trees of the function are folded in place, level by level: a level of odd
length repeats its last node, then node `i` of the next level is the hash of
the nodes `2i` and `2i + 1` of this one. -/

def hashPairs (sha256d : Bytes → Hash) (n : Nat) (tree : Bytes) : GbtM Bytes :=
  (List.range n).foldlM (fun tree i => do
    let pair ← peek tree (32 * (2 * i)) 64
    poke tree (32 * i) (sha256d pair).toList) tree

/-- Makes the length of a level even, where there is a pair to make. -/
def padLevel (n : Nat) (tree : Bytes) : GbtM Bytes :=
  if n % 2 = 1 then do
    let last ← peek tree (32 * (n - 1)) 32
    poke tree (32 * n) last
  else pure tree

def foldTree (sha256d : Bytes → Hash) : Nat → Nat → Bytes → GbtM Bytes
  | 0, _, tree => pure tree
  | fuel + 1, n, tree =>
      if n > 1 then do
        let tree ← padLevel n tree
        let tree ← hashPairs sha256d ((n + 1) / 2) tree
        foldTree sha256d fuel ((n + 1) / 2) tree
      else pure tree

/-- The loop over `merkle_tree`, which counts its levels in another way. -/
def foldMerkleTree (sha256d : Bytes → Hash) : Nat → Nat → Bytes → GbtM Bytes
  | 0, _, tree => pure tree
  | fuel + 1, n, tree =>
      if n > 1 then do
        let (tree, n) ← if n % 2 = 1 then do
            let last ← peek tree (32 * (n - 1)) 32
            let tree ← poke tree (32 * n) last
            pure (tree, n + 1)
          else pure (tree, n)
        let tree ← hashPairs sha256d (n / 2) tree
        foldMerkleTree sha256d fuel (n / 2) tree
      else pure tree

/-! ## The coinbase transaction -/

/-- The script number of a height above 16, from `cbtx[cbtx_size]` on. The loop
has no bound of its own; 256 rounds leave the buffer. -/
def pushHeight : Nat → Int → Bytes → Nat → GbtM (Bytes × Nat)
  | 0, _, _, _ => throw .fault
  | fuel + 1, n, cbtx, size =>
      if n = 0 then pure (cbtx, size)
      else do
        let cbtx ← poke cbtx size [UInt8.ofNat (n % 256).toNat]
        let size := size + 1
        if n < 0x100 ∧ 0x80 ≤ n then do
          let cbtx ← poke cbtx size [0]
          pushHeight fuel (n / 256) cbtx (size + 1)
        else pushHeight fuel (n / 256) cbtx size

/-- BIP 34: height in coinbase. -/
def coinbaseHeight (height : Int) (cbtx : Bytes) : GbtM (Bytes × Nat) :=
  if 1 ≤ height ∧ height ≤ 16 then do
    let cbtx ← poke cbtx 42 [UInt8.ofNat (height + 0x50).toNat]
    let cbtx ← poke cbtx 43 [0]
    pure (cbtx, 44)
  else do
    let (cbtx, size) ← pushHeight 256 height cbtx 43
    let cbtx ← poke cbtx 42 [UInt8.ofNat (size - 43)]
    pure (cbtx, size)

/-- The leaves of the witness tree: a zero for the coinbase, then the hashes of
the transactions. -/
def witnessLeaves (txa : List Json) (wtree : Bytes) : GbtM Bytes :=
  txa.zipIdx.foldlM (fun wtree (tx, i) =>
    match jsonObjectGet (some tx) "hash" with
    | none => throw (.out "JSON invalid transaction hash")
    | some hash => do
        let leaf ← peek wtree (32 * (1 + i)) 32
        match hex2bin leaf (jsonStringValue (some hash)) 32 with
        | (false, _) => throw (.out "JSON invalid transaction hash")
        | (true, leaf) => poke wtree (32 * (1 + i)) (memrev leaf)) wtree

/-- The second output of a segwit coinbase, which commits to the witness tree. -/
def witnessOutput (sha256d : Bytes → Hash) (txa : List Json) (cbtx : Bytes) (size : Nat) :
    GbtM (Bytes × Nat) := do
  let cbtx ← poke cbtx size (List.replicate 8 0)
  let cbtx ← poke cbtx (size + 8) [38, 0x6a, 0x24, 0xaa, 0x21, 0xa9, 0xed]
  let wtree ← witnessLeaves txa (List.replicate (32 * (txa.length + 2)) 0)
  let wtree ← foldTree sha256d (txa.length + 1) (txa.length + 1) wtree
  let wtree ← poke wtree 32 (List.replicate 32 0)
  let root ← peek wtree 0 64
  let cbtx ← poke cbtx (size + 15) (sha256d root).toList
  pure (cbtx, size + 47)

/-- An integer as a `double`. -/
def doubleOfInt (i : Int) : Int := i.sign * roundBits 53 i.natAbs

/-- A `double` as an `int64_t`, truncated. What is out of range C leaves open; the
result is that of x86-64. -/
def int64OfDouble (r : Rat) : UInt64 :=
  let i := if 0 ≤ r then r.floor else r.ceil
  if -2 ^ 63 ≤ i ∧ i < 2 ^ 63 then .ofInt i else 0x8000000000000000

/-- The value of the first output. The conditional that reads it has the type of
`json_number_value`, so that an integer becomes a `double` too. -/
def coinbaseValue (val : Option Json) : GbtM UInt64 :=
  match jsonObjectGet val "coinbasevalue" with
  | some (.integer i) => pure (int64OfDouble (doubleOfInt i))
  | some (.real r) => pure (int64OfDouble r)
  | _ => throw (.out "JSON invalid coinbasevalue")

/-- A coinbase of the miner's own, paying the selected address. -/
def buildCoinbase (sha256d : Bytes → Hash) (cfg : GbtConfig) (val : Option Json)
    (segwit : Bool) (txa : List Json) : GbtM (Bytes × Nat) := do
  if cfg.pkScriptSize = 0 then
    if cfg.allowGetwork then
      modifyGlobals fun g => { g with haveGbt := false }
      throw (.out "No payout address provided, switching to getwork")
    else throw (.out "No payout address provided")
  let cbvalue ← coinbaseValue val
  let cbtx ← poke (malloc cfg.heap 256) 0 (le32enc 1)
  let cbtx ← poke cbtx 4 [1]
  let cbtx ← poke cbtx 5 (List.replicate 32 0)
  let cbtx ← poke cbtx 37 (le32enc 0xffffffff)
  let (cbtx, size) ← coinbaseHeight (← get).work.height cbtx
  let cbtx ← poke cbtx 41 [UInt8.ofNat (size - 42)]
  let cbtx ← poke cbtx size (le32enc 0xffffffff)
  let cbtx ← poke cbtx (size + 4) [if segwit then 2 else 1]
  let cbtx ← poke cbtx (size + 5) (le32enc cbvalue.toUInt32)
  let cbtx ← poke cbtx (size + 9) (le32enc (cbvalue >>> 32).toUInt32)
  let cbtx ← poke cbtx (size + 13) [UInt8.ofNat cfg.pkScriptSize]
  let script ← peek cfg.pkScript 0 cfg.pkScriptSize
  let cbtx ← poke cbtx (size + 14) script
  let size := size + 14 + cfg.pkScriptSize
  let (cbtx, size) ← if segwit then witnessOutput sha256d txa cbtx size else pure (cbtx, size)
  let cbtx ← poke cbtx size (le32enc 0)
  pure (cbtx, size + 4)

/-- The coinbase the server supplies. -/
def serverCoinbase (cfg : GbtConfig) (coinbasetxn : Json) : GbtM (Bytes × Nat) :=
  let cbtxHex := jsonStringValue (jsonObjectGet (some coinbasetxn) "data")
  let size := match cbtxHex with
    | some hex => hex.length / 2
    | none => 0
  let cbtx := malloc cfg.heap (size + 100)
  if size < 60 then throw (.out "JSON invalid coinbasetxn")
  else
    match hex2bin cbtx cbtxHex size with
    | (false, _) => throw (.out "JSON invalid coinbasetxn")
    | (true, cbtx) => pure (cbtx, size)

/-- The extra script data: the signature, then the auxiliary strings, each only
where the script stays within its hundred bytes. A malformed auxiliary string
ends the walk. -/
def coinbaseExtra (cfg : GbtConfig) (val : Option Json) (scriptLen : Nat) : Bytes :=
  let xsig := if scriptLen + cfg.coinbaseSig.length ≤ 100 then cfg.coinbaseSig else []
  match jsonObjectGet val "coinbaseaux" with
  | some (.object members) => aux members xsig
  | _ => xsig
where
  aux : List (String × Json) → Bytes → Bytes
    | [], xsig => xsig
    | (_, v) :: rest, xsig =>
        match jsonStringValue (some v) with
        | none => xsig
        | some s =>
            let n := s.length / 2
            if n > 100 then xsig
            else
              match hex2bin (List.replicate n 0) (some s) n with
              | (false, _) => xsig
              | (true, buf) =>
                  aux rest (if scriptLen + xsig.length + n ≤ 100 then xsig ++ buf else xsig)

/-- Inserts the extra data behind the script, with the push it needs. -/
def appendCoinbase (cfg : GbtConfig) (val : Option Json) (cbtx : Bytes) (size : Nat) :
    GbtM (Bytes × Nat) := do
  let scriptLen := (← peek cbtx 41 1).headD 0
  let len := scriptLen.toNat
  let xsig := coinbaseExtra cfg val len
  if xsig.length = 0 then pure (cbtx, size)
  else do
    let ssigEnd := 42 + len
    let pushLen :=
      if len + xsig.length < 76 then 1 else if len + 2 + xsig.length > 100 then 0 else 2
    let n := xsig.length + pushLen
    if size < ssigEnd then throw .fault
    let tail ← peek cbtx ssigEnd (size - ssigEnd)
    let cbtx ← poke cbtx (ssigEnd + n) tail
    let cbtx ← poke cbtx 41 [scriptLen + UInt8.ofNat n]
    let cbtx ← if pushLen = 2 then poke cbtx ssigEnd [0x4c] else pure cbtx
    let ssigEnd := if pushLen = 2 then ssigEnd + 1 else ssigEnd
    let cbtx ← if pushLen ≠ 0 then poke cbtx ssigEnd [UInt8.ofNat xsig.length] else pure cbtx
    let ssigEnd := if pushLen ≠ 0 then ssigEnd + 1 else ssigEnd
    let cbtx ← poke cbtx ssigEnd xsig
    pure (cbtx, size + n)

def coinbase (sha256d : Bytes → Hash) (cfg : GbtConfig) (val : Option Json)
    (txa : List Json) : GbtM (Bytes × Nat) :=
  match jsonObjectGet val "coinbasetxn" with
  | some coinbasetxn => do
      let (cbtx, size) ← serverCoinbase cfg coinbasetxn
      if mutableHas val "coinbase/append" then appendCoinbase cfg val cbtx size
      else pure (cbtx, size)
  | none => do
      let (cbtx, size) ← buildCoinbase sha256d cfg val (segwit val) txa
      appendCoinbase cfg val cbtx size

end Gbt

end AlphaMiner
