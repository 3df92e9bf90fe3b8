import AlphaMiner.Model.Gbt

/-!
# Filling the record from a block template (second half of `gbt_work_decode`)

With the coinbase in hand the function writes the transactions out for a later
`submitblock`, hashes them into a tree, and assembles the header. The order of
its steps is kept, because a template that fails late leaves the earlier fields
behind: `work->txs` is there once the coinbase is, and a bad target is noticed
only after the header has been written.

The string of transactions has a capacity that was computed before any of them
was looked at, half a byte of data counting for nothing, so `appendTx` checks
what `strcpy` does not. Both blocks of the stage have a size that is an `int`.
-/

namespace AlphaMiner

open Lib

/-- What both fillers that hash a tree make of the header: the words of the
block, and the padding of its old SHA-256 use behind them. -/
def headerWords (version : UInt32) (prevhash : Fin 8 → UInt32) (merkleRoot : Bytes)
    (ntime nbits : UInt32) : Vector UInt32 32 :=
  Vector.ofFn fun i =>
    if i.val = 0 then version
    else if h : 1 ≤ i.val ∧ i.val < 9 then prevhash ⟨i.val - 1, by omega⟩
    else if 9 ≤ i.val ∧ i.val < 17 then be32dec (slice merkleRoot (4 * (i.val - 9)) 4)
    else if i.val = 17 then ntime
    else if i.val = 18 then nbits
    else if i.val = 20 then 0x80000000
    else if i.val = 31 then 0x00000280
    else 0

/-- The string whose hash is the RandomX key of an epoch. -/
def epochSeedString (nEpoch : UInt32) : Bytes :=
  ascii "Alpha/RandomX/Epoch/" ++ sprintfD nEpoch

namespace Gbt

/-! ## The transactions -/

/-- `malloc` of a size that is computed as an `int`. For a negative one it answers
NULL, which is written through. -/
def mallocInt (bytes : Int) : GbtM Nat :=
  if 0 ≤ bytes ∧ bytes < 2 ^ 31 then pure bytes.toNat else throw .fault

/-- The first two `bin2hex` into the block of the transactions. -/
def beginTxs (capacity : Nat) (count cbtx : Bytes) : GbtM Unit :=
  if 2 * (count.length + cbtx.length) + 1 ≤ capacity then
    modifyWork fun w => { w with txs := some (bin2hex count ++ bin2hex cbtx) }
  else throw .fault

/-- `strcpy(txs_end, tx_hex)`, into a block of `capacity` bytes. -/
def appendTx (capacity : Nat) (hex : Option Bytes) : GbtM Unit := do
  match (← get).work.txs, hex with
  | some txs, some hex =>
      if txs.length + hex.length + 1 ≤ capacity then
        modifyWork fun w => { w with txs := some (txs ++ hex) }
      else throw .fault
  | _, _ => throw .fault

/-- The leaf of a transaction: its id where the template speaks segwit, the
hash of its data elsewhere. -/
def merkleLeaf (sha256d : Bytes → Hash) (heap : Nat → UInt8) (segwit : Bool) (old : Bytes)
    (tx : Json) : GbtM Bytes :=
  if segwit then
    match jsonStringValue (jsonObjectGet (some tx) "txid") with
    | none => throw (.out "JSON invalid transaction txid")
    | some txid =>
        match hex2bin old (some txid) 32 with
        | (false, _) => throw (.out "JSON invalid transaction txid")
        | (true, leaf) => pure (memrev leaf)
  else
    match txHex tx with
    | none => throw (.out "JSON invalid transactions")
    | some hex =>
        match hex2bin (malloc heap (hex.length / 2)) (some hex) (hex.length / 2) with
        | (false, _) => throw (.out "JSON invalid transactions")
        | (true, tx) => pure (sha256d tx).toList

/-- Writes `work->txs` and answers the root of the transaction tree. -/
def merkleRoot (sha256d : Bytes → Hash) (cfg : GbtConfig) (val : Option Json)
    (txa : List Json) (txSize : Int) (cbtx : Bytes) (size : Nat) : GbtM Bytes := do
  let count := varintEncode (UInt64.ofNat (1 + txa.length))
  let capacity ← mallocInt (2 * (count.length + size + txSize) + 1)
  let cbtx ← peek cbtx 0 size
  beginTxs capacity count cbtx
  let treeSize ← mallocInt (32 * (2 * ((txa.length + 2) / 2) : Nat))
  let tree ← poke (malloc cfg.heap treeSize) 0 (sha256d cbtx).toList
  let tree ← txa.zipIdx.foldlM (fun tree (tx, i) => do
    let old ← peek tree (32 * (1 + i)) 32
    let leaf ← merkleLeaf sha256d cfg.heap (segwit val) old tx
    let tree ← poke tree (32 * (1 + i)) leaf
    if !mutableHas val "submit/coinbase" then appendTx capacity (txHex tx)
    pure tree) tree
  let tree ← foldMerkleTree sha256d (1 + txa.length) (1 + txa.length) tree
  peek tree 0 32

/-! ## The header and what follows it -/

/-- The division is the one place where the server's duration is used. -/
def assembleHeader (sha256d : Bytes → Hash) (f : Fields) (root : Bytes) : GbtM Unit :=
  if f.epochDuration = 0 then throw .fault
  else modifyWork fun w => { w with
    data := headerWords (swab32 f.version)
      (fun i => le32dec (slice f.prevhash (4 * (7 - i.val)) 4)) root
      (swab32 f.curtime) (le32dec f.bits)
    randomxSeedHash := sha256d (epochSeedString (f.curtime / f.epochDuration)) }

def readTarget (cfg : GbtConfig) (val : Option Json) : GbtM Unit := do
  let target ← binaryField cfg.heap val "target" "JSON invalid target" 32
  modifyWork fun w => { w with
    target := Vector.ofFn fun i => be32dec (slice target (4 * (7 - i.val)) 4) }

def readWorkid (val : Option Json) : GbtM Unit :=
  match jsonObjectGet val "workid" with
  | none => pure ()
  | some (.string s) => modifyWork fun w => { w with workid := some s }
  | some _ => throw (.out "JSON invalid workid")

def longPolling (cfg : GbtConfig) (val : Option Json) : GbtM Unit :=
  match cfg.wantLongpoll, jsonObjectGet val "longpollid" with
  | true, some (.string id) => do
      modifyGlobals fun g => { g with lpId := some id }
      if !(← get).globals.haveLongpoll then
        let lpUri := match jsonObjectGet val "longpolluri" with
          | some (.string s) => s
          | _ => cfg.rpcUrl
        modifyGlobals fun g => { g with
          haveLongpoll := true
          longpollQueue := g.longpollQueue ++ [lpUri] }
  | _, _ => pure ()

end Gbt

def gbtWorkDecode (sha256d : Bytes → Hash) (cfg : GbtConfig) (val : Option Json) :
    GbtM Unit := do
  let f ← Gbt.fields cfg val
  let (cbtx, size) ← Gbt.coinbase sha256d cfg val f.txa
  let root ← Gbt.merkleRoot sha256d cfg val f.txa f.txSize cbtx size
  Gbt.assembleHeader sha256d f root
  Gbt.readTarget cfg val
  Gbt.readWorkid val
  Gbt.longPolling cfg val

end AlphaMiner
