import AlphaMiner.Model.Json
import AlphaMiner.Model.Scan
import AlphaMiner.Model.Util

/-!
# The work record and its simplest filler (`cpu-miner.c`)

`Work` is `struct work`: a header of thirty-two words of which twenty are
serialised, the target, and what a submission needs besides. A pointer field is
an option, `none` for `NULL`; `xnonce2` carries its length with it.

`work_decode` fills a record from a `getwork` reply. It decodes straight into
the record, so a reply that fails in the middle of a field leaves the part of
the field it got to, and it writes nothing but the two fields it reads.
-/

namespace AlphaMiner

open Lib

structure Work where
  data : Vector UInt32 32
  target : Vector UInt32 8
  height : Int
  txs : Option Bytes
  workid : Option Bytes
  jobId : Option Bytes
  xnonce2 : Option Bytes
  randomxSeedHash : Hash
  rxHash : Hash

/-- The record as `= {{0}}` and `calloc` leave it. -/
def Work.zero : Work where
  data := .replicate 32 0
  target := .replicate 8 0
  height := 0
  txs := none
  workid := none
  jobId := none
  xnonce2 := none
  randomxSeedHash := .replicate 32 0
  rxHash := .replicate 32 0

/-- `work_copy`, on values: every field, and a copy of what it points to. -/
def workCopy (src : Work) : Work := src

def jobjBinary (obj : Option Json) (key : String) (buf : Bytes) (buflen : Nat) :
    Bool × Bytes :=
  match jsonObjectGet obj key with
  | none => (false, buf)
  | some tmp =>
      match jsonStringValue (some tmp) with
      | none => (false, buf)
      | some hexstr => hex2bin buf (some hexstr) buflen

/-- `for (i…) a[i] = le32dec(a + i)`: each word replaced by the little-endian
reading of the bytes it occupies. -/
def le32decInPlace {n : Nat} (host : ByteOrder) (a : Vector UInt32 n) : Vector UInt32 n :=
  a.map fun w => le32dec (host.enc w)

def workDecode (host : ByteOrder) (val : Option Json) (work : Work) : Bool × Work :=
  let (okData, data) := jobjBinary val "data" (host.bytes work.data) 128
  let work := { work with data := host.words 32 data }
  if !okData then (false, work)
  else
    let (okTarget, target) := jobjBinary val "target" (host.bytes work.target) 32
    let work := { work with target := host.words 8 target }
    if !okTarget then (false, work)
    else
      (true, { work with
        data := le32decInPlace host work.data
        target := le32decInPlace host work.target })

end AlphaMiner
