import AlphaMiner.Lib.CSearch
import AlphaMiner.Lib.TextFile
import AlphaMiner.Model.JsonNumbers
import AlphaMiner.Model.Stratum

/-!
# The two callbacks of a request (`all_data_cb` and `resp_hdr_cb`, `util.c`)

curl hands over the reply in pieces, a header line or a part of the body at a time.
`size_t` has 64 bits. Each call is `none` where it would leave a block of memory.
-/

namespace AlphaMiner

open Lib

structure HeaderInfo where
  lpPath : Option Bytes
  reason : Option Bytes
  stratumUrl : Option Bytes
  contentLength : UInt64
  deriving DecidableEq

/-- `buf` is the block that it points to, `none` being `NULL`. -/
structure DataBuffer where
  buf : Option Bytes
  len : UInt64
  allocated : UInt64
  deriving DecidableEq

/-! ## The body -/

/-- What a write callback is given: `size * nmemb` bytes. -/
structure Delivery where
  ptr : Bytes
  size : UInt64
  nmemb : UInt64
  length_ptr : ptr.length = size.toNat * nmemb.toNat

def maxReallocIncrease : UInt64 := 8 * 1024 * 1024

def initialAlloc : UInt64 := 16 * 1024

/-- The size that is asked of `realloc`. -/
def allDataCb.newalloc (db : DataBuffer) (headers : HeaderInfo) (reqalloc : UInt64) : UInt64 :=
  let newalloc :=
    if 0 < db.len then db.allocated * 2
    else if 0 < headers.contentLength then headers.contentLength + 1
    else initialAlloc
  let newalloc :=
    if headers.contentLength = 0 then
      if newalloc - db.allocated > maxReallocIncrease then db.allocated + maxReallocIncrease
      else newalloc
    else newalloc
  if reqalloc > newalloc then reqalloc else newalloc

/-- What `realloc` finds behind the bytes it keeps, or `none` if there is no memory. -/
abbrev Realloc := Option (Nat → UInt8)

/-- The two copies behind the bytes that are there. -/
def allDataCb.append (db : DataBuffer) (chunk : Delivery) : Option (UInt64 × DataBuffer) := do
  let len := chunk.size * chunk.nmemb
  let new ← slice? chunk.ptr 0 len.toNat
  let buf ← store? (db.buf.getD []) db.len.toNat new
  let buf ← store? buf (db.len.toNat + len.toNat) [0]
  some (len, { db with buf := some buf, len := db.len + len })

/-- What it returns, and the buffer afterwards. -/
def allDataCb (db : DataBuffer) (headers : HeaderInfo) (memory : Realloc) (chunk : Delivery) :
    Option (UInt64 × DataBuffer) :=
  let len := chunk.size * chunk.nmemb
  let reqalloc := db.len + len + 1
  if reqalloc > db.allocated then
    let newalloc := allDataCb.newalloc db headers reqalloc
    match memory with
    | none => some (0, db)
    | some heap =>
        allDataCb.append
          { db with
            buf := some (realloc heap (db.buf.getD []) newalloc.toNat)
            allocated := newalloc } chunk
  else allDataCb.append db chunk

/-- A call with what decides it. -/
structure BodyCall where
  chunk : Delivery
  headers : HeaderInfo
  memory : Realloc

/-- The buffer of a request, and the chunks that were accepted on record. -/
structure Body where
  db : DataBuffer
  accepted : List Bytes

def Body.start : Body := ⟨⟨none, 0, 0⟩, []⟩

def Body.receive (b : Body) (c : BodyCall) : Option Body :=
  (allDataCb b.db c.headers c.memory c.chunk).map fun r =>
    ⟨r.2, if r.1.toNat = c.chunk.ptr.length then b.accepted ++ [c.chunk.ptr] else b.accepted⟩

/-! ## The header lines -/

/-- `strtoul(s, NULL, 10)`. A number with a sign is taken modulo the width. -/
def strtoul (long : LongWidth) (s : Bytes) : UInt64 :=
  let t := s.dropWhile isspace
  let digits := if t.head? = some 45 ∨ t.head? = some 43 then t.tail else t
  let ulongMax : Nat := (2 * long.max + 1).toNat
  if ulongMax < digitsValue digits then .ofNat ulongMax
  else if t.head? = some 45 then .ofNat ((ulongMax + 1 - digitsValue digits) % (ulongMax + 1))
  else .ofNat (digitsValue digits)

/-- `!strcasecmp(name, key)`. -/
def isNamed (name : String) (key : Bytes) : Bool :=
  (ascii name).map lowerAscii = key.map lowerAscii

/-- The loop that moves `rem` over the white space in front of the value. -/
def respHdrCb.skip (ptr : Bytes) : Nat → Nat → Option (Nat × Nat)
  | rem, 0 => some (rem, 0)
  | rem, remlen + 1 =>
      match ptr[rem]? with
      | none => none
      | some c =>
          if isspace c then respHdrCb.skip ptr (rem + 1) remlen else some (rem, remlen + 1)

/-- The loop that cuts white space off the end of the string in `val`. -/
def respHdrCb.trimEnd : Nat → Bytes → Option Bytes
  | 0, _ => none
  | fuel + 1, val => do
      let s ← str? val
      match s.getLast? with
      | none => some val
      | some c =>
          if isspace c then
            let val ← store? val (s.length - 1) [0]
            respHdrCb.trimEnd fuel val
          else some val

/-- `n` bytes of the line and a terminator, copied into a buffer of its length. -/
def respHdrCb.copy (ptr : Bytes) (off n : Nat) : Option Bytes := do
  let buf ← store? (.replicate ptr.length 0) 0 (← slice? ptr off n)
  store? buf n [0]

/-- The strings in `key` and `val`, or `some none` for a line that is skipped. -/
def respHdrCb.parse (ptr : Bytes) : Option (Option (Bytes × Bytes)) :=
  match ptr.idxOf? 58 with  -- ':'
  | none => some none
  | some slen =>
      if slen = 0 then some none
      else if slen + 1 = ptr.length then some none
      else do
        let key ← respHdrCb.copy ptr 0 slen
        let (rem, remlen) ← respHdrCb.skip ptr (slen + 1) (ptr.length - slen - 1)
        let val ← respHdrCb.copy ptr rem remlen
        let val ← respHdrCb.trimEnd (remlen + 1) val
        let val ← str? val
        if val = [] then some none
        else some (some (← str? key, val))

/-- A field takes the memory of the value, and `val` is `NULL` from there on. -/
def respHdrCb.steal (name : String) (key : Bytes)
    (set : HeaderInfo → Option Bytes → HeaderInfo) (st : HeaderInfo × Option Bytes) :
    HeaderInfo × Option Bytes :=
  if isNamed name key then (set st.1 st.2, none) else st

/-- `memory` says whether `calloc` gives both buffers. The return value is the
length of the line in any case. -/
def respHdrCb (long : LongWidth) (hi : HeaderInfo) (memory : Bool) (ptr : Bytes) :
    Option HeaderInfo :=
  if !memory then some hi
  else
    match respHdrCb.parse ptr with
    | none => none
    | some none => some hi
    | some (some (key, val)) =>
        let st := (hi, some val)
        let st := respHdrCb.steal "X-Long-Polling" key (fun hi v => { hi with lpPath := v }) st
        let st := respHdrCb.steal "X-Reject-Reason" key (fun hi v => { hi with reason := v }) st
        let st := respHdrCb.steal "X-Stratum" key (fun hi v => { hi with stratumUrl := v }) st
        if isNamed "Content-Length" key then
          st.2.map fun val => { st.1 with contentLength := strtoul long val }
        else some st.1

/-- A header line, and whether there was memory for it. -/
structure HeaderCall where
  ptr : Bytes
  memory : Bool

def HeaderInfo.start : HeaderInfo := ⟨none, none, none, 0⟩

def HeaderInfo.receive (long : LongWidth) (hi : HeaderInfo) (c : HeaderCall) : Option HeaderInfo :=
  respHdrCb long hi c.memory c.ptr

end AlphaMiner
