import AlphaMiner.Lib.CSearch
import AlphaMiner.Model.Socket

/-!
# The memory behind `sockbuf`

`stratum_buffer_append` and the extraction of a line once more, with the size on
record and every access checked: a function is `none` if it reads or writes outside
of the block. Sizes are those of strings in memory, so no `size_t` overflows, and
`realloc` succeeds, as the code expects.
-/

namespace AlphaMiner

open Lib

/-- `sockbuf` is the block that it points to, `none` being `NULL`. -/
structure SockBuf where
  sockbuf : Option Bytes
  sockbufSize : Nat
  deriving DecidableEq

/-- What `stratum_connect` does to the buffer. -/
def SockBuf.connect (b : SockBuf) : Option SockBuf := do
  let (sockbuf, size) :=
    match b.sockbuf with
    | none => (.replicate rbufsize 0, rbufsize)
    | some sockbuf => (sockbuf, b.sockbufSize)
  let sockbuf ← store? sockbuf 0 [0]
  some ⟨some sockbuf, size⟩

def SockBuf.append (heap : Nat → UInt8) (b : SockBuf) (s : Bytes) : Option SockBuf := do
  let sockbuf ← b.sockbuf
  let old := (← str? sockbuf).length
  let new := old + s.length + 1
  let size := if new ≥ b.sockbufSize then new + (rbufsize - new % rbufsize) else b.sockbufSize
  let sockbuf := if new ≥ b.sockbufSize then realloc heap sockbuf size else sockbuf
  let sockbuf ← store? sockbuf old (s ++ [0])
  some ⟨some sockbuf, size⟩

/-- What is extracted, `none` being `NULL`, and the buffer afterwards. -/
def SockBuf.takeLine (b : SockBuf) : Option (Option Bytes × SockBuf) := do
  let sockbuf ← b.sockbuf
  let buflen := (← str? sockbuf).length
  match strtok sockbuf newline with
  | (none, sockbuf) => some (none, { b with sockbuf := some sockbuf })
  | (some tok, sockbuf) =>
      let sret ← str? (sockbuf.drop tok)
      let len := sret.length
      let sockbuf ←
        if buflen > len + 1 then memmove? sockbuf 0 (len + 1) (buflen - len + 1)
        else store? sockbuf 0 [0]
      some (some sret, { b with sockbuf := some sockbuf })

/-- What is done to the buffer of a pool. -/
inductive SockOp where
  | connect
  | append (heap : Nat → UInt8) (s : Bytes) (nul_free : 0 ∉ s)
  | takeLine

def SockBuf.apply (b : SockBuf) : SockOp → Option SockBuf
  | .connect => b.connect
  | .append heap s _ => b.append heap s
  | .takeLine => b.takeLine.map Prod.snd

end AlphaMiner
