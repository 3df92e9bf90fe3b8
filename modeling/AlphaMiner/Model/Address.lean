import AlphaMiner.Model.Work

/-!
# Payout addresses (`util.c`)

An address is Base58 or Bech32, and `address_to_script` turns either into the
output script that pays it. It tries Base58 first: what `b58dec` takes for a
number below `2^200` is an address of that kind or none at all. Strings are
passed without their terminator.

Two of these functions rely on their input to stay inside a buffer. `b58check`
compares the zero bytes in front of the number with the ones in front of the
string, and `convert_bits` writes for as long as there are bits. Here each is
`none` where it would leave the buffer. The loops of `bech32_decode` write from
the front on, and the length limit keeps them inside, so their output is a list
that grows.
-/

namespace AlphaMiner

open Lib

/-! ## Base58 -/

def b58digits : Bytes := ascii "123456789ABCDEFGHJKLMNPQRSTUVWXYZabcdefghijkmnopqrstuvwxyz"

/-- One round of the inner loop of `b58dec`: a word, and what is carried into
it from the words behind. -/
def b58dec.word (outi : UInt32) (acc : UInt32 × List UInt32) : UInt32 × List UInt32 :=
  let t := outi.toUInt64 * 58 + acc.1.toUInt64
  ((t >>> 32).toUInt32, (t &&& 0xffffffff).toUInt32 :: acc.2)

def b58dec.loop (remmask : UInt32) : Bytes → List UInt32 → Option (List UInt32)
  | [], outi => some outi
  | ch :: b58, outi =>
      match b58digits.idxOf? ch with
      | none => none
      | some digit =>
          let (c, outi) := outi.foldr b58dec.word (.ofNat digit, [])
          if c ≠ 0 ∨ outi.headD 0 &&& remmask ≠ 0 then none else b58dec.loop remmask b58 outi

/-- `b58dec(bin, binsz, b58)`: the bytes it fills `bin` with. -/
def b58dec (binsz : Nat) (b58 : Bytes) : Option Bytes :=
  let outisz := (binsz + 3) / 4
  let rem := binsz % 4
  let remmask : UInt32 := 0xffffffff <<< (8 * UInt32.ofNat rem)
  match b58dec.loop remmask b58 (.replicate outisz 0) with
  | none => none
  | some outi => some ((outi.flatMap be32enc).drop ((4 - rem) % 4))

/-- Whether `bin` begins with as many zero bytes as the string with ones. -/
def b58check.zeros : Bytes → Bytes → Option Bool
  | [], _ => none
  | b :: bin, b58 =>
      match b58 with
      | [] => some (b ≠ 0)
      | ch :: b58 =>
          if b = 0 ∧ ch = 49 then b58check.zeros bin b58 else some (¬(b = 0 ∨ ch = 49))

def b58check (sha256d : Bytes → Hash) (bin b58 : Bytes) : Option Int :=
  let buf := (sha256d (bin.take (bin.length - 4))).toList
  if bin.drop (bin.length - 4) ≠ buf.take 4 then some (-1)
  else
    match b58check.zeros bin b58 with
    | none => none
    | some false => some (-3)
    | some true => some (bin.headD 0).toNat

/-! ## Bech32 -/

/-- All ones if the bit is set. -/
def polymodMask (b i : UInt8) : UInt32 := -((b >>> i) &&& 1).toUInt32

def bech32PolymodStep (pre : UInt32) : UInt32 :=
  let b : UInt8 := (pre >>> 25).toUInt8
  ((pre &&& 0x1ffffff) <<< 5) ^^^
    (polymodMask b 0 &&& 0x3b6a57b2) ^^^
    (polymodMask b 1 &&& 0x26508e6d) ^^^
    (polymodMask b 2 &&& 0x1ea119fa) ^^^
    (polymodMask b 3 &&& 0x3d4233dd) ^^^
    (polymodMask b 4 &&& 0x2a1462b3)

def bech32CharsetRev : List Int :=
  [-1, -1, -1, -1, -1, -1, -1, -1, -1, -1, -1, -1, -1, -1, -1, -1,
   -1, -1, -1, -1, -1, -1, -1, -1, -1, -1, -1, -1, -1, -1, -1, -1,
   -1, -1, -1, -1, -1, -1, -1, -1, -1, -1, -1, -1, -1, -1, -1, -1,
   15, -1, 10, 17, 21, 20, 26, 30,  7,  5, -1, -1, -1, -1, -1, -1,
   -1, 29, -1, 24, 13, 25,  9,  8, 23, -1, 18, 22, 31, 27, 19, -1,
    1,  0,  3, 16, 11, 28, 12, 14,  6,  4,  2, -1, -1, -1, -1, -1,
   -1, 29, -1, 24, 13, 25,  9,  8, 23, -1, 18, 22, 31, 27, 19, -1,
    1,  0,  3, 16, 11, 28, 12, 14,  6,  4,  2, -1, -1, -1, -1, -1]

/-- The locals of `bech32_decode` that its loops carry along. -/
structure Bech32 where
  chk : UInt32
  out : Bytes
  haveLower : Bool
  haveUpper : Bool

def isLower (ch : UInt8) : Bool := 97 ≤ ch && ch ≤ 122

def isUpper (ch : UInt8) : Bool := 65 ≤ ch && ch ≤ 90

/-- A `char` from 128 on is negative, or else above 126: out either way. -/
def bech32Decode.hrp : Bytes → Bech32 → Option Bech32
  | [], st => some st
  | ch :: input, st =>
      if ch < 33 ∨ 126 < ch then none
      else
        let lowered := if isUpper ch then ch - 65 + 97 else ch
        bech32Decode.hrp input
          { chk := bech32PolymodStep st.chk ^^^ (lowered >>> 5).toUInt32
            out := st.out ++ [lowered]
            haveLower := st.haveLower || isLower ch
            haveUpper := st.haveUpper || isUpper ch }

/-- The characters behind the separator. The last six are the checksum and are
not copied. -/
def bech32Decode.data : Bytes → Bech32 → Option Bech32
  | [], st => some st
  | ch :: input, st =>
      let v := if ch &&& 0x80 ≠ 0 then -1 else bech32CharsetRev.getD ch.toNat (-1)
      if v = -1 then none
      else
        bech32Decode.data input
          { chk := bech32PolymodStep st.chk ^^^ UInt32.ofInt v
            out := if 6 ≤ input.length then st.out ++ [UInt8.ofInt v] else st.out
            haveLower := st.haveLower || isLower ch
            haveUpper := st.haveUpper || isUpper ch }

/-- `hrp` and `data` of an address. -/
def bech32Decode (input : Bytes) : Option (Bytes × Bytes) :=
  let inputLen := input.length
  if inputLen < 8 ∨ 90 < inputLen then none
  else
    let dataLen := (input.reverse.takeWhile (· ≠ 49)).length
    if inputLen ≤ 1 + dataLen ∨ dataLen < 6 then none
    else
      let hrpLen := inputLen - (1 + dataLen)
      match bech32Decode.hrp (input.take hrpLen) ⟨1, [], false, false⟩ with
      | none => none
      | some hrp =>
          let chk := (input.take hrpLen).foldl
            (fun chk ch => bech32PolymodStep chk ^^^ (ch &&& 0x1f).toUInt32)
            (bech32PolymodStep hrp.chk)
          match bech32Decode.data (input.drop (hrpLen + 1)) { hrp with chk := chk, out := [] } with
          | none => none
          | some data =>
              if data.haveLower && data.haveUpper then none
              else if data.chk = 1 then some (hrp.out, data.out)
              else none

/-! ## Regrouping bits -/

/-- The inner loop of `convert_bits`, which takes a whole value off the end of
the bits it has, into a buffer of `cap` bytes. `bits` rounds are enough unless a
value has no bits. -/
def convertBits.emit (cap outbits : Nat) (maxv val : UInt32) :
    Nat → Nat → Bytes → Option (Nat × Bytes)
  | 0, bits, out => if bits < outbits then some (bits, out) else none
  | fuel + 1, bits, out =>
      if bits < outbits then some (bits, out)
      else if out.length < cap then
        let bits := bits - outbits
        convertBits.emit cap outbits maxv val fuel bits
          (out ++ [((val >>> UInt32.ofNat bits) &&& maxv).toUInt8])
      else none

def convertBits.loop (cap outbits inbits : Nat) (maxv : UInt32) :
    Bytes → UInt32 → Nat → Bytes → Option (UInt32 × Nat × Bytes)
  | [], val, bits, out => some (val, bits, out)
  | b :: input, val, bits, out =>
      let val := (val <<< UInt32.ofNat inbits) ||| b.toUInt32
      match convertBits.emit cap outbits maxv val (bits + inbits) (bits + inbits) out with
      | none => none
      | some (bits, out) => convertBits.loop cap outbits inbits maxv input val bits out

/-- What it returns, and what it wrote. -/
def convertBits (cap outbits : Nat) (input : Bytes) (inbits : Nat) (pad : Bool) :
    Option (Bool × Bytes) :=
  let maxv : UInt32 := (1 <<< UInt32.ofNat outbits) - 1
  match convertBits.loop cap outbits inbits maxv input 0 0 [] with
  | none => none
  | some (val, bits, out) =>
      let rest := (val <<< UInt32.ofNat (outbits - bits)) &&& maxv
      if pad then
        if bits = 0 then some (true, out)
        else if out.length < cap then some (true, out ++ [rest.toUInt8])
        else none
      else some (!(rest ≠ 0 || inbits ≤ bits), out)

/-- `segwit_addr_decode` into a buffer of 40 bytes: the version and the program
of the witness. -/
def segwitAddrDecode (addr : Bytes) : Option (Option (Nat × Bytes)) :=
  match bech32Decode addr with
  | none => some none
  | some (_, []) => some none
  | some (_, version :: data) =>
      if 65 < data.length + 1 then some none
      else if 16 < version then some none
      else
        match convertBits 40 8 data 5 false with
        | none => none
        | some (false, _) => some none
        | some (true, witdata) =>
            if witdata.length < 2 ∨ 40 < witdata.length then some none
            else if version = 0 ∧ witdata.length ≠ 20 ∧ witdata.length ≠ 32 then some none
            else some (some (version.toNat, witdata))

/-! ## Scripts

A function that writes a script into `out` has the size that it returns and
`out` afterwards as its result. `outsz` is the length of `out`. -/

def bech32ToScript (out addr : Bytes) : Option (Nat × Bytes) :=
  match segwitAddrDecode addr with
  | none => none
  | some none => some (0, out)
  | some (some (witver, witprog)) =>
      if out.length < witprog.length + 2 then some (0, out)
      else
        let out := store out 0 [if witver = 0 then 0 else UInt8.ofNat (0x50 + witver)]
        let out := store out 1 [UInt8.ofNat witprog.length]
        some (witprog.length + 2, store out 2 witprog)

def addressToScript (sha256d : Bytes → Hash) (out addr : Bytes) : Option (Nat × Bytes) :=
  match b58dec 25 addr with
  | none => bech32ToScript out addr
  | some addrbin =>
      match b58check sha256d addrbin addr with
      | none => none
      | some addrver =>
          if addrver < 0 then some (0, out)
          else if addrver = 5 ∨ addrver = 196 then
            if out.length < 23 then some (23, out)
            else
              let out := store out 0 [0xa9]  -- OP_HASH160
              let out := store out 1 [0x14]  -- push 20 bytes
              let out := store out 2 (slice addrbin 1 20)
              some (23, store out 22 [0x87])  -- OP_EQUAL
          else if out.length < 25 then some (25, out)
          else
            let out := store out 0 [0x76]  -- OP_DUP
            let out := store out 1 [0xa9]  -- OP_HASH160
            let out := store out 2 [0x14]  -- push 20 bytes
            let out := store out 3 (slice addrbin 1 20)
            let out := store out 23 [0x88]  -- OP_EQUALVERIFY
            some (25, store out 24 [0xac])  -- OP_CHECKSIG

end AlphaMiner
