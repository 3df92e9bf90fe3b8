import AlphaMiner.Lib.Buffer

/-!
# Bytes, hexadecimal and counts (`util.c`)

The conversions every header, transaction and share goes through. Buffers are
passed in with what they held, because two of these functions can leave part of
it behind: `hex2bin` clears its buffer only once the length of the string has
been accepted, and gives up in the middle of the buffer on the first character
that is no hexadecimal digit.
-/

namespace AlphaMiner

open Lib

/-- A fresh block of `n` bytes, holding whatever the heap held. -/
def malloc (heap : Nat → UInt8) (n : Nat) : Bytes := (List.range n).map heap

/-- A block resized to `n` bytes: the old bytes as far as they fit, then heap. -/
def realloc (heap : Nat → UInt8) (p : Bytes) (n : Nat) : Bytes :=
  p.take n ++ (malloc heap n).drop p.length

theorem length_malloc (heap : Nat → UInt8) (n : Nat) : (malloc heap n).length = n := by
  simp [malloc]

theorem length_realloc (heap : Nat → UInt8) (p : Bytes) (n : Nat) :
    (realloc heap p n).length = n := by
  rw [realloc, List.length_append, List.length_take, List.length_drop, length_malloc]
  omega

theorem take_realloc {heap : Nat → UInt8} {p : Bytes} {k n : Nat} (hk : k ≤ n)
    (hp : k ≤ p.length) : (realloc heap p n).take k = p.take k := by
  rw [realloc, List.take_append_of_le_length (by rw [List.length_take]; omega),
    List.take_take, Nat.min_eq_left hk]

def intMax : Int := 2 ^ 31 - 1

/-- `n++` for an `int`. -/
def increment (n : Nat) : Option Nat := if (n : Int) < intMax then some (n + 1) else none

/-- `n * 2` for an `int`. -/
def twice (n : Nat) : Option Nat := if (n : Int) * 2 ≤ intMax then some (n * 2) else none

def memrev (p : Bytes) : Bytes := p.reverse

/-! ## Hexadecimal -/

/-- The digit that `%x` prints for a nibble. -/
def hexDigit (nibble : UInt8) : UInt8 :=
  if nibble < 10 then nibble + 48 else nibble + 87

def bin2hex (p : Bytes) : Bytes :=
  p.flatMap fun (b : UInt8) => [hexDigit (b >>> 4), hexDigit (b &&& 15)]

/-- The loop of `bin2hex` from `i` on, with two digits and the end of a string for every
byte. Where the `int` `i * 2` overflows there is no result. -/
def bin2hex.loop : Bytes → Nat → Bytes → Option Bytes
  | [], _, s => some s
  | b :: p, i, s => do
      let s ← store? s (← twice i) [hexDigit (b >>> 4), hexDigit (b &&& 15), 0]
      bin2hex.loop p (← increment i) s

/-- What `bin2hex(s, p, len)` leaves in the block at `s`. -/
def bin2hex.block (s p : Bytes) : Option Bytes := bin2hex.loop p 0 s

def hexNibble (c : UInt8) : Option UInt8 :=
  if 48 ≤ c && c ≤ 57 then some (c - 48)
  else if 65 ≤ c && c ≤ 70 then some (10 + (c - 65))
  else if 97 ≤ c && c ≤ 102 then some (10 + (c - 97))
  else none

def hex2bin.loop : Bytes → Nat → Bytes → Bool × Bytes
  | [], _, p => (true, p)
  | c :: rest, i, p =>
      match hexNibble c with
      | none => (false, p)
      | some nibble =>
          let shift : UInt8 := UInt8.ofNat ((1 - i % 2) * 4)
          hex2bin.loop rest (i + 1) (p.modify (i / 2) fun b => b ||| (nibble <<< shift))

/-- `hex2bin(p, hexstr, len)`: what it returns, and what `p` holds after. -/
def hex2bin (p : Bytes) (hexstr : Option Bytes) (len : Nat) : Bool × Bytes :=
  match hexstr with
  | none => (false, p)
  | some s =>
      if s.length % 2 ≠ 0 then (false, p)
      else if len < s.length / 2 then (false, p)
      else hex2bin.loop s 0 (store p 0 (List.replicate len 0))

theorem length_hex2bin_loop : ∀ (s : Bytes) (i : Nat) (p : Bytes),
    (hex2bin.loop s i p).2.length = p.length := by
  intro s
  induction s with
  | nil => exact fun _ _ => rfl
  | cons c rest ih =>
      intro i p
      rw [hex2bin.loop]
      split
      · rfl
      · rw [ih, List.length_modify]

@[simp] theorem length_hex2bin {p : Bytes} {hexstr : Option Bytes} {len : Nat}
    (h : len ≤ p.length) : (hex2bin p hexstr len).2.length = p.length := by
  unfold hex2bin
  split
  · rfl
  · split
    · rfl
    · split
      · rfl
      · rw [length_hex2bin_loop, length_store (by simpa using h)]

/-- `hex2bin` into an array of the size it is told, its answer ignored. -/
def hex2binArray {n : Nat} (p : Vector UInt8 n) (hexstr : Bytes) : Vector UInt8 n :=
  ⟨(hex2bin p.toList (some hexstr) n).2.toArray, by simp⟩

/-! ## Counts -/

/-- The bytes `varint_encode` writes; their number is what it returns. -/
def varintEncode (n : UInt64) : Bytes :=
  if n < 0xfd then [n.toUInt8]
  else if n ≤ 0xffff then [0xfd, (n &&& 0xff).toUInt8, (n >>> 8).toUInt8]
  else if n ≤ 0xffffffff then
    0xfe :: (List.range 4).map fun i => ((n >>> (8 * UInt64.ofNat i)) &&& 0xff).toUInt8
  else
    0xff :: (List.range 8).map fun i => ((n >>> (8 * UInt64.ofNat i)) &&& 0xff).toUInt8

/-- What `sprintf` prints for a 32-bit unsigned argument under `%d`, which
reads it as a signed one. -/
def sprintfD (n : UInt32) : Bytes :=
  ascii (toString (if n.toNat < 2 ^ 31 then (n.toNat : Int) else n.toNat - 2 ^ 32))

/-! ## Numbers in strings -/

def isSpace (c : UInt8) : Bool := c = 32 || (9 ≤ c && c ≤ 13)

def digitsValue (s : Bytes) : Nat :=
  (s.takeWhile fun c => 48 ≤ c && c ≤ 57).foldl (fun n c => 10 * n + (c.toNat - 48)) 0

/-- `atoi`, which is `strtol` cut down to an `int`. -/
def atoi (s : Bytes) : Int :=
  let value : Int :=
    match s.dropWhile isSpace with
    | 45 :: rest => max (-(digitsValue rest)) (-2 ^ 63)
    | 43 :: rest => min (digitsValue rest) (2 ^ 63 - 1)
    | rest => min (digitsValue rest) (2 ^ 63 - 1)
  value.bmod (2 ^ 32)

end AlphaMiner
