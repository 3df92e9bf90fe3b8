import Mathlib.Data.Nat.Digits.Defs

/-!
# Words, bytes and the order between them

A C program that reads a 32-bit word through a byte pointer, or a byte buffer
through a word pointer, is doing arithmetic in base 256 and hoping that the
host agrees about which digit comes first. This file is that arithmetic: the
four portable codecs of `<sys/endian.h>`, which name their order, and
`ByteOrder`, the order of a host, which is what an aliased access uses
instead.

Everything later files need of the codecs is a rewriting rule. Encoding and
then decoding under one order is the identity, under the two orders it is
`swab32`, and a four-byte string survives the trip the other way. The last
section reads byte strings and word lists as numbers, least significant digit
first, which is how a 256-bit target is compared.
-/

namespace AlphaMiner.Lib

/-- The bytes of a buffer or of a C string, lowest address first. -/
abbrev Bytes := List UInt8

/-- The bytes a compiler emits for a string literal, terminator left out. -/
def ascii (s : String) : Bytes := s.toList.map fun c => c.toNat.toUInt8

/-! ## The portable codecs -/

def le32enc (x : UInt32) : Bytes :=
  [x.toUInt8, (x >>> 8).toUInt8, (x >>> 16).toUInt8, (x >>> 24).toUInt8]

def be32enc (x : UInt32) : Bytes :=
  [(x >>> 24).toUInt8, (x >>> 16).toUInt8, (x >>> 8).toUInt8, x.toUInt8]

def le32dec (p : Bytes) : UInt32 :=
  (p.getD 0 0).toUInt32 + ((p.getD 1 0).toUInt32 <<< 8) +
    ((p.getD 2 0).toUInt32 <<< 16) + ((p.getD 3 0).toUInt32 <<< 24)

def be32dec (p : Bytes) : UInt32 :=
  (p.getD 3 0).toUInt32 + ((p.getD 2 0).toUInt32 <<< 8) +
    ((p.getD 1 0).toUInt32 <<< 16) + ((p.getD 0 0).toUInt32 <<< 24)

@[simp] theorem length_le32enc (x : UInt32) : (le32enc x).length = 4 := rfl

@[simp] theorem length_be32enc (x : UInt32) : (be32enc x).length = 4 := rfl

theorem be32enc_eq_reverse (x : UInt32) : be32enc x = (le32enc x).reverse := rfl

theorem le32enc_eq_reverse (x : UInt32) : le32enc x = (be32enc x).reverse := rfl

theorem be32dec_eq (a b c d : UInt8) :
    be32dec [a, b, c, d] = le32dec [d, c, b, a] := rfl

/-- Only the first four bytes are read. -/
theorem le32dec_toNat (a b c d : UInt8) :
    (le32dec [a, b, c, d]).toNat =
      a.toNat + 256 * (b.toNat + 256 * (c.toNat + 256 * d.toNat)) := by
  have ha := a.toNat_lt
  have hb := b.toNat_lt
  have hc := c.toNat_lt
  have hd := d.toNat_lt
  simp [le32dec, Nat.shiftLeft_eq]
  omega

@[simp] theorem le32dec_le32enc (x : UInt32) : le32dec (le32enc x) = x := by
  have hx := x.toNat_lt
  apply UInt32.toNat_inj.mp
  rw [le32enc, le32dec_toNat]
  simp [Nat.shiftRight_eq_div_pow]
  omega

/-- Reading the four bytes of a string and writing them again leaves them
where they were. -/
theorem le32enc_le32dec {p : Bytes} (hp : p.length = 4) :
    le32enc (le32dec p) = p := by
  match p, hp with
  | [a, b, c, d], _ =>
      have ha := a.toNat_lt
      have hb := b.toNat_lt
      have hc := c.toNat_lt
      have hd := d.toNat_lt
      simp only [le32enc, List.cons.injEq, and_true]
      refine ⟨?_, ?_, ?_, ?_⟩ <;> apply UInt8.toNat_inj.mp <;>
        simp only [UInt32.toNat_toUInt8, UInt32.toNat_shiftRight, le32dec_toNat] <;>
        simp [Nat.shiftRight_eq_div_pow] <;> omega

@[simp] theorem be32dec_be32enc (x : UInt32) : be32dec (be32enc x) = x :=
  le32dec_le32enc x

theorem be32enc_be32dec {p : Bytes} (hp : p.length = 4) :
    be32enc (be32dec p) = p := by
  match p, hp with
  | [a, b, c, d], _ =>
      rw [be32dec_eq, be32enc_eq_reverse, le32enc_le32dec rfl]
      rfl

theorem be32enc_le32dec {p : Bytes} (hp : p.length = 4) : be32enc (le32dec p) = p.reverse := by
  rw [be32enc_eq_reverse, le32enc_le32dec hp]

theorem le32enc_be32dec {p : Bytes} (hp : p.length = 4) : le32enc (be32dec p) = p.reverse := by
  rw [le32enc_eq_reverse, be32enc_be32dec hp]

theorem be32enc_inj {x y : UInt32} (h : be32enc x = be32enc y) : x = y := by
  rw [← be32dec_be32enc x, h, be32dec_be32enc]

/-- A C conversion to an unsigned word reduces. -/
theorem toNat_ofInt (x : Int) : (UInt32.ofInt x).toNat = (x % 2 ^ 32).toNat := by
  rw [UInt32.ofInt, UInt32.toNat_ofNat']
  omega

/-! ## The byte swap

`swab32` is what separates the two orders, so each lemma below trades one
codec for the other at the price of a swap. -/

/-- A word with the order of its bytes reversed, the builtin `bswap32`. -/
def swab32 (v : UInt32) : UInt32 := be32dec (le32enc v)

theorem le32dec_be32enc (x : UInt32) : le32dec (be32enc x) = swab32 x := rfl

@[simp] theorem be32enc_swab32 (x : UInt32) : be32enc (swab32 x) = le32enc x :=
  be32enc_be32dec (length_le32enc x)

@[simp] theorem le32enc_swab32 (x : UInt32) : le32enc (swab32 x) = be32enc x := by
  rw [le32enc_eq_reverse, be32enc_swab32, be32enc_eq_reverse]

@[simp] theorem swab32_swab32 (x : UInt32) : swab32 (swab32 x) = x :=
  be32enc_inj (by rw [be32enc_swab32, le32enc_swab32])

/-! ## The order of a host -/

/-- The order in which a host keeps the bytes of a word. -/
inductive ByteOrder where
  | little
  | big
  deriving DecidableEq, Repr

/-- The bytes a word occupies in memory. -/
def ByteOrder.enc : ByteOrder → UInt32 → Bytes
  | .little => le32enc
  | .big => be32enc

/-- The word that four bytes of memory hold. -/
def ByteOrder.dec : ByteOrder → Bytes → UInt32
  | .little => le32dec
  | .big => be32dec

@[simp] theorem ByteOrder.length_enc (o : ByteOrder) (x : UInt32) :
    (o.enc x).length = 4 := by
  cases o <;> rfl

@[simp] theorem ByteOrder.dec_enc (o : ByteOrder) (x : UInt32) :
    o.dec (o.enc x) = x := by
  cases o
  · exact le32dec_le32enc x
  · exact be32dec_be32enc x

@[simp] theorem ByteOrder.enc_dec (o : ByteOrder) {p : Bytes} (hp : p.length = 4) :
    o.enc (o.dec p) = p := by
  cases o
  · exact le32enc_le32dec hp
  · exact be32enc_be32dec hp

/-! ## Numbers

Both readings are `Nat.ofDigits`, in base 256 for bytes and in base `2 ^ 32`
for words; `leValue_words` says that the second reading of the words a buffer
holds is the first reading of the buffer. -/

/-- A byte string as an integer, least significant byte first. -/
def leValue (b : Bytes) : Nat := Nat.ofDigits 256 (b.map UInt8.toNat)

/-- A list of words as an integer, least significant word first. -/
def wordsValue (w : List UInt32) : Nat := Nat.ofDigits (2 ^ 32) (w.map UInt32.toNat)

theorem leValue_cons (b : UInt8) (rest : Bytes) :
    leValue (b :: rest) = b.toNat + 256 * leValue rest := by
  rw [leValue, List.map_cons, Nat.ofDigits_cons, leValue]

theorem leValue_lt (b : Bytes) : leValue b < 256 ^ b.length := by
  have hdigit : ∀ x ∈ b.map UInt8.toNat, x < 256 := by
    intro x hx
    obtain ⟨y, -, rfl⟩ := List.mem_map.mp hx
    exact y.toNat_lt
  have h := Nat.ofDigits_lt_base_pow_length (by decide) hdigit
  rwa [List.length_map] at h

theorem leValue_split {p : Bytes} (hp : p.length = 4) (q : Bytes) :
    leValue (p ++ q) = (le32dec p).toNat + 2 ^ 32 * leValue q := by
  match p, hp with
  | [a, b, c, d], _ =>
      rw [le32dec_toNat]
      simp only [leValue, List.cons_append, List.nil_append, List.map_cons,
        Nat.ofDigits_cons]
      omega

theorem leValue_flatMap_le32enc (w : List UInt32) :
    leValue (w.flatMap le32enc) = wordsValue w := by
  induction w with
  | nil => rfl
  | cons x xs ih =>
      rw [List.flatMap_cons, leValue_split (length_le32enc x), le32dec_le32enc, ih]
      simp [wordsValue, Nat.ofDigits_cons]

theorem wordsValue_concat (w : List UInt32) (x : UInt32) :
    wordsValue (w ++ [x]) = wordsValue w + (2 ^ 32) ^ w.length * x.toNat := by
  simp [wordsValue, Nat.ofDigits_append]

theorem wordsValue_lt (w : List UInt32) : wordsValue w < (2 ^ 32) ^ w.length := by
  have hdigit : ∀ x ∈ w.map UInt32.toNat, x < 2 ^ 32 := by
    intro x hx
    obtain ⟨y, -, rfl⟩ := List.mem_map.mp hx
    exact y.toNat_lt
  have h := Nat.ofDigits_lt_base_pow_length (by decide) hdigit
  simpa [wordsValue] using h

/-- The word of highest index decides a comparison, and only a tie passes it
on to the words below. -/
theorem wordsValue_concat_lt {v w : List UInt32} (hl : v.length = w.length)
    {x y : UInt32} (hxy : x < y) : wordsValue (v ++ [x]) < wordsValue (w ++ [y]) := by
  rw [wordsValue_concat, wordsValue_concat, hl]
  have hv := wordsValue_lt v
  rw [hl] at hv
  have hx : x.toNat + 1 ≤ y.toNat := hxy
  have hmul := Nat.mul_le_mul_left ((2 ^ 32) ^ w.length) hx
  rw [Nat.mul_add, Nat.mul_one] at hmul
  omega

theorem wordsValue_concat_le {v w : List UInt32} (hl : v.length = w.length)
    (x : UInt32) :
    wordsValue (v ++ [x]) ≤ wordsValue (w ++ [x]) ↔ wordsValue v ≤ wordsValue w := by
  rw [wordsValue_concat, wordsValue_concat, hl]
  omega

end AlphaMiner.Lib
