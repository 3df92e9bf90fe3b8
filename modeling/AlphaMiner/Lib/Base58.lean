import AlphaMiner.Lib.Buffer
import AlphaMiner.Lib.Radix

/-!
# Base58 with a checksum

Bytes are written as one number in base 58. That would lose the zero bytes in
front, so each of them is written as a digit zero of its own, which is the
character `1`. A string is then the encoding of one payload at most, although
shorter and longer strings of the same number exist.

`checked` is what is encoded for an address: a version byte, a hash, and the first
four bytes of a digest of both.
-/

namespace AlphaMiner.Lib.Base58

def alphabet : Bytes := ascii "123456789ABCDEFGHJKLMNPQRSTUVWXYZabcdefghijkmnopqrstuvwxyz"

def char (d : Nat) : UInt8 := alphabet.getD d 0

def value? (c : UInt8) : Option Nat := alphabet.idxOf? c

def encode (payload : Bytes) : Bytes :=
  List.replicate (zeros (payload.map UInt8.toNat)) (char 0) ++
    (Nat.digits 58 (bytesNumber payload)).reverse.map char

/-- The payload of an address under the digest `digest`. -/
def checked (digest : Bytes → Bytes) (version : UInt8) (hash : Bytes) : Bytes :=
  (version :: hash) ++ (digest (version :: hash)).take 4

theorem length_alphabet : alphabet.length = 58 := by decide

theorem value?_char : ∀ d < 58, value? (char d) = some d := by decide

theorem char_of_value? {c : UInt8} {d : Nat} (h : value? c = some d) : d < 58 ∧ char d = c := by
  obtain ⟨hlt, hat, -⟩ := List.findIdx?_eq_some_iff_getElem.mp h
  refine ⟨by rwa [length_alphabet] at hlt, ?_⟩
  rw [char, List.getD_eq_getElem?_getD, List.getElem?_eq_getElem hlt, Option.getD_some]
  exact eq_of_beq hat

/-! ## The checksum -/

/-- 25 bytes with a right checksum are a version, a hash and the checksum. -/
theorem eq_checked {digest : Bytes → Bytes} {bin : Bytes} (hlen : bin.length = 25)
    (hsum : bin.drop 21 = (digest (bin.take 21)).take 4) :
    bin = checked digest (bin.headD 0) (slice bin 1 20) := by
  have hfront : bin.take 21 = bin.headD 0 :: slice bin 1 20 := by
    obtain ⟨b, rest, rfl⟩ := List.exists_cons_of_length_eq_add_one hlen
    simp [slice]
  rw [checked, ← hfront, ← hsum, List.take_append_drop]

theorem take_drop_checked (digest : Bytes → Bytes) (version : UInt8) {hash : Bytes}
    (hlen : hash.length = 20) :
    (checked digest version hash).take 21 = version :: hash ∧
      (checked digest version hash).drop 21 = (digest (version :: hash)).take 4 := by
  have hfront : (version :: hash).length = 21 := by rw [List.length_cons, hlen]
  exact ⟨List.take_left' hfront, List.drop_left' hfront⟩

theorem slice_checked (digest : Bytes → Bytes) (version : UInt8) {hash : Bytes}
    (hlen : hash.length = 20) : slice (checked digest version hash) 1 20 = hash := by
  rw [slice, checked, List.cons_append, List.drop_one, List.tail_cons, List.take_left' hlen]

/-! ## Strings of digits -/

/-- The number of a string, if all of it is digits. -/
def number? (s : Bytes) : Option Nat := (s.mapM value?).map (ofNumeral 58)

theorem mapM_value?_iff {s : Bytes} : ∀ {ds : List Nat},
    s.mapM value? = some ds ↔ s.map value? = ds.map some := by
  induction s with
  | nil =>
      intro ds
      cases ds <;> simp
  | cons c s ih =>
      intro ds
      cases ds with
      | nil => simp [List.mapM_cons, Option.bind_eq_some_iff]
      | cons d ds =>
          simp only [List.mapM_cons, Option.pure_def, Option.bind_eq_bind, Option.bind_eq_some_iff,
            Option.some.injEq, List.cons.injEq, List.map_cons, ← ih]
          constructor
          · rintro ⟨d', hd, ds', hds, rfl, rfl⟩
            exact ⟨hd, hds⟩
          · rintro ⟨hd, hds⟩
            exact ⟨d, hd, ds, hds, rfl, rfl⟩

theorem number?_iff {s : Bytes} {n : Nat} :
    number? s = some n ↔ ∃ ds, s.map value? = ds.map some ∧ ofNumeral 58 ds = n := by
  rw [number?, Option.map_eq_some_iff]
  simp only [mapM_value?_iff]

theorem lt_of_values {s : Bytes} : ∀ {ds : List Nat}, s.map value? = ds.map some →
    ∀ d ∈ ds, d < 58 := by
  intro ds h d hd
  have hmem : some d ∈ s.map value? := by
    rw [h]
    exact List.mem_map_of_mem hd
  obtain ⟨c, -, hc⟩ := List.mem_map.mp hmem
  exact (char_of_value? hc).1

theorem eq_map_char {s : Bytes} : ∀ {ds : List Nat}, s.map value? = ds.map some →
    s = ds.map char := by
  induction s with
  | nil =>
      intro ds h
      obtain rfl : ds = [] := by simpa using h.symm
      rfl
  | cons c s ih =>
      intro ds h
      cases ds with
      | nil => cases h
      | cons d ds =>
          obtain ⟨hhead, hrest⟩ := List.cons.inj h
          rw [List.map_cons, (char_of_value? hhead).2, ← ih hrest]

theorem values_of_map_char {ds : List Nat} (h : ∀ d ∈ ds, d < 58) :
    (ds.map char).map value? = ds.map some := by
  rw [List.map_map]
  exact List.map_congr_left fun d hd => value?_char d (h d hd)

/-- An encoding has the number of the payload. -/
theorem exists_values_encode (payload : Bytes) :
    ∃ ds, (encode payload).map value? = ds.map some ∧ ofNumeral 58 ds = bytesNumber payload := by
  have hdigit : ∀ d ∈ List.replicate (zeros (payload.map UInt8.toNat)) 0 ++
      (Nat.digits 58 (bytesNumber payload)).reverse, d < 58 := by
    intro d hd
    rw [List.mem_append, List.mem_replicate, List.mem_reverse] at hd
    obtain ⟨-, rfl⟩ | hd := hd
    · decide
    · exact Nat.digits_lt_base (by decide) hd
  refine ⟨List.replicate (zeros (payload.map UInt8.toNat)) 0 ++
    (Nat.digits 58 (bytesNumber payload)).reverse, ?_, ?_⟩
  · rw [encode, ← List.map_replicate, ← List.map_append]
    exact values_of_map_char hdigit
  · rw [ofNumeral_zeros, ofNumeral, List.reverse_reverse, Nat.ofDigits_digits]

/-- A string is the encoding of its number as soon as the zeros in front are right. -/
theorem eq_encode_iff {s payload : Bytes} {ds : List Nat} (hs : s.map value? = ds.map some)
    (hnumber : bytesNumber payload = ofNumeral 58 ds) :
    s = encode payload ↔ zeros (payload.map UInt8.toNat) = zeros ds := by
  have hmap : ds.map char = List.replicate (zeros ds) (char 0) ++
      (Nat.digits 58 (ofNumeral 58 ds)).reverse.map char := by
    conv_lhs => rw [zeros_append_digits (by decide) (lt_of_values hs)]
    rw [List.map_append, List.map_replicate]
  rw [eq_map_char hs, hmap, encode, hnumber, List.append_left_inj]
  constructor
  · intro h
    simpa using congrArg List.length h.symm
  · intro h
    rw [h]

end AlphaMiner.Lib.Base58
