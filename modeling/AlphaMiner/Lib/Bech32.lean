import AlphaMiner.Lib.Endian
import AlphaMiner.Lib.Residue
import Mathlib.Data.List.Basic

/-!
# Bech32 (BIP173)

The encoder of the standard. A string is a human-readable part, the separator
`1`, and characters of five bits each, the last six of which are a checksum over
everything in front of them. The checksum is the residue of a register of six
such symbols, so it is the one end that a reader can accept (`valid_iff`).

The two cases of a string are the same string, as long as they are not mixed:
the encoder writes lower case, and `value?` reads either.
-/

namespace AlphaMiner.Lib.Bech32

/-- What one character of the data part stands for. -/
abbrev Value := BitVec 5

/-! ## Cases -/

def lowerChar (c : UInt8) : UInt8 := if 65 ≤ c ∧ c ≤ 90 then c + 32 else c

def upperChar (c : UInt8) : UInt8 := if 97 ≤ c ∧ c ≤ 122 then c - 32 else c

def lower (s : Bytes) : Bytes := s.map lowerChar

def upper (s : Bytes) : Bytes := s.map upperChar

def HasLower (s : Bytes) : Prop := ∃ c ∈ s, 97 ≤ c ∧ c ≤ 122

def HasUpper (s : Bytes) : Prop := ∃ c ∈ s, 65 ≤ c ∧ c ≤ 90

def MixedCase (s : Bytes) : Prop := HasLower s ∧ HasUpper s

theorem lowerChar_upperChar (c : UInt8) : lowerChar (upperChar c) = lowerChar c := by
  unfold lowerChar upperChar
  grind

theorem lowerChar_lowerChar (c : UInt8) : lowerChar (lowerChar c) = lowerChar c := by
  unfold lowerChar
  grind

theorem lowerChar_eq_self {c : UInt8} (hc : ¬(65 ≤ c ∧ c ≤ 90)) : lowerChar c = c := by
  rw [lowerChar, if_neg hc]

theorem not_upper_lowerChar (c : UInt8) : ¬(65 ≤ lowerChar c ∧ lowerChar c ≤ 90) := by
  unfold lowerChar
  grind

theorem not_lower_upperChar (c : UInt8) : ¬(97 ≤ upperChar c ∧ upperChar c ≤ 122) := by
  unfold upperChar
  grind

theorem lower_upper (s : Bytes) : lower (upper s) = lower s := by
  simp [lower, upper, lowerChar_upperChar]

theorem not_hasLower_upper (s : Bytes) : ¬HasLower (upper s) := by
  simpa [HasLower, upper] using fun c _ => not_lower_upperChar c

theorem not_hasUpper_lower (s : Bytes) : ¬HasUpper (lower s) := by
  simpa [HasUpper, lower] using fun c _ => not_upper_lowerChar c

theorem lower_eq_self {s : Bytes} (h : ¬HasUpper s) : lower s = s := by
  rw [lower, List.map_congr_left (g := id), List.map_id]
  intro c hc
  exact lowerChar_eq_self fun hupper => h ⟨c, hc, hupper⟩

theorem upperChar_lowerChar (c : UInt8) : upperChar (lowerChar c) = upperChar c := by
  unfold lowerChar upperChar
  grind

theorem upper_eq_self {s : Bytes} (h : ¬HasLower s) : upper s = s := by
  rw [upper, List.map_congr_left (g := id), List.map_id]
  intro c hc
  rw [upperChar, if_neg fun hlower => h ⟨c, hc, hlower⟩, id]

theorem upper_lower (s : Bytes) : upper (lower s) = upper s := by
  simp [lower, upper, upperChar_lowerChar]

/-- In one case the letters are determined by what they are in lower case. -/
theorem eq_of_lower_eq {s t : Bytes} (hcase : ¬MixedCase (s ++ t)) (h : lower s = lower t) :
    s = t := by
  by_cases hupper : HasUpper (s ++ t)
  · have hlower : ¬HasLower (s ++ t) := fun hlower => hcase ⟨hlower, hupper⟩
    have hs : ¬HasLower s := fun ⟨c, hc, hc'⟩ => hlower ⟨c, List.mem_append_left t hc, hc'⟩
    have ht : ¬HasLower t := fun ⟨c, hc, hc'⟩ => hlower ⟨c, List.mem_append_right s hc, hc'⟩
    rw [← upper_eq_self hs, ← upper_lower, h, upper_lower, upper_eq_self ht]
  · have hs : ¬HasUpper s := fun ⟨c, hc, hc'⟩ => hupper ⟨c, List.mem_append_left t hc, hc'⟩
    have ht : ¬HasUpper t := fun ⟨c, hc, hc'⟩ => hupper ⟨c, List.mem_append_right s hc, hc'⟩
    rw [← lower_eq_self hs, h, lower_eq_self ht]

/-! ## The characters -/

def separator : UInt8 := 49

def charset : Bytes := ascii "qpzry9x8gf2tvdw0s3jn54khce6mua7l"

def char (v : Value) : UInt8 := charset.getD v.toNat 0

/-- The value of a character, in either case. -/
def value? (c : UInt8) : Option Value := (charset.idxOf? (lowerChar c)).map (BitVec.ofNat 5)

theorem value?_char : ∀ v, value? (char v) = some v := by decide

/-- A character that has a value is the one of that value, or its capital. -/
theorem char_of_value? (c : UInt8) (v : Value) (h : value? c = some v) : char v = lowerChar c := by
  obtain ⟨i, hi, rfl⟩ := Option.map_eq_some_iff.mp h
  obtain ⟨hlt, hat, -⟩ := List.findIdx?_eq_some_iff_getElem.mp hi
  have hsize : charset.length = 32 := by decide
  have hi32 : (BitVec.ofNat 5 i).toNat = i := by
    rw [BitVec.toNat_ofNat]
    omega
  rw [char, hi32, List.getD_eq_getElem?_getD, List.getElem?_eq_getElem hlt, Option.getD_some]
  exact eq_of_beq hat

theorem value?_lowerChar (c : UInt8) : value? (lowerChar c) = value? c := by
  rw [value?, lowerChar_lowerChar, value?]

theorem not_upper_char : ∀ v, ¬(65 ≤ char v ∧ char v ≤ 90) := by decide

/-! ## What the characters of a string stand for -/

theorem length_values {input : Bytes} {vs : List Value} (h : input.map value? = vs.map some) :
    input.length = vs.length := by
  simpa using congrArg List.length h

theorem lower_of_values {tail : Bytes} : ∀ {vs : List Value},
    tail.map value? = vs.map some → lower tail = vs.map char := by
  induction tail with
  | nil =>
      intro vs h
      obtain rfl : vs = [] := by simpa using h.symm
      rfl
  | cons c tail ih =>
      intro vs h
      cases vs with
      | nil => cases h
      | cons v vs =>
          obtain ⟨hhead, hrest⟩ := List.cons.inj h
          rw [List.map_cons, char_of_value? c v hhead, ← ih hrest]
          rfl

theorem values_of_lower {tail : Bytes} {vs : List Value} (h : lower tail = vs.map char) :
    tail.map value? = vs.map some := by
  have hvalues := congrArg (List.map value?) h
  rw [lower, List.map_map, List.map_map] at hvalues
  simpa [Function.comp_def, value?_lowerChar, value?_char] using hvalues

theorem separator_not_mem {tail : Bytes} {vs : List Value} (h : tail.map value? = vs.map some) :
    separator ∉ tail := by
  intro hmem
  have hvalue := List.mem_map_of_mem (f := value?) hmem
  rw [h, show value? separator = none from rfl] at hvalue
  simp at hvalue

theorem last_separator {s : Bytes} (h : separator ∈ s) :
    ∃ raw tail, s = raw ++ separator :: tail ∧ separator ∉ tail := by
  obtain ⟨a, b, hs, ha⟩ := List.eq_append_cons_of_mem (List.mem_reverse.mpr h)
  refine ⟨b.reverse, a.reverse, ?_, by simpa using ha⟩
  rw [← List.reverse_reverse s, hs]
  simp

/-- Where the human-readable part ends. -/
def separatorAt (s : Bytes) : Nat := (s.reverse.dropWhile (· ≠ separator)).length - 1

theorem separatorAt_eq (raw : Bytes) {tail : Bytes} (h : separator ∉ tail) :
    separatorAt (raw ++ separator :: tail) = raw.length := by
  rw [separatorAt, List.reverse_append, List.reverse_cons, List.append_assoc,
    List.dropWhile_append_of_pos]
  · simp
  · intro c hc
    simpa using ne_of_mem_of_not_mem (List.mem_reverse.mp hc) h

theorem printable_lowerChar (c : UInt8) :
    33 ≤ lowerChar c ∧ lowerChar c ≤ 126 ↔ 33 ≤ c ∧ c ≤ 126 := by
  unfold lowerChar
  grind

theorem eq_separator (c : UInt8) (h : lowerChar c = separator) : c = separator := by
  unfold lowerChar separator at *
  grind

/-! ## The checksum -/

def generator (top : Value) : BitVec (6 * 5) :=
  (if top.getLsbD 0 then 0x3b6a57b2#30 else 0#30) ^^^
  (if top.getLsbD 1 then 0x26508e6d#30 else 0#30) ^^^
  (if top.getLsbD 2 then 0x1ea119fa#30 else 0#30) ^^^
  (if top.getLsbD 3 then 0x3d4233dd#30 else 0#30) ^^^
  (if top.getLsbD 4 then 0x2a1462b3#30 else 0#30)

def polymod (values : List Value) : BitVec (6 * 5) := feed generator 1#30 values

def highBits (c : UInt8) : Value := BitVec.ofNat 5 (c >>> 5).toNat

def lowBits (c : UInt8) : Value := BitVec.ofNat 5 (c &&& 31).toNat

/-- The human-readable part in symbols of five bits. -/
def hrpExpand (hrp : Bytes) : List Value := hrp.map highBits ++ 0#5 :: hrp.map lowBits

def verifyChecksum (hrp : Bytes) (values : List Value) : Bool :=
  polymod (hrpExpand hrp ++ values) = 1#30

def createChecksum (hrp : Bytes) (data : List Value) : List Value :=
  digits (polymod (hrpExpand hrp ++ data ++ List.replicate 6 0#5) ^^^ 1#30)

theorem linear_generator : Linear generator := by
  have hbit : ∀ (x y : Bool) (g : BitVec 30), (if (x ^^ y) = true then g else 0#30) =
      (if x = true then g else 0#30) ^^^ (if y = true then g else 0#30) := by
    intro x y g
    cases x <;> cases y <;> simp
  intro a b
  simp only [generator, BitVec.getLsbD_xor, hbit]
  ac_rfl

theorem telling_generator : Telling generator :=
  linear_generator.telling (by decide)

@[simp] theorem length_createChecksum (hrp : Bytes) (data : List Value) :
    (createChecksum hrp data).length = 6 := length_digits _

/-- The checksum is the one end of six characters that verifies. -/
theorem valid_iff (hrp : Bytes) (data : List Value) {check : List Value}
    (hlen : check.length = 6) :
    verifyChecksum hrp (data ++ check) = true ↔ check = createChecksum hrp data := by
  rw [verifyChecksum, decide_eq_true_iff, createChecksum, polymod, polymod, ← List.append_assoc,
    feed_append, feed_append _ _ _ (List.replicate 6 0#5)]
  exact feed_eq_iff linear_generator hlen

/-! ## Strings -/

def encode (hrp : Bytes) (data : List Value) : Bytes :=
  hrp ++ separator :: (data ++ createChecksum hrp data).map char

/-- What the standard lets one encode: a string has at least the eight characters
that these fields give it, and at most 90. -/
structure Payload where
  hrp : Bytes
  data : List Value
  hrp_ne_nil : hrp ≠ []
  printable : ∀ c ∈ hrp, 33 ≤ c ∧ c ≤ 126
  not_upper : ¬HasUpper hrp
  length_le : hrp.length + 1 + data.length + 6 ≤ 90

def Payload.encode (p : Payload) : Bytes := Bech32.encode p.hrp p.data

theorem Payload.not_hasUpper_encode (p : Payload) : ¬HasUpper p.encode := by
  intro h
  obtain ⟨c, hc, hupper⟩ := h
  rw [Payload.encode, Bech32.encode, List.mem_append, List.mem_cons, List.mem_map] at hc
  obtain hhrp | rfl | ⟨v, -, rfl⟩ := hc
  · exact p.not_upper ⟨c, hhrp, hupper⟩
  · exact absurd hupper (by decide)
  · exact not_upper_char v hupper

end AlphaMiner.Lib.Bech32
