import AlphaMiner.Lib.CSearch
import AlphaMiner.Model.Stratum
import AlphaMiner.Proofs.Hex

/-!
# Hexadecimal strings in memory

As lists of digits, printing and parsing are inverse for every length (`unhex_bin2hex`).
`bin2hex` prints into memory, and there are two lengths at which it does not leave a
string behind. For no bytes at all the loop makes no round, and it is only in a round
that the terminator is written. For more than `2 ^ 30` bytes the place `i * 2` is beyond
the range of an `int`. Of every other length the digits are there with a zero behind
them (`bin2hex.block_eq`).
-/

namespace AlphaMiner

open Lib

/-! ## The block after printing -/

theorem bin2hex_cons (b : UInt8) (p : Bytes) :
    bin2hex (b :: p) = [hexDigit (b >>> 4), hexDigit (b &&& 15)] ++ bin2hex p := rfl

/-- The next digits go over the terminator of the digits in front. -/
theorem bin2hex.loop_eq : ∀ {p : Bytes} {i : Nat} {done old : Bytes}, p ≠ [] →
    i + p.length ≤ 2 ^ 30 → done.length = i * 2 → 2 * p.length + 1 ≤ old.length →
    bin2hex.loop p i (done ++ old) =
      some (done ++ bin2hex p ++ 0 :: old.drop (2 * p.length + 1)) := by
  intro p
  induction p with
  | nil => exact fun h => absurd rfl h
  | cons b p ih =>
      intro i done old _ hmax hdone hroom
      rw [List.length_cons] at hmax hroom
      match old with
      | [] | [_] | [_, _] =>
          simp only [List.length_cons, List.length_nil] at hroom
          omega
      | x :: y :: z :: old =>
          have htwice : twice i = some (i * 2) := if_pos (by rw [intMax]; omega)
          have hnext : increment i = some (i + 1) := if_pos (by rw [intMax]; omega)
          have hstore : store? (done ++ x :: y :: z :: old) (i * 2)
              [hexDigit (b >>> 4), hexDigit (b &&& 15), 0] =
                some (done ++ [hexDigit (b >>> 4), hexDigit (b &&& 15)] ++ 0 :: old) := by
            have hplace : (done ++ x :: y :: z :: old).drop (i * 2 + 3) = old := by
              rw [← hdone, ← List.drop_drop, List.drop_left]
              rfl
            rw [store?, if_pos (by simp; omega), store, List.take_left' hdone]
            simp only [List.length_cons, List.length_nil, Nat.zero_add, Nat.reduceAdd]
            rw [hplace]
            simp
          have hdigits : (done ++ [hexDigit (b >>> 4), hexDigit (b &&& 15)]).length =
              (i + 1) * 2 := by
            rw [List.length_append, hdone, List.length_cons, List.length_singleton]
            omega
          rw [bin2hex.loop, htwice, Option.bind_eq_bind, Option.bind_some, hstore, hnext,
            bin2hex_cons, ← List.append_assoc done]
          simp only [Option.bind_eq_bind, Option.bind_some]
          cases p with
          | nil => simp [bin2hex.loop, bin2hex]
          | cons c p =>
              rw [ih (List.cons_ne_nil c p) (by omega) hdigits (by
                simp only [List.length_cons] at hroom ⊢
                omega)]
              rfl

/-- Past `2 ^ 30` bytes the place to print at is out of range, if not the block itself. -/
theorem bin2hex.loop_long : ∀ {p : Bytes} {i : Nat} {s : Bytes}, i ≤ 2 ^ 30 →
    2 ^ 30 < i + p.length → bin2hex.loop p i s = none := by
  intro p
  induction p with
  | nil =>
      intro i s hi hlong
      rw [List.length_nil] at hlong
      omega
  | cons b p ih =>
      intro i s hi hlong
      rw [List.length_cons] at hlong
      rw [bin2hex.loop]
      by_cases hlast : i = 2 ^ 30
      · have htwice : twice i = none := if_neg (by rw [intMax]; omega)
        rw [htwice]
        rfl
      · have htwice : twice i = some (i * 2) := if_pos (by rw [intMax]; omega)
        have hnext : increment i = some (i + 1) := if_pos (by rw [intMax]; omega)
        rw [htwice, hnext]
        simp only [Option.bind_eq_bind, Option.bind_some]
        cases store? s (i * 2) [hexDigit (b >>> 4), hexDigit (b &&& 15), 0] with
        | none => rfl
        | some s => exact ih (by omega) (by omega)

theorem bin2hex.block_eq {s p : Bytes} (hp : p ≠ []) (hmax : p.length ≤ 2 ^ 30)
    (hroom : 2 * p.length + 1 ≤ s.length) :
    bin2hex.block s p = some (bin2hex p ++ 0 :: s.drop (2 * p.length + 1)) := by
  have h : bin2hex.loop p 0 ([] ++ s) =
      some ([] ++ bin2hex p ++ 0 :: s.drop (2 * p.length + 1)) :=
    bin2hex.loop_eq hp (by omega) rfl hroom
  rwa [List.nil_append, List.nil_append] at h

theorem bin2hex.block_nil (s : Bytes) : bin2hex.block s [] = some s := rfl

theorem bin2hex.block_long {s p : Bytes} (hlong : 2 ^ 30 < p.length) :
    bin2hex.block s p = none :=
  bin2hex.loop_long (Nat.zero_le _) (by omega)

theorem zero_not_mem_bin2hex (p : Bytes) : 0 ∉ bin2hex p := by
  have hdigit : ∀ n : Fin 256, hexDigit (UInt8.ofNat n >>> 4) ≠ 0 ∧
      hexDigit (UInt8.ofNat n &&& 15) ≠ 0 := by decide +kernel
  intro h
  obtain ⟨b, -, hb⟩ := List.mem_flatMap.mp h
  have hne := hdigit ⟨b.toNat, b.toNat_lt⟩
  simp only [UInt8.ofNat_toNat] at hne
  simp only [List.mem_cons, List.not_mem_nil, or_false] at hb
  exact hb.elim (fun h => hne.1 h.symm) fun h => hne.2 h.symm

theorem bin2hex.str_block {s p : Bytes} (hpos : 0 < p.length) (hmax : p.length ≤ 2 ^ 30)
    (hroom : 2 * p.length + 1 ≤ s.length) :
    ∃ out, bin2hex.block s p = some out ∧ str? out = some (bin2hex p) :=
  ⟨_, bin2hex.block_eq (List.ne_nil_of_length_pos hpos) hmax hroom,
    str?_append (zero_not_mem_bin2hex p) _⟩

/-- A block that holds a string whatever it held before. -/
theorem bin2hex.range_of_str {p : Bytes}
    (h : ∀ s : Bytes, 2 * p.length + 1 ≤ s.length →
      ∃ out hex, bin2hex.block s p = some out ∧ str? out = some hex) :
    0 < p.length ∧ p.length ≤ 2 ^ 30 := by
  constructor
  · rw [List.length_pos_iff]
    rintro rfl
    -- no round, and no terminator
    obtain ⟨out, hex, hout, hstr⟩ := h [1] (Nat.le_refl 1)
    rw [bin2hex.block_nil] at hout
    cases hout
    cases hstr
  · by_contra hlong
    obtain ⟨out, hex, hout, -⟩ := h (List.replicate (2 * p.length + 1) 0)
      (Nat.le_of_eq List.length_replicate.symm)
    rw [bin2hex.block_long (Nat.not_le.mp hlong)] at hout
    cases hout

/-! ## Printing what was parsed -/

theorem hexDigit_nibble : ∀ n : Fin 256, (hexNibble (UInt8.ofNat n)).all (fun x =>
    x < 16 && hexDigit x == lowerAscii (UInt8.ofNat n)) = true := by
  decide +kernel

theorem nibbles_parts : ∀ x y : Fin 16,
    (UInt8.ofNat x <<< 4 ||| UInt8.ofNat y) >>> 4 = UInt8.ofNat x ∧
      (UInt8.ofNat x <<< 4 ||| UInt8.ofNat y) &&& 15 = UInt8.ofNat y := by
  decide +kernel

theorem hexDigit_of_hexNibble {c x : UInt8} (h : hexNibble c = some x) :
    x.toNat < 16 ∧ hexDigit x = lowerAscii c := by
  have hc := hexDigit_nibble ⟨c.toNat, c.toNat_lt⟩
  simp only [UInt8.ofNat_toNat, h, Option.all_some, Bool.and_eq_true, decide_eq_true_eq,
    beq_iff_eq] at hc
  exact ⟨UInt8.lt_iff_toNat_lt.mp hc.1, hc.2⟩

/-- Upper-case digits are printed as lower-case ones. -/
theorem bin2hex_of_unhex : ∀ {s p : Bytes}, unhex s = some p → bin2hex p = s.map lowerAscii
  | [], p, h => by
      cases h
      rfl
  | [_], p, h => by cases h
  | a :: b :: rest, p, h => by
      obtain ⟨x, y, q, hx, hy, hq, rfl⟩ := unhex_cons_cons h
      obtain ⟨hx16, hxa⟩ := hexDigit_of_hexNibble hx
      obtain ⟨hy16, hyb⟩ := hexDigit_of_hexNibble hy
      have hparts := nibbles_parts ⟨x.toNat, hx16⟩ ⟨y.toNat, hy16⟩
      simp only [UInt8.ofNat_toNat] at hparts
      rw [bin2hex_cons, hparts.1, hparts.2, hxa, hyb, bin2hex_of_unhex hq]
      rfl

/-- What an accepted string leaves in the front of the buffer. -/
theorem unhex_take_hex2bin {s q : Bytes} {m : Nat} (h : (hex2bin q (some s) m).1 = true) :
    unhex s = some ((hex2bin q (some s) m).2.take (s.length / 2)) ∧
      s.length % 2 = 0 ∧ s.length ≤ 2 * m := by
  obtain ⟨p, hp, hfit⟩ := unhex_of_hex2bin h
  have hlen := length_of_unhex hp
  have hhalf : p.length = s.length / 2 := by omega
  rw [hex2bin_front hp hfit, List.take_left' hhalf]
  exact ⟨hp, by omega, by omega⟩

/-! ## There and back -/

/-- The bytes are printed into any block as a string, and this is parsed into any buffer that
has room for them. -/
def PrintsAndParses (p : Bytes) : Prop :=
  ∀ s : Bytes, 2 * p.length + 1 ≤ s.length → ∃ out hex,
    bin2hex.block s p = some out ∧ str? out = some hex ∧
      ∀ q : Bytes, p.length ≤ q.length →
        hex2bin q (some hex) q.length = (true, p ++ List.replicate (q.length - p.length) 0)

/-- The string has two digits for a byte, and what is decoded from it into `q` is printed
into any block as the string in lower case. -/
def ParsesAndPrints (hexstr q : Bytes) : Prop :=
  hexstr.length % 2 = 0 ∧ hexstr.length ≤ 2 * q.length ∧
    ∀ s : Bytes, hexstr.length + 1 ≤ s.length → ∃ out,
      bin2hex.block s ((hex2bin q (some hexstr) q.length).2.take (hexstr.length / 2)) =
          some out ∧
        str? out = some (hexstr.map lowerAscii)

theorem printsAndParses_iff (p : Bytes) :
    PrintsAndParses p ↔ 0 < p.length ∧ p.length ≤ 2 ^ 30 := by
  constructor
  · intro h
    refine bin2hex.range_of_str fun s hroom => ?_
    obtain ⟨out, hex, hout, hstr, -⟩ := h s hroom
    exact ⟨out, hex, hout, hstr⟩
  · rintro ⟨hpos, hmax⟩ s hroom
    obtain ⟨out, hout, hstr⟩ := bin2hex.str_block hpos hmax hroom
    exact ⟨out, bin2hex p, hout, hstr, fun q hq => hex2bin_unhex (unhex_bin2hex p) rfl hq⟩

theorem parsesAndPrints_iff {hexstr q : Bytes}
    (h : (hex2bin q (some hexstr) q.length).1 = true) :
    ParsesAndPrints hexstr q ↔ 0 < hexstr.length / 2 ∧ hexstr.length / 2 ≤ 2 ^ 30 := by
  obtain ⟨hunhex, heven, hfits⟩ := unhex_take_hex2bin h
  have hlen := length_of_unhex hunhex
  rw [ParsesAndPrints]
  generalize (hex2bin q (some hexstr) q.length).2.take (hexstr.length / 2) = p at hunhex hlen
  constructor
  · rintro ⟨-, -, hprint⟩
    have hrange := bin2hex.range_of_str (p := p) fun s hroom => by
      obtain ⟨out, hout, hstr⟩ := hprint s (by omega)
      exact ⟨out, _, hout, hstr⟩
    omega
  · rintro ⟨hpos, hmax⟩
    refine ⟨heven, hfits, fun s hroom => ?_⟩
    rw [← bin2hex_of_unhex hunhex]
    exact bin2hex.str_block (by omega) (by omega) (by omega)

/-- Printing and parsing undo each other for the lengths that the loop of `bin2hex` is right
for. -/
theorem hex_inverse_iff (p : Bytes) {hexstr q : Bytes}
    (h : (hex2bin q (some hexstr) q.length).1 = true) :
    (PrintsAndParses p ↔ 0 < p.length ∧ p.length ≤ 2 ^ 30) ∧
      (ParsesAndPrints hexstr q ↔ 0 < hexstr.length / 2 ∧ hexstr.length / 2 ≤ 2 ^ 30) :=
  ⟨printsAndParses_iff p, parsesAndPrints_iff h⟩

theorem hex_inverse_iff_sample :
    PrintsAndParses [0xde, 0xad] ∧ ParsesAndPrints (ascii "dEaD") [1, 2, 3] := by
  have h := hex_inverse_iff [0xde, 0xad] (show (hex2bin [1, 2, 3] (some (ascii "dEaD")) 3).1 = true
    by decide)
  exact ⟨h.1.mpr (by decide), h.2.mpr (by decide)⟩

/-- No bytes at all, and one more than the counter is good for. -/
theorem hex_inverse_fails :
    ¬PrintsAndParses [] ∧ ¬PrintsAndParses (List.replicate (2 ^ 30 + 1) 0) ∧
      (hex2bin [] (some []) 0).1 = true ∧ ¬ParsesAndPrints [] [] := by
  refine ⟨fun h => ?_, fun h => ?_, rfl, fun h => ?_⟩
  · exact absurd ((printsAndParses_iff []).mp h).1 (by decide)
  · have hmax := ((printsAndParses_iff _).mp h).2
    rw [List.length_replicate] at hmax
    omega
  · exact absurd ((parsesAndPrints_iff rfl).mp h).1 (by decide)

end AlphaMiner
