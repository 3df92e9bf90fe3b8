import AlphaMiner.Lib.Bech32
import AlphaMiner.Lib.Radix

/-!
# Segwit addresses

A segwit address is a Bech32 string whose data is the version of a witness in one
symbol and behind it the program, whose bits are dealt out to symbols of five. The
last symbol is filled up with zeros, and no symbol more is used than it takes, so
that a program is written in one way (`eq_groups_iff`).

The output script has the same two things in it, the version as the opcode that
pushes this number and the program as a push of its bytes.
-/

namespace AlphaMiner.Lib

open Bech32

/-! ## Symbols of five bits -/

/-- How many symbols it takes for this many bytes. -/
def groupCount (bytes : Nat) : Nat := (8 * bytes + 4) / 5

def valuesNumber (vs : List Value) : Nat := ofNumeral 32 (vs.map BitVec.toNat)

/-- The bits of the program followed by zeros, in groups of five. -/
def groups (program : Bytes) : List Value :=
  let k := groupCount program.length
  (numeral 32 k (bytesNumber program <<< (5 * k - 8 * program.length))).map (BitVec.ofNat 5)

theorem value_lt {vs : List Value} : ∀ d ∈ vs.map BitVec.toNat, d < 32 := by
  intro d hd
  obtain ⟨v, -, rfl⟩ := List.mem_map.mp hd
  exact v.isLt

theorem map_ofNat_inj {ds : List Nat} {vs : List Value} (hds : ∀ d ∈ ds, d < 32) :
    vs = ds.map (BitVec.ofNat 5) ↔ vs.map BitVec.toNat = ds := by
  constructor
  · intro h
    rw [h, List.map_map, List.map_congr_left (g := id), List.map_id]
    intro d hd
    simpa using hds d hd
  · intro h
    rw [← h, List.map_map, List.map_congr_left (g := id), List.map_id]
    intro v hv
    simp

theorem eq_groups_iff (vs : List Value) (p : Bytes) :
    vs = groups p ↔ vs.length = groupCount p.length ∧
      valuesNumber vs = bytesNumber p * 2 ^ (5 * groupCount p.length - 8 * p.length) := by
  have hroom : 8 * p.length ≤ 5 * groupCount p.length := by
    rw [groupCount]
    omega
  have hfits : bytesNumber p <<< (5 * groupCount p.length - 8 * p.length) <
      32 ^ groupCount p.length := by
    rw [Nat.shiftLeft_eq, show (32 : Nat) = 2 ^ 5 from rfl, ← Nat.pow_mul]
    calc bytesNumber p * 2 ^ (5 * groupCount p.length - 8 * p.length)
        < 2 ^ (8 * p.length) * 2 ^ (5 * groupCount p.length - 8 * p.length) :=
          Nat.mul_lt_mul_of_pos_right (bytesNumber_lt p) (Nat.two_pow_pos _)
      _ = 2 ^ (5 * groupCount p.length) := by rw [← Nat.pow_add, Nat.add_sub_cancel' hroom]
  rw [groups, map_ofNat_inj (fun d => lt_of_mem_numeral (by decide)),
    eq_numeral_iff (by decide) hfits value_lt, List.length_map, valuesNumber, Nat.shiftLeft_eq]

@[simp] theorem length_groups (p : Bytes) : (groups p).length = groupCount p.length :=
  ((eq_groups_iff _ p).mp rfl).1

theorem groups_inj {p q : Bytes} (h : groups p = groups q) : p = q := by
  obtain ⟨hp, hnum⟩ := (eq_groups_iff (groups p) p).mp rfl
  obtain ⟨hq, hnum'⟩ := (eq_groups_iff (groups p) q).mp h
  have hlen : p.length = q.length := by
    rw [hp, groupCount, groupCount] at hq
    omega
  rw [hnum, hlen] at hnum'
  exact bytesNumber_inj hlen (Nat.eq_of_mul_eq_mul_right (Nat.two_pow_pos _) hnum')

/-! ## Witness programs -/

/-- What an output can pay to under the rules of segwit. -/
structure WitnessProgram where
  version : Nat
  program : Bytes
  version_le : version ≤ 16
  two_le : 2 ≤ program.length
  le_forty : program.length ≤ 40
  of_zero : version = 0 → program.length = 20 ∨ program.length = 32

namespace WitnessProgram

/-- The data part of an address, its checksum left out. -/
def symbols (w : WitnessProgram) : List Value := BitVec.ofNat 5 w.version :: groups w.program

/-- The opcode that pushes the version. -/
def opcode (w : WitnessProgram) : UInt8 :=
  if w.version = 0 then 0 else UInt8.ofNat (0x50 + w.version)

def script (w : WitnessProgram) : Bytes :=
  [w.opcode, UInt8.ofNat w.program.length] ++ w.program

theorem length_symbols (w : WitnessProgram) : w.symbols.length ≤ 65 := by
  have hmax := w.le_forty
  rw [symbols, List.length_cons, length_groups, groupCount]
  omega

theorem symbols_inj {w w' : WitnessProgram} (h : w.symbols = w'.symbols) :
    w = w' := by
  have hmax := w.version_le
  have hmax' := w'.version_le
  obtain ⟨hversion, hgroups⟩ := List.cons.inj h
  have hprogram := groups_inj hgroups
  have hnat := congrArg BitVec.toNat hversion
  simp only [BitVec.toNat_ofNat] at hnat
  have hversion' : w.version = w'.version := by omega
  cases w
  cases w'
  simp_all

end WitnessProgram

/-- A string of one case that encodes the witness program, whatever its
human-readable part. -/
def SegwitAddress (s : Bytes) (w : WitnessProgram) : Prop :=
  ¬MixedCase s ∧ ∃ p : Payload, p.data = w.symbols ∧ lower s = p.encode

end AlphaMiner.Lib
