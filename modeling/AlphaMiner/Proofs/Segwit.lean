import AlphaMiner.Lib.Segwit
import AlphaMiner.Proofs.Address
import AlphaMiner.Proofs.Bech32
import AlphaMiner.Proofs.Regroup

/-!
# Segwit addresses and their scripts

`convert_bits` reads symbols of five bits and writes bytes. In the end it wants the
bits that are left to be zeros and fewer than a symbol, which is what makes the
symbols the only ones that the program is written with (`convertBits_iff`).

The three length checks around it leave the 40 bytes of the buffer alone: with at
most 65 values in the data part, one of which is the version, there are 40 bytes
to write at most.
-/

namespace AlphaMiner

open Lib Lib.Bech32

/-! ## Symbols and bytes -/

theorem toNat_valueByte (v : Value) : (valueByte v).toNat = v.toNat := by
  have hv := v.isLt
  simp [valueByte]
  omega

theorem groupsNumber_valueBytes (vs : List Value) :
    groupsNumber 5 (vs.map valueByte) = valuesNumber vs := by
  rw [groupsNumber, valuesNumber, List.map_map]
  exact congrArg (ofNumeral 32) (List.map_congr_left fun v _ => toNat_valueByte v)

theorem valueBytes_lt (vs : List Value) : ∀ b ∈ vs.map valueByte, b.toNat < 2 ^ 5 := by
  intro b hb
  obtain ⟨v, -, rfl⟩ := List.mem_map.mp hb
  rw [toNat_valueByte]
  exact v.isLt

/-- The number of symbols gives the number of bytes, and how many bits are left. -/
theorem groupCount_of_count {n k bits : Nat} (hbits : bits < 8)
    (hcount : 8 * k + bits = 5 * groupCount n) :
    k = n ∧ bits < 5 ∧ 5 * groupCount k - 8 * k = bits := by
  have hmin : 8 * n ≤ 5 * groupCount n := by
    rw [groupCount]
    omega
  have hmax : 5 * groupCount n ≤ 8 * n + 4 := by
    rw [groupCount]
    omega
  obtain rfl : k = n := by
    rw [← hcount] at hmin hmax
    omega
  exact ⟨rfl, by omega, by omega⟩

/-- The code is done with the symbols of a program, and only with these. -/
theorem convertBits_iff {vs : List Value} (hlen : vs.length ≤ 65) :
    ∃ ok out, convertBits 40 8 (vs.map valueByte) 5 false = some (ok, out) ∧
      out.length ≤ 40 ∧ ∀ program, ok = true ∧ out = program ↔ vs = groups program := by
  have hsome : (convertBits 40 8 (vs.map valueByte) 5 false).isSome :=
    convertBits_isSome (by decide) (by decide) (by decide) (valueBytes_lt vs)
      (by rw [List.length_map]; omega) nofun
  obtain ⟨⟨ok, out⟩, hconvert⟩ := Option.isSome_iff_exists.mp hsome
  obtain ⟨-, bits, hbits, low, hlow, hcount, hnumber, hok⟩ :=
    convertBits_unpad (by decide) (by decide) (by decide) (valueBytes_lt vs) hconvert
  rw [List.length_map] at hcount
  rw [groupsNumber_valueBytes, show groupsNumber 8 out = bytesNumber out from rfl] at hnumber
  have hgroups : low = 0 ∧ bits < 5 → vs = groups out := by
    rintro ⟨rfl, hfew⟩
    have hall : vs.length = groupCount out.length := by
      rw [groupCount]
      omega
    obtain ⟨-, -, hplace⟩ := groupCount_of_count hbits (by rwa [hall] at hcount)
    rw [eq_groups_iff, hplace, hnumber]
    exact ⟨hall, rfl⟩
  refine ⟨ok, out, hconvert, by omega, fun program => ?_⟩
  rw [hok]
  constructor
  · rintro ⟨hdone, rfl⟩
    exact hgroups hdone
  · intro h
    obtain ⟨hall, hvalue⟩ := (eq_groups_iff vs program).mp h
    rw [hall] at hcount
    obtain ⟨hsame, hfew, hplace⟩ := groupCount_of_count hbits hcount
    rw [← hsame, hplace] at hvalue
    have hdone := (low_eq_zero hlow (hvalue.symm.trans hnumber)).1
    exact ⟨⟨hdone, hfew⟩, groups_inj ((hgroups ⟨hdone, hfew⟩).symm.trans h)⟩

/-! ## The witness program of an address -/

theorem valueByte_inj {v v' : Value} (h : valueByte v = valueByte v') : v = v' := by
  have hnat := congrArg UInt8.toNat h
  rw [toNat_valueByte, toNat_valueByte] at hnat
  exact BitVec.eq_of_toNat_eq hnat

theorem segwitAddress_iff (addr : Bytes) (w : WitnessProgram) :
    SegwitAddress addr w ↔ ∃ hrp, bech32Decode addr = some (hrp, w.symbols.map valueByte) := by
  simp only [bech32Decode_iff]
  constructor
  · intro h
    obtain ⟨hmixed, p, hdata, henc⟩ := h
    exact ⟨p.hrp, hmixed, p, rfl, by rw [hdata], henc⟩
  · intro h
    obtain ⟨hrp, hmixed, p, -, hdata, henc⟩ := h
    refine ⟨hmixed, p, ?_, henc⟩
    exact (List.map_injective_iff.mpr (fun _ _ => valueByte_inj) hdata).symm

/-- What follows once the string is decoded. -/
theorem segwitAddrDecode_values {addr hrp : Bytes} {vs : List Value}
    (h : bech32Decode addr = some (hrp, vs.map valueByte)) :
    (∃ w : WitnessProgram, vs = w.symbols ∧
      segwitAddrDecode addr = some (some (w.version, w.program))) ∨
    ((∀ w : WitnessProgram, vs ≠ w.symbols) ∧ segwitAddrDecode addr = some none) := by
  rw [segwitAddrDecode, h]
  cases vs with
  | nil => exact .inr ⟨fun w hw => List.cons_ne_nil _ _ hw.symm, rfl⟩
  | cons v vs =>
      have hv := v.isLt
      have hversion := toNat_valueByte v
      simp only [List.map_cons, List.length_map]
      by_cases hlen : 65 < vs.length + 1
      · rw [if_pos hlen]
        refine .inr ⟨fun w hw => ?_, rfl⟩
        have hmax := w.length_symbols
        rw [← hw, List.length_cons] at hmax
        omega
      by_cases hhigh : 16 < valueByte v
      · rw [if_neg hlen, if_pos hhigh]
        refine .inr ⟨fun w hw => ?_, rfl⟩
        have hmax := w.version_le
        have hhead := congrArg BitVec.toNat (List.cons.inj hw).1
        rw [UInt8.lt_iff_toNat_lt, hversion, hhead, BitVec.toNat_ofNat] at hhigh
        have hsixteen : (16 : UInt8).toNat = 16 := rfl
        omega
      obtain ⟨ok, out, hconvert, hmax, hok⟩ := @convertBits_iff vs (by omega)
      rw [if_neg hlen, if_neg hhigh, hconvert]
      cases ok with
      | false =>
          refine .inr ⟨fun w hw => ?_, rfl⟩
          cases ((hok w.program).mpr (List.cons.inj hw).2).1
      | true =>
          have hvs := (hok out).mp ⟨rfl, rfl⟩
          have hzero : valueByte v = 0 ↔ v.toNat = 0 := by
            rw [← UInt8.toNat_inj, hversion]
            rfl
          have hle : v.toNat ≤ 16 := by
            rw [UInt8.lt_iff_toNat_lt, hversion] at hhigh
            exact Nat.not_lt.mp hhigh
          have hsymbols : ∀ w : WitnessProgram, v :: vs = w.symbols →
              w.version = v.toNat ∧ w.program = out := by
            intro w hw
            have hmin := w.version_le
            obtain ⟨hhead, hgroups⟩ := List.cons.inj hw
            have hnat := congrArg BitVec.toNat hhead
            rw [BitVec.toNat_ofNat] at hnat
            exact ⟨by omega, ((hok w.program).mpr hgroups).2.symm⟩
          simp only
          by_cases hsize : out.length < 2 ∨ 40 < out.length
          · rw [if_pos hsize]
            refine .inr ⟨fun w hw => ?_, rfl⟩
            obtain ⟨-, hprogram⟩ := hsymbols w hw
            have hmin := w.two_le
            rw [hprogram] at hmin
            omega
          rw [if_neg hsize]
          by_cases hkey : valueByte v = 0 ∧ out.length ≠ 20 ∧ out.length ≠ 32
          · rw [if_pos hkey]
            refine .inr ⟨fun w hw => ?_, rfl⟩
            obtain ⟨hnat, hprogram⟩ := hsymbols w hw
            have hlengths := w.of_zero (hnat.trans (hzero.mp hkey.1))
            rw [hprogram] at hlengths
            omega
          · rw [if_neg hkey, hversion]
            refine .inl ⟨⟨v.toNat, out, hle, by omega, by omega, fun h => ?_⟩, ?_, rfl⟩
            · by_contra hno
              exact hkey ⟨hzero.mpr h, by omega, by omega⟩
            · rw [WitnessProgram.symbols, ← hvs]
              simp

theorem segwitAddrDecode_cases (addr : Bytes) :
    (∃ w, SegwitAddress addr w ∧ segwitAddrDecode addr = some (some (w.version, w.program))) ∨
    ((∀ w, ¬SegwitAddress addr w) ∧ segwitAddrDecode addr = some none) := by
  cases hdecode : bech32Decode addr with
  | none =>
      refine .inr ⟨fun w hw => ?_, by rw [segwitAddrDecode, hdecode]⟩
      obtain ⟨hrp, hsome⟩ := (segwitAddress_iff addr w).mp hw
      cases hdecode.symm.trans hsome
  | some decoded =>
      obtain ⟨hrp, data⟩ := decoded
      obtain ⟨-, p, -, rfl, -⟩ := (bech32Decode_iff addr hrp data).mp hdecode
      obtain h | h := segwitAddrDecode_values hdecode
      · obtain ⟨w, hw, hsome⟩ := h
        exact .inl ⟨w, (segwitAddress_iff addr w).mpr ⟨hrp, by rw [hdecode, hw]⟩, hsome⟩
      · obtain ⟨hno, hnone⟩ := h
        refine .inr ⟨fun w hw => ?_, hnone⟩
        obtain ⟨hrp', hsome⟩ := (segwitAddress_iff addr w).mp hw
        rw [hdecode] at hsome
        obtain ⟨-, hdata⟩ := Prod.mk.inj (Option.some.inj hsome)
        exact hno w (List.map_injective_iff.mpr (fun _ _ => valueByte_inj) hdata)

/-- A string is the address of one witness program at most. -/
theorem segwitAddress_unique {addr : Bytes} {w w' : WitnessProgram} (h : SegwitAddress addr w)
    (h' : SegwitAddress addr w') : w = w' := by
  obtain ⟨hrp, hsome⟩ := (segwitAddress_iff addr w).mp h
  obtain ⟨hrp', hsome'⟩ := (segwitAddress_iff addr w').mp h'
  rw [hsome] at hsome'
  obtain ⟨-, hdata⟩ := Prod.mk.inj (Option.some.inj hsome')
  exact WitnessProgram.symbols_inj
    (List.map_injective_iff.mpr (fun _ _ => valueByte_inj) hdata)

/-! ## The script -/

/-- An address that is none leaves the buffer alone, and so does one whose script
does not fit. -/
theorem bech32ToScript_eq (out addr : Bytes) :
    (∃ w, SegwitAddress addr w ∧ bech32ToScript out addr =
      if w.script.length ≤ out.length then some (w.script.length, store out 0 w.script)
      else some (0, out)) ∨
    ((∀ w, ¬SegwitAddress addr w) ∧ bech32ToScript out addr = some (0, out)) := by
  obtain h | h := segwitAddrDecode_cases addr
  · obtain ⟨w, hw, hdecode⟩ := h
    refine .inl ⟨w, hw, ?_⟩
    have hlen : w.script.length = w.program.length + 2 := rfl
    rw [bech32ToScript, hdecode, hlen]
    simp only
    by_cases hfits : w.program.length + 2 ≤ out.length
    · rw [if_neg (by omega), if_pos hfits, store_witness _ _ (by omega)]
      rfl
    · rw [if_pos (by omega), if_neg hfits]
  · obtain ⟨hno, hdecode⟩ := h
    exact .inr ⟨hno, by rw [bech32ToScript, hdecode]⟩

/-- The program is taken from a segwit address and from nothing else. -/
theorem bech32ToScript_segwit (out addr : Bytes) :
    ∃ size out', bech32ToScript out addr = some (size, out') ∧ out'.length = out.length ∧
      (size ≠ 0 ↔ ∃ w, SegwitAddress addr w ∧ w.program.length + 2 ≤ out.length) ∧
      (size = 0 → out' = out) ∧
      ∀ w, SegwitAddress addr w → w.program.length + 2 ≤ out.length →
        size = w.program.length + 2 ∧ out' = store out 0 w.script := by
  obtain h | h := bech32ToScript_eq out addr
  · obtain ⟨w, hw, heq⟩ := h
    have hlen : w.script.length = w.program.length + 2 := rfl
    rw [hlen] at heq
    by_cases hfits : w.program.length + 2 ≤ out.length
    · rw [if_pos hfits] at heq
      refine ⟨_, _, heq, length_store (by omega), ⟨fun _ => ⟨w, hw, hfits⟩, fun _ => by omega⟩,
        fun hzero => by omega, fun w' hw' _ => ?_⟩
      rw [segwitAddress_unique hw' hw]
      exact ⟨rfl, rfl⟩
    · rw [if_neg hfits] at heq
      have hnot : ∀ w', SegwitAddress addr w' → ¬w'.program.length + 2 ≤ out.length := by
        intro w' hw'
        rwa [segwitAddress_unique hw' hw]
      refine ⟨_, _, heq, rfl, ⟨fun hne => absurd rfl hne, fun h => ?_⟩, fun _ => rfl,
        fun w' hw' hfits' => absurd hfits' (hnot w' hw')⟩
      obtain ⟨w', hw', hfits'⟩ := h
      exact absurd hfits' (hnot w' hw')
  · obtain ⟨hno, heq⟩ := h
    refine ⟨_, _, heq, rfl, ⟨fun hne => absurd rfl hne, fun h => ?_⟩, fun _ => rfl,
      fun w hw => absurd hw (hno w)⟩
    obtain ⟨w, hw, -⟩ := h
    exact absurd hw (hno w)

end AlphaMiner
