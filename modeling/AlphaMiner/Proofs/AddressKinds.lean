import AlphaMiner.Proofs.Base58
import AlphaMiner.Proofs.Segwit

/-!
# Strings that are addresses of both kinds

`address_to_script` asks `b58dec` first and does not come back from it: what is a
number of 200 bits in Base58 is not tried as a segwit address any more. The two
alphabets have most of their characters in common, so a segwit address can be such
a number, and then no script comes out (`addressToScript_iff`), since a script for
a hash does not begin like one for a witness program.

It takes a short program. Behind the separator no character is a digit zero, so a
program of 18 bytes or more makes the number too large
(`addressToScript_of_long_program`), and those of version 0 are longer.
-/

namespace AlphaMiner

open Lib Lib.Bech32

theorem b58dec_eq_none_iff (addr : Bytes) :
    b58dec 25 addr = none ↔
      ¬∃ ds, addr.map Base58.value? = ds.map some ∧ ofNumeral 58 ds < 2 ^ 200 := by
  constructor
  · intro hnone h
    obtain ⟨ds, hds, hsmall⟩ := h
    have hpow : (2 : Nat) ^ 200 = 256 ^ 25 := by norm_num
    rw [hpow] at hsmall
    have hbin : bytesNumber ((numeral 256 25 (ofNumeral 58 ds)).map UInt8.ofNat) =
        ofNumeral 58 ds := by
      rw [bytesNumber, List.map_map, List.map_congr_left (g := id), List.map_id, ofNumeral_numeral]
      intro d hd
      exact UInt8.toNat_ofNat_of_lt' (lt_of_mem_numeral (by decide) hd)
    have hlen : ((numeral 256 25 (ofNumeral 58 ds)).map UInt8.ofNat).length = 25 := by
      rw [List.length_map, length_numeral (by decide) hsmall]
    have hsome := (b58dec_iff addr _).mpr ⟨ds, hds, hpow ▸ hsmall, hlen, hbin⟩
    rw [hnone] at hsome
    cases hsome
  · intro h
    by_contra hne
    obtain ⟨bin, hbin⟩ := Option.ne_none_iff_exists'.mp hne
    obtain ⟨ds, hds, hsmall, -⟩ := (b58dec_iff addr bin).mp hbin
    exact h ⟨ds, hds, hsmall⟩

theorem b58check_cases (sha256d : Bytes → Hash) (bin addr : Bytes) :
    b58check sha256d bin addr = none ∨ b58check sha256d bin addr = some (-1) ∨
      b58check sha256d bin addr = some (-3) ∨
      b58check sha256d bin addr = some ((bin.headD 0).toNat : Int) := by
  rw [b58check]
  by_cases hsum : bin.drop (bin.length - 4) ≠
      (sha256d (bin.take (bin.length - 4))).toList.take 4
  · rw [if_pos hsum]
    exact .inr (.inl rfl)
  · rw [if_neg hsum]
    cases b58check.zeros bin addr with
    | none => exact .inl rfl
    | some canonical =>
        cases canonical with
        | false => exact .inr (.inr (.inl rfl))
        | true => exact .inr (.inr (.inr rfl))

theorem b58check_of_zeros (sha256d : Bytes → Hash) {bin addr : Bytes}
    (h : b58check.zeros bin addr = some false) :
    b58check sha256d bin addr = some (-1) ∨ b58check sha256d bin addr = some (-3) := by
  rw [b58check, h]
  split
  · exact .inl rfl
  · exact .inr rfl

/-- What `b58dec` takes has the script of a hash or none. -/
theorem addressToScript_of_b58dec {sha256d : Bytes → Hash} {out addr bin : Bytes}
    (hdec : b58dec 25 addr = some bin) (hout : 25 ≤ out.length) :
    addressToScript sha256d out addr = none ∨ addressToScript sha256d out addr = some (0, out) ∨
      ∃ version hash, addressToScript sha256d out addr =
        some ((hashScript version hash).length, store out 0 (hashScript version hash)) := by
  have hfail : ∀ code : Int, code < 0 → b58check sha256d bin addr = some code →
      addressToScript sha256d out addr = some (0, out) := by
    intro code hcode hcheck
    rw [addressToScript, hdec]
    simp only [hcheck]
    exact if_pos hcode
  obtain hcheck | hcheck | hcheck | hcheck := b58check_cases sha256d bin addr
  · refine .inl ?_
    rw [addressToScript, hdec]
    simp only [hcheck]
  · exact .inr (.inl (hfail _ (by decide) hcheck))
  · exact .inr (.inl (hfail _ (by decide) hcheck))
  · exact .inr (.inr ⟨_, _, addressToScript_hash hdec hcheck hout⟩)

/-- The two kinds of script differ in the first byte. -/
theorem store_hashScript_ne (out : Bytes) (version : UInt8) (hash : Bytes) (w : WitnessProgram) :
    store out 0 (hashScript version hash) ≠ store out 0 w.script := by
  have hopcode : ∀ v ≤ 16, (if v = 0 then 0 else UInt8.ofNat (0x50 + v)) ≠ 0xa9 ∧
      (if v = 0 then 0 else UInt8.ofNat (0x50 + v)) ≠ 0x76 := by decide
  obtain ⟨hhash, hkey⟩ := hopcode w.version w.version_le
  intro h
  have hhead := congrArg List.head? h
  unfold hashScript at hhead
  split at hhead
  · exact hhash (Option.some.inj hhead).symm
  · exact hkey (Option.some.inj hhead).symm

/-- A segwit address has its script exactly if it is not also a Base58 number. -/
theorem addressToScript_iff {sha256d : Bytes → Hash} {out out' addr : Bytes} {size : Nat}
    (hout : 42 ≤ out.length) (hsome : bech32ToScript out addr = some (size, out'))
    (hsize : size ≠ 0) :
    addressToScript sha256d out addr = some (size, out') ↔
      ¬∃ ds, addr.map Base58.value? = ds.map some ∧ ofNumeral 58 ds < 2 ^ 200 := by
  rw [← b58dec_eq_none_iff]
  constructor
  · intro h
    by_contra hne
    obtain ⟨bin, hdec⟩ := Option.ne_none_iff_exists'.mp hne
    obtain hscript | hscript | ⟨version, hash, hscript⟩ :=
      @addressToScript_of_b58dec sha256d out addr bin hdec (by omega)
    · rw [hscript] at h
      cases h
    · rw [hscript] at h
      exact hsize (Prod.mk.inj (Option.some.inj h)).1.symm
    · rw [hscript] at h
      obtain ⟨-, rfl⟩ := Prod.mk.inj (Option.some.inj h)
      obtain ⟨w, hw, heq⟩ | ⟨hno, heq⟩ := bech32ToScript_eq out addr
      · rw [heq] at hsome
        split at hsome
        · exact store_hashScript_ne out version hash w
            (Prod.mk.inj (Option.some.inj hsome)).2.symm
        · exact hsize (Prod.mk.inj (Option.some.inj hsome)).1.symm
      · rw [heq] at hsome
        exact hsize (Prod.mk.inj (Option.some.inj hsome)).1.symm
  · intro hnone
    rw [addressToScript, hnone]
    exact hsome

set_option maxRecDepth 20000 in
theorem addressToScript_iff_sample :
    addressToScript (fun _ => .replicate 32 0) (List.replicate 42 0) (ascii "bc1pqq0qjmy9he") =
        some (4, [0x51, 2, 0, 30] ++ List.replicate 38 0) ↔
      ¬∃ ds, (ascii "bc1pqq0qjmy9he").map Base58.value? = ds.map some ∧
        ofNumeral 58 ds < 2 ^ 200 :=
  addressToScript_iff (by decide) (by decide) (by decide)

set_option maxRecDepth 20000 in
/-- Two zero bytes under version 1, written without a zero and without an `l`. -/
theorem addressToScript_hides :
    bech32ToScript (List.replicate 42 0) (ascii "bc1pqqqq4yr79j") =
        some (4, [0x51, 2, 0, 0] ++ List.replicate 38 0) ∧
      ∀ sha256d, addressToScript sha256d (List.replicate 42 0) (ascii "bc1pqqqq4yr79j") =
        some (0, List.replicate 42 0) := by
  refine ⟨by decide, fun sha256d => ?_⟩
  have hdec : b58dec 25 (ascii "bc1pqqqq4yr79j") = some [0, 0, 0, 0, 0, 0, 0, 0, 0, 0, 0, 0, 0, 0,
      2, 103, 236, 98, 42, 28, 64, 73, 179, 110, 218] := by decide
  have hzeros : b58check.zeros [0, 0, 0, 0, 0, 0, 0, 0, 0, 0, 0, 0, 0, 0, 2, 103, 236, 98, 42, 28,
      64, 73, 179, 110, 218] (ascii "bc1pqqqq4yr79j") = some false := by decide
  rw [addressToScript, hdec]
  obtain hcheck | hcheck := b58check_of_zeros sha256d hzeros
  · simp only [hcheck]
    rfl
  · simp only [hcheck]
    rfl

/-! ## Programs that are too long to be hidden -/

/-- A character that is not a one makes the number as large as what follows it. -/
theorem pow_le_number {front back : Bytes} {c : UInt8} {ds : List Nat}
    (hds : (front ++ c :: back).map Base58.value? = ds.map some) (hc : c ≠ 49) :
    58 ^ back.length ≤ ofNumeral 58 ds := by
  rw [List.map_append, List.map_cons] at hds
  obtain ⟨us, rest, rfl, -, hrest⟩ := List.map_eq_append_iff.mp hds.symm
  obtain ⟨d, vs, rfl, hd, hvs⟩ := List.map_eq_cons_iff.mp hrest
  have hlen : back.length = vs.length := by simpa using congrArg List.length hvs.symm
  have hpos : 1 ≤ d := Nat.one_le_iff_ne_zero.mpr fun h => hc ((value_eq_zero hd.symm).mpr h)
  calc 58 ^ back.length ≤ d * 58 ^ vs.length := by
        rw [hlen]
        exact Nat.le_mul_of_pos_left _ hpos
    _ ≤ ofNumeral 58 (us ++ d :: vs) := by
        rw [ofNumeral_append, ofNumeral_cons]
        omega

/-- From 18 bytes on a program is safe: behind the version come 35 characters. -/
theorem addressToScript_of_long_program (sha256d : Bytes → Hash) (out : Bytes) {addr : Bytes}
    {w : WitnessProgram} (h : SegwitAddress addr w) (hlong : 18 ≤ w.program.length) :
    addressToScript sha256d out addr = bech32ToScript out addr := by
  have hnone : b58dec 25 addr = none := by
    rw [b58dec_eq_none_iff]
    intro hno
    obtain ⟨ds, hds, hsmall⟩ := hno
    obtain ⟨-, p, hdata, hlower⟩ := h
    rw [Payload.encode, encode, hdata, lower, List.map_eq_append_iff] at hlower
    obtain ⟨raw, rest, rfl, -, hrest⟩ := hlower
    obtain ⟨one, tail, rfl, -, htail⟩ := List.map_eq_cons_iff.mp hrest
    have hvalues := values_of_lower htail
    have hsep := separator_not_mem hvalues
    have hlen := length_values hvalues
    rw [List.length_append, length_createChecksum, WitnessProgram.symbols, List.length_cons,
      length_groups, groupCount] at hlen
    cases tail with
    | nil => simp at hlen
    | cons c back =>
        have hc : c ≠ 49 := fun hc => hsep (by simp [hc, separator])
        rw [← List.singleton_append, ← List.append_assoc] at hds
        have hbig := pow_le_number hds hc
        rw [List.length_cons] at hlen
        have hpow : 58 ^ 35 ≤ 58 ^ back.length := Nat.pow_le_pow_right (by decide) (by omega)
        have hmax : 2 ^ 200 ≤ 58 ^ 35 := by norm_num
        omega
  rw [addressToScript, hnone]

end AlphaMiner
