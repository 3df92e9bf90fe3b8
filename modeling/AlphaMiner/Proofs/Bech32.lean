import AlphaMiner.Lib.Bech32
import AlphaMiner.Model.Address
import Mathlib.Data.List.TakeWhile

/-!
# `bech32_decode` accepts exactly the strings of the standard

The decoder keeps the six symbols of the check register in one word of 32 bits
(`residueWord`), where a step of the code is a step of the register
(`bech32PolymodStep_residueWord`). Each of its loops is then the corresponding list
operation: the part in front of the separator is lowered and put into the
register twice, and behind the separator every character has a value.

It looks for the separator from the right, so the human-readable part may hold
more of them. The characters behind it cannot, since none of the values is
written so, and the string therefore comes apart in one way (`bech32Decode_split`).
What is left to show is that the last six values are the checksum that the
encoder writes, which is `valid_iff`.
-/

namespace AlphaMiner

open Lib Lib.Bech32

/-! ## The register in a word -/

/-- The register as `chk` holds it. -/
def residueWord (r : BitVec (6 * 5)) : UInt32 := .ofBitVec (r.setWidth 32)

theorem residueWord_xor (a b : BitVec (6 * 5)) :
    residueWord (a ^^^ b) = residueWord a ^^^ residueWord b := by
  apply UInt32.toBitVec_inj.mp
  simp [residueWord]

theorem residueWord_inj {a b : BitVec (6 * 5)} (h : residueWord a = residueWord b) : a = b := by
  have h' := congrArg (fun c => c.toBitVec.setWidth 30) h
  simpa [residueWord] using h'

/-- The five masked constants are what comes back into the register. -/
theorem polymodMask_generator : ∀ top : Value,
    (polymodMask (UInt8.ofNat top.toNat) 0 &&& 0x3b6a57b2) ^^^
    ((polymodMask (UInt8.ofNat top.toNat) 1 &&& 0x26508e6d) ^^^
    ((polymodMask (UInt8.ofNat top.toNat) 2 &&& 0x1ea119fa) ^^^
    ((polymodMask (UInt8.ofNat top.toNat) 3 &&& 0x3d4233dd) ^^^
    (polymodMask (UInt8.ofNat top.toNat) 4 &&& 0x2a1462b3)))) = residueWord (generator top) := by
  decide +kernel

theorem residueWord_top (r : BitVec (6 * 5)) :
    (residueWord r >>> 25).toUInt8 = UInt8.ofNat (digit r 5).toNat := by
  apply UInt8.toNat_inj.mp
  have hr := r.isLt
  simp [residueWord, digit, Nat.shiftRight_eq_div_pow]
  omega

theorem residueWord_shift (r : BitVec (6 * 5)) :
    (residueWord r &&& 0x1ffffff) <<< 5 = residueWord (r <<< 5) := by
  have hr := r.isLt
  have hlow : (residueWord r &&& 0x1ffffff).toNat = (residueWord r).toNat % 2 ^ 25 := by
    rw [UInt32.toNat_and]
    exact Nat.and_two_pow_sub_one_eq_mod _ 25
  apply UInt32.toNat_inj.mp
  rw [UInt32.toNat_shiftLeft, hlow]
  simp [residueWord, Nat.shiftLeft_eq]
  omega

theorem bech32PolymodStep_residueWord (r : BitVec (6 * 5)) (v : Value) :
    bech32PolymodStep (residueWord r) ^^^ UInt32.ofNat v.toNat =
      residueWord (shiftIn generator r v) := by
  have hv : UInt32.ofNat v.toNat = residueWord (v.setWidth (6 * 5)) := by
    apply UInt32.toNat_inj.mp
    have := v.isLt
    simp [residueWord]
  rw [bech32PolymodStep, shiftIn, residueWord_xor, residueWord_xor, ← residueWord_shift, hv]
  simp only [residueWord_top, ← polymodMask_generator, UInt32.xor_assoc]

/-! ## The loops -/

/-- What holds of every number below 256 holds of every byte. -/
theorem forall_byte {P : UInt8 → Prop} (h : ∀ n : Fin 256, P (UInt8.ofNat n)) (c : UInt8) :
    P c := by
  have hc := h ⟨c.toNat, c.toNat_lt⟩
  rwa [UInt8.ofNat_toNat] at hc

/-- A value as `data` holds it. -/
def valueByte (v : Value) : UInt8 := UInt8.ofNat v.toNat

theorem lowered_eq (ch : UInt8) :
    (if isUpper ch = true then ch - 65 + 97 else ch) = lowerChar ch := by
  unfold lowerChar isUpper
  grind

theorem high_eq (ch : UInt8) : (ch >>> 5).toUInt32 = UInt32.ofNat (highBits ch).toNat := by
  have hch := ch.toNat_lt
  apply UInt32.toNat_inj.mp
  simp [highBits, Nat.shiftRight_eq_div_pow]
  omega

theorem low_eq : ∀ ch : UInt8,
    (ch &&& 0x1f).toUInt32 = UInt32.ofNat (lowBits (lowerChar ch)).toNat :=
  forall_byte (by decide +kernel)

theorem bech32CharsetRev_eq : bech32CharsetRev =
    (List.range 128).map fun c => (value? (UInt8.ofNat c)).elim (-1) fun v => (v.toNat : Int) := by
  decide +kernel

/-- A byte with its top bit set is no character of the alphabet. -/
theorem value?_high_bit : ∀ ch : UInt8,
    if ch &&& 0x80 ≠ 0 then value? ch = none else ch.toNat < 128 :=
  forall_byte (by decide +kernel)

theorem charsetRev_eq (ch : UInt8) :
    (if ch &&& 0x80 ≠ 0 then -1 else bech32CharsetRev.getD ch.toNat (-1)) =
      (value? ch).elim (-1) fun v => (v.toNat : Int) := by
  have hbit := value?_high_bit ch
  by_cases hhigh : ch &&& 0x80 ≠ 0
  · rw [if_pos hhigh] at hbit ⊢
    rw [hbit]
    rfl
  · rw [if_neg hhigh] at hbit ⊢
    rw [bech32CharsetRev_eq, List.getD_eq_getElem?_getD, List.getElem?_map,
      List.getElem?_range hbit, Option.map_some, Option.getD_some, UInt8.ofNat_toNat]

def isPrintable (ch : UInt8) : Bool := 33 ≤ ch && ch ≤ 126

theorem all_isPrintable (s : Bytes) :
    s.all isPrintable = true ↔ ∀ c ∈ s, 33 ≤ c ∧ c ≤ 126 := by
  simp [isPrintable]

/-- The loop over the human-readable part. -/
theorem bech32Decode.hrp_eq (input : Bytes) : ∀ (r : BitVec (6 * 5)) (out : Bytes) (l u : Bool),
    bech32Decode.hrp input ⟨residueWord r, out, l, u⟩ =
      if input.all isPrintable = true then
        some
          { chk := residueWord (feed generator r ((lower input).map highBits))
            out := out ++ lower input
            haveLower := l || input.any isLower
            haveUpper := u || input.any isUpper }
      else none := by
  induction input with
  | nil =>
      intro r out l u
      simp [bech32Decode.hrp, lower]
  | cons ch input ih =>
      intro r out l u
      simp only [bech32Decode.hrp, lowered_eq, high_eq, bech32PolymodStep_residueWord]
      by_cases hch : ch < 33 ∨ 126 < ch
      · have hrange : isPrintable ch = false := by
          unfold isPrintable
          grind
        rw [if_pos hch, List.all_cons, hrange]
        rfl
      · have hrange : isPrintable ch = true := by
          unfold isPrintable
          grind
        rw [if_neg hch, ih, List.all_cons, hrange, Bool.true_and]
        simp [lower, Bool.or_assoc]

/-- The second loop, which puts the low bits of that part into the register. -/
theorem hrp_fold (input : Bytes) : ∀ r : BitVec (6 * 5),
    input.foldl (fun chk ch => bech32PolymodStep chk ^^^ (ch &&& 0x1f).toUInt32) (residueWord r) =
      residueWord (feed generator r ((lower input).map lowBits)) := by
  induction input with
  | nil => exact fun _ => rfl
  | cons ch input ih =>
      intro r
      rw [List.foldl_cons, low_eq, bech32PolymodStep_residueWord, ih]
      rfl

theorem ofInt_value : ∀ v : Value,
    UInt32.ofInt (v.toNat : Int) = UInt32.ofNat v.toNat ∧
      UInt8.ofInt (v.toNat : Int) = valueByte v := by decide

theorem bech32Decode.data_cons (ch : UInt8) (input : Bytes) (r : BitVec (6 * 5)) (out : Bytes)
    (l u : Bool) :
    bech32Decode.data (ch :: input) ⟨residueWord r, out, l, u⟩ =
      (value? ch).bind fun v =>
        bech32Decode.data input
          { chk := residueWord (shiftIn generator r v)
            out := if 6 ≤ input.length then out ++ [valueByte v] else out
            haveLower := l || isLower ch
            haveUpper := u || isUpper ch } := by
  simp only [bech32Decode.data, charsetRev_eq]
  cases value? ch with
  | none => rfl
  | some v =>
      have hne : (v.toNat : Int) ≠ -1 := by omega
      simp only [Option.elim_some, Option.bind_some, ofInt_value, bech32PolymodStep_residueWord]
      exact if_neg hne

/-- A value is copied if six more follow. -/
theorem append_take (out : Bytes) (v : Value) (vs : List Value) :
    (if 6 ≤ vs.length then out ++ [valueByte v] else out) ++
        (vs.take (vs.length - 6)).map valueByte =
      out ++ ((v :: vs).take ((v :: vs).length - 6)).map valueByte := by
  rw [List.length_cons]
  split
  · next h => simp [show vs.length + 1 - 6 = vs.length - 6 + 1 by omega]
  · next h => simp [show vs.length + 1 - 6 = 0 by omega, show vs.length - 6 = 0 by omega]

/-- The loop over the data part, which leaves the last six values out. -/
theorem bech32Decode.data_iff (input : Bytes) : ∀ (r : BitVec (6 * 5)) (out : Bytes) (l u : Bool)
    (st : AlphaMiner.Bech32),
    bech32Decode.data input ⟨residueWord r, out, l, u⟩ = some st ↔
      ∃ vs, input.map value? = vs.map some ∧ st =
        { chk := residueWord (feed generator r vs)
          out := out ++ (vs.take (vs.length - 6)).map valueByte
          haveLower := l || input.any isLower
          haveUpper := u || input.any isUpper } := by
  induction input with
  | nil =>
      intro r out l u st
      constructor
      · intro h
        cases h
        exact ⟨[], rfl, by simp⟩
      · intro h
        obtain ⟨vs, hvs, rfl⟩ := h
        cases vs with
        | nil => simp [bech32Decode.data]
        | cons v vs => cases hvs
  | cons ch input ih =>
      intro r out l u st
      rw [bech32Decode.data_cons]
      cases hv : value? ch with
      | none =>
          simp only [Option.bind_none, reduceCtorEq, false_iff, not_exists, not_and]
          intro vs hvs
          cases vs <;> simp [hv] at hvs
      | some v =>
          rw [Option.bind_some, ih]
          constructor
          · intro h
            obtain ⟨vs, hvs, rfl⟩ := h
            refine ⟨v :: vs, by simp [hv, hvs], ?_⟩
            rw [length_values hvs, append_take]
            simp [Bool.or_assoc]
          · intro h
            obtain ⟨vs, hvs, rfl⟩ := h
            cases vs with
            | nil => cases hvs
            | cons v' vs =>
                rw [List.map_cons, List.map_cons, hv] at hvs
                obtain ⟨hhead, hrest⟩ := List.cons.inj hvs
                obtain rfl := Option.some.inj hhead
                refine ⟨vs, hrest, ?_⟩
                rw [length_values hrest, append_take]
                simp [Bool.or_assoc]

/-! ## The separator -/

/-- What the decoder checks of the two parts by themselves. -/
def Shaped (raw tail : Bytes) : Prop :=
  raw ≠ [] ∧ 6 ≤ tail.length ∧ raw.length + 1 + tail.length ≤ 90 ∧ ∀ c ∈ raw, 33 ≤ c ∧ c ≤ 126

instance (raw tail : Bytes) : Decidable (Shaped raw tail) :=
  inferInstanceAs (Decidable (raw ≠ [] ∧ 6 ≤ tail.length ∧ raw.length + 1 + tail.length ≤ 90 ∧
    ∀ c ∈ raw, 33 ≤ c ∧ c ≤ 126))

theorem takeWhile_separator {tail : Bytes} (h : separator ∉ tail) (raw : Bytes) :
    ((raw ++ separator :: tail).reverse.takeWhile (· ≠ 49)).length = tail.length := by
  rw [List.reverse_append, List.reverse_cons, List.append_assoc, List.takeWhile_append_of_pos]
  · simp [separator]
  · intro c hc
    rw [List.mem_reverse] at hc
    simpa [separator] using ne_of_mem_of_not_mem hc h

theorem haveFlags_iff (s : Bytes) :
    (s.any isLower && s.any isUpper) = true ↔ MixedCase s := by
  simp [MixedCase, HasLower, HasUpper, isLower, isUpper]

theorem bech32Decode_eq (raw : Bytes) {tail : Bytes} (hsep : separator ∉ tail) :
    bech32Decode (raw ++ separator :: tail) =
      if Shaped raw tail then
        (bech32Decode.data tail
          { chk := residueWord (polymod (hrpExpand (lower raw)))
            out := []
            haveLower := raw.any isLower
            haveUpper := raw.any isUpper }).bind fun data =>
          if data.haveLower && data.haveUpper then none
          else if data.chk = 1 then some (lower raw, data.out)
          else none
      else none := by
  have hlen : (raw ++ separator :: tail).length = raw.length + 1 + tail.length := by
    simp
    omega
  have hhrp : raw.length + 1 + tail.length - (1 + tail.length) = raw.length := by omega
  have hdrop : (raw ++ separator :: tail).drop (raw.length + 1) = tail := by simp
  have hraw := List.length_pos_iff (l := raw)
  have hexpand : residueWord (polymod (hrpExpand (lower raw))) =
      raw.foldl (fun chk ch => bech32PolymodStep chk ^^^ (ch &&& 0x1f).toUInt32)
        (bech32PolymodStep (residueWord (feed generator 1#30 ((lower raw).map highBits)))) := by
    have hzero := bech32PolymodStep_residueWord
      (feed generator 1#30 ((lower raw).map highBits)) 0#5
    rw [show UInt32.ofNat (0#5).toNat = 0 from rfl, UInt32.xor_zero] at hzero
    rw [hzero, hrp_fold, polymod, hrpExpand, feed_append, feed_cons]
  rw [bech32Decode]
  simp only [takeWhile_separator hsep, hlen, hhrp, List.take_left, hdrop]
  by_cases hsize : raw ≠ [] ∧ 6 ≤ tail.length ∧ raw.length + 1 + tail.length ≤ 90
  · obtain ⟨hne, hsix, hmax⟩ := hsize
    have hpos := hraw.mpr hne
    rw [if_neg (by omega), if_neg (by omega), show (1 : UInt32) = residueWord 1#30 from rfl,
      bech32Decode.hrp_eq]
    by_cases hprint : ∀ c ∈ raw, 33 ≤ c ∧ c ≤ 126
    · rw [if_pos ((all_isPrintable raw).mpr hprint), if_pos ⟨hne, hsix, hmax, hprint⟩, hexpand]
      simp only [List.nil_append, Bool.false_or]
      cases bech32Decode.data tail _ <;> rfl
    · rw [if_neg fun h => hprint ((all_isPrintable raw).mp h), if_neg fun h => hprint h.2.2.2]
  · have hnone := hsize
    rw [← hraw] at hnone
    by_cases hlimit : raw.length + 1 + tail.length < 8 ∨ 90 < raw.length + 1 + tail.length
    · rw [if_pos hlimit, if_neg fun h => hsize ⟨h.1, h.2.1, h.2.2.1⟩]
    · rw [if_neg hlimit, if_pos (by omega), if_neg fun h => hsize ⟨h.1, h.2.1, h.2.2.1⟩]

theorem bech32Decode_split (raw h d : Bytes) {tail : Bytes} (hsep : separator ∉ tail) :
    bech32Decode (raw ++ separator :: tail) = some (h, d) ↔
      Shaped raw tail ∧ ¬MixedCase (raw ++ separator :: tail) ∧
      ∃ vs, tail.map value? = vs.map some ∧ verifyChecksum (lower raw) vs = true ∧
        h = lower raw ∧ d = (vs.take (vs.length - 6)).map valueByte := by
  have hflags : ((raw.any isLower || tail.any isLower) && (raw.any isUpper || tail.any isUpper)) =
      true ↔ MixedCase (raw ++ separator :: tail) := by
    rw [← haveFlags_iff]
    simp [separator, isLower, isUpper]
  have hchk : ∀ vs, residueWord (feed generator (polymod (hrpExpand (lower raw))) vs) = 1 ↔
      verifyChecksum (lower raw) vs = true := by
    intro vs
    rw [verifyChecksum, decide_eq_true_iff, polymod, polymod, feed_append]
    exact ⟨fun h => residueWord_inj h, fun h => congrArg residueWord h⟩
  rw [bech32Decode_eq raw hsep]
  constructor
  · intro hsome
    by_cases hshape : Shaped raw tail
    · rw [if_pos hshape, Option.bind_eq_some_iff] at hsome
      obtain ⟨st, hdata, hsome⟩ := hsome
      obtain ⟨vs, hvs, rfl⟩ := (bech32Decode.data_iff tail _ _ _ _ st).mp hdata
      rw [Option.ite_none_left_eq_some, Option.ite_none_right_eq_some, hflags, hchk] at hsome
      obtain ⟨hmixed, hvalid, hout⟩ := hsome
      obtain ⟨rfl, rfl⟩ := Prod.mk.inj (Option.some.inj hout)
      exact ⟨hshape, hmixed, vs, hvs, hvalid, rfl, rfl⟩
    · rw [if_neg hshape] at hsome
      cases hsome
  · intro h
    obtain ⟨hshape, hmixed, vs, hvs, hvalid, rfl, rfl⟩ := h
    rw [if_pos hshape, Option.bind_eq_some_iff]
    refine ⟨_, (bech32Decode.data_iff tail _ _ _ _ _).mpr ⟨vs, hvs, rfl⟩, ?_⟩
    rw [Option.ite_none_left_eq_some, Option.ite_none_right_eq_some, hflags, hchk]
    exact ⟨hmixed, hvalid, rfl⟩

/-! ## Strings of one case -/

theorem bech32Decode_none {s : Bytes} (h : separator ∉ s) : bech32Decode s = none := by
  have hlen : (s.reverse.takeWhile (· ≠ 49)).length = s.length := by
    rw [List.takeWhile_eq_self_iff.mpr, List.length_reverse]
    intro c hc
    simpa [separator] using ne_of_mem_of_not_mem (List.mem_reverse.mp hc) h
  rw [bech32Decode]
  simp only [hlen]
  split
  · rfl
  · rw [if_pos (by omega)]

/-- What `bech32_decode` accepts is the standard's encoding of what it returns, in one case. -/
theorem bech32Decode_iff (s h d : Bytes) :
    bech32Decode s = some (h, d) ↔
      ¬MixedCase s ∧
      ∃ p : Payload, h = p.hrp ∧ d = p.data.map valueByte ∧ lower s = p.encode := by
  constructor
  · intro hsome
    have hmem : separator ∈ s := by
      by_contra hno
      rw [bech32Decode_none hno] at hsome
      cases hsome
    obtain ⟨raw, tail, rfl, hsep⟩ := last_separator hmem
    obtain ⟨⟨hne, hsix, hmax, hprint⟩, hmixed, vs, hvs, hvalid, rfl, rfl⟩ :=
      (bech32Decode_split raw h d hsep).mp hsome
    have hlen := length_values hvs
    have hcut := List.take_append_drop (vs.length - 6) vs
    rw [← hcut] at hvalid
    have hcheck := (valid_iff _ _ (by simp; omega)).mp hvalid
    refine ⟨hmixed, ?_⟩
    refine ⟨{ hrp := lower raw, data := vs.take (vs.length - 6), hrp_ne_nil := ?_
              printable := ?_, not_upper := not_hasUpper_lower raw, length_le := ?_ },
      rfl, rfl, ?_⟩
    · simpa [lower] using hne
    · intro c hc
      obtain ⟨c', hc', rfl⟩ := List.mem_map.mp hc
      exact (printable_lowerChar c').mpr (hprint c' hc')
    · simp [lower]
      omega
    · rw [Payload.encode, encode, ← hcheck, hcut, ← lower_of_values hvs]
      simp [lower]
      rfl
  · intro hall
    obtain ⟨hmixed, p, rfl, rfl, hlower⟩ := hall
    rw [Payload.encode, encode, lower, List.map_eq_append_iff] at hlower
    obtain ⟨raw, rest, rfl, hraw, hrest⟩ := hlower
    obtain ⟨c, tail, rfl, hc, htail⟩ := List.map_eq_cons_iff.mp hrest
    obtain rfl := eq_separator c hc
    have hvs := values_of_lower htail
    have htail := length_values hvs
    have hsize := p.length_le
    rw [List.length_append, length_createChecksum] at htail
    rw [← hraw, List.length_map] at hsize
    refine (bech32Decode_split raw _ _ (separator_not_mem hvs)).mpr
      ⟨⟨?_, by omega, by omega, ?_⟩, hmixed, _, hvs, ?_, hraw.symm, ?_⟩
    · intro hnil
      exact p.hrp_ne_nil (by rw [← hraw, hnil, List.map_nil])
    · intro c hc
      refine (printable_lowerChar c).mp (p.printable _ ?_)
      rw [← hraw]
      exact List.mem_map_of_mem hc
    · rw [lower, hraw]
      exact (valid_iff _ _ (length_createChecksum _ _)).mpr rfl
    · rw [List.length_append, length_createChecksum, Nat.add_sub_cancel, List.take_left]

/-- An encoding is accepted in either case, and nothing else is. -/
theorem bech32Decode_bip173 :
    (∀ p : Payload,
      bech32Decode p.encode = some (p.hrp, p.data.map valueByte) ∧
      bech32Decode (upper p.encode) = some (p.hrp, p.data.map valueByte)) ∧
    ∀ s hrp data, bech32Decode s = some (hrp, data) →
      ¬MixedCase s ∧
      ∃ p : Payload, hrp = p.hrp ∧ data = p.data.map valueByte ∧ lower s = p.encode := by
  refine ⟨fun p => ?_, fun s hrp data => (bech32Decode_iff s hrp data).mp⟩
  have hlower := lower_eq_self p.not_hasUpper_encode
  constructor
  · exact (bech32Decode_iff _ _ _).mpr
      ⟨fun hmixed => p.not_hasUpper_encode hmixed.2, p, rfl, rfl, hlower⟩
  · exact (bech32Decode_iff _ _ _).mpr
      ⟨fun hmixed => not_hasLower_upper _ hmixed.1, p, rfl, rfl,
        (lower_upper p.encode).trans hlower⟩

/-- The thirty-two values in order. -/
theorem bech32Decode_bip173_sample :
    ¬MixedCase (ascii "ABCDEF1QPZRY9X8GF2TVDW0S3JN54KHCE6MUA7LMQQQXW") ∧
    ∃ p : Payload, ascii "abcdef" = p.hrp ∧
      (List.range 32).map UInt8.ofNat = p.data.map valueByte ∧
      lower (ascii "ABCDEF1QPZRY9X8GF2TVDW0S3JN54KHCE6MUA7LMQQQXW") = p.encode :=
  bech32Decode_bip173.2 (ascii "ABCDEF1QPZRY9X8GF2TVDW0S3JN54KHCE6MUA7LMQQQXW") (ascii "abcdef")
    ((List.range 32).map UInt8.ofNat) (by decide +kernel)

end AlphaMiner
