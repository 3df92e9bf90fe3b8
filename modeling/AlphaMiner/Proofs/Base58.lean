import AlphaMiner.Lib.Base58
import AlphaMiner.Proofs.Address

/-!
# Base58 addresses and their scripts

`b58dec` keeps the number it has read in seven words and multiplies it by 58 for
every digit. What runs over the top word, or into the upper 24 bits of it, is a
number of 200 bits or more, and since the number only grows from there it is the
whole string that is too large (`b58dec.loop_iff`). A string without a wrong
character is therefore refused for its size and for nothing else.

The number does not tell how many ones stood in front of it. `b58check` compares
them with the zero bytes, and the two agree exactly if the string is the encoding
of these 25 bytes (`Base58.eq_encode_iff`). That it finds a byte to stop at is due
to the checksum, which the number zero does not have.
-/

namespace AlphaMiner

open Lib

/-! ## The number -/

def wordsNumber (outi : List UInt32) : Nat := ofNumeral (2 ^ 32) (outi.map UInt32.toNat)

theorem wordsNumber_cons (w : UInt32) (outi : List UInt32) :
    wordsNumber (w :: outi) = w.toNat * (2 ^ 32) ^ outi.length + wordsNumber outi := by
  rw [wordsNumber, List.map_cons, ofNumeral_cons, List.length_map, wordsNumber]

theorem wordsNumber_lt (outi : List UInt32) : wordsNumber outi < (2 ^ 32) ^ outi.length := by
  have hword : ∀ d ∈ outi.map UInt32.toNat, d < 2 ^ 32 := by
    intro d hd
    obtain ⟨w, -, rfl⟩ := List.mem_map.mp hd
    exact w.toNat_lt
  have h := ofNumeral_lt (by decide) hword
  rwa [List.length_map] at h

theorem b58dec.word_toNat (w c : UInt32) (outi : List UInt32) (hc : c.toNat < 58) :
    ∃ c' w', b58dec.word w (c, outi) = (c', w' :: outi) ∧ c'.toNat < 58 ∧
      c'.toNat * 2 ^ 32 + w'.toNat = w.toNat * 58 + c.toNat := by
  have hw := w.toNat_lt
  have ht : (w.toUInt64 * 58 + c.toUInt64).toNat = w.toNat * 58 + c.toNat := by
    simp
    omega
  have hlow : ((w.toUInt64 * 58 + c.toUInt64) &&& 0xffffffff).toUInt32.toNat =
      (w.toNat * 58 + c.toNat) % 2 ^ 32 := by
    rw [UInt64.toNat_toUInt32, UInt64.toNat_and, ht]
    exact congrArg (· % 2 ^ 32) (Nat.and_two_pow_sub_one_eq_mod _ 32) |>.trans (Nat.mod_mod _ _)
  have hhigh : ((w.toUInt64 * 58 + c.toUInt64) >>> 32).toUInt32.toNat =
      (w.toNat * 58 + c.toNat) / 2 ^ 32 := by
    rw [UInt64.toNat_toUInt32, UInt64.toNat_shiftRight, ht, show (32 : UInt64).toNat % 64 = 32
      from rfl, Nat.shiftRight_eq_div_pow]
    omega
  refine ⟨_, _, rfl, ?_, ?_⟩
  · rw [hhigh]
    omega
  · rw [hhigh, hlow]
    omega

/-- The inner loop multiplies by 58 and adds the digit; what does not fit is what
it carries out. -/
theorem b58dec.word_foldr (outi : List UInt32) {c : UInt32} (hc : c.toNat < 58) :
    (outi.foldr b58dec.word (c, [])).1.toNat < 58 ∧
    (outi.foldr b58dec.word (c, [])).1.toNat * (2 ^ 32) ^ outi.length +
        wordsNumber (outi.foldr b58dec.word (c, [])).2 =
      wordsNumber outi * 58 + c.toNat := by
  induction outi with
  | nil => simpa [wordsNumber] using hc
  | cons w outi ih =>
      have hlen := length_b58dec_word outi c
      rw [List.foldr_cons]
      generalize outi.foldr b58dec.word (c, []) = acc at ih hlen
      obtain ⟨carry, rest⟩ := acc
      obtain ⟨hcarry, hnumber⟩ := ih
      obtain ⟨c', w', hword, hc', hsum⟩ := b58dec.word_toNat w carry rest hcarry
      rw [hword]
      refine ⟨hc', ?_⟩
      rw [wordsNumber_cons, wordsNumber_cons, hlen, List.length_cons, Nat.pow_succ]
      calc c'.toNat * ((2 ^ 32) ^ outi.length * 2 ^ 32) +
            (w'.toNat * (2 ^ 32) ^ outi.length + wordsNumber rest)
          = (c'.toNat * 2 ^ 32 + w'.toNat) * (2 ^ 32) ^ outi.length + wordsNumber rest := by ring
        _ = w.toNat * 58 * (2 ^ 32) ^ outi.length +
              (carry.toNat * (2 ^ 32) ^ outi.length + wordsNumber rest) := by rw [hsum]; ring
        _ = (w.toNat * (2 ^ 32) ^ outi.length + wordsNumber outi) * 58 + c.toNat := by
              rw [hnumber]
              ring

/-- The upper 24 bits of a word. -/
theorem toNat_and_remmask (w : UInt32) : (w &&& 0xffffff00).toNat = w.toNat / 2 ^ 8 * 2 ^ 8 := by
  have hw := w.toNat_lt
  rw [UInt32.toNat_and, ← Nat.shiftLeft_eq, ← Nat.shiftRight_eq_div_pow,
    show (0xffffff00 : UInt32).toNat = (2 ^ 24 - 1) <<< 8 from rfl]
  apply Nat.eq_of_testBit_eq
  intro i
  rw [Nat.testBit_and, Nat.testBit_shiftLeft, Nat.testBit_shiftLeft, Nat.testBit_two_pow_sub_one,
    Nat.testBit_shiftRight]
  by_cases hi : 8 ≤ i
  · by_cases hj : i - 8 < 24
    · simp [hi, hj]
    · have hhigh : w.toNat.testBit i = false :=
        Nat.testBit_lt_two_pow (Nat.lt_of_lt_of_le hw (Nat.pow_le_pow_right (by decide) (by omega)))
      simp [hi, hj, hhigh]
  · simp [hi]

/-- Where the top word ends for a number below `2 ^ 200`. -/
theorem top_word {outi : List UInt32} (hlen : outi.length = 7) :
    outi.headD 0 &&& 0xffffff00 = 0 ↔ wordsNumber outi < 2 ^ 200 := by
  obtain ⟨w, rest, rfl⟩ := List.exists_cons_of_length_eq_add_one hlen
  have hrest := wordsNumber_lt rest
  rw [List.length_cons] at hlen
  have hsix : rest.length = 6 := by omega
  rw [List.headD_cons, ← UInt32.toNat_inj, toNat_and_remmask, wordsNumber_cons, hsix]
  rw [hsix] at hrest
  have hpow : (2 : Nat) ^ 200 = 2 ^ 8 * (2 ^ 32) ^ 6 := by norm_num
  rw [hpow]
  generalize (2 ^ 32) ^ 6 = unit at hrest
  have hzero : (0 : UInt32).toNat = 0 := rfl
  constructor
  · intro h
    have hsmall : w.toNat + 1 ≤ 2 ^ 8 := by omega
    calc w.toNat * unit + wordsNumber rest < (w.toNat + 1) * unit := by
          rw [Nat.add_mul, Nat.one_mul]
          omega
      _ ≤ 2 ^ 8 * unit := Nat.mul_le_mul_right unit hsmall
  · intro h
    have hsmall : w.toNat < 2 ^ 8 := by
      by_contra hge
      have hle := Nat.mul_le_mul_right unit (Nat.not_lt.mp hge)
      omega
    omega

theorem wordsNumber_inj {v w : List UInt32} (hlen : v.length = w.length)
    (h : wordsNumber v = wordsNumber w) : v = w := by
  have hword : ∀ l : List UInt32, ∀ d ∈ l.map UInt32.toNat, d < 2 ^ 32 := by
    intro l d hd
    obtain ⟨x, -, rfl⟩ := List.mem_map.mp hd
    exact x.toNat_lt
  have hmap := ofNumeral_inj (by decide) (by simpa using hlen) (hword v) (hword w) h
  exact List.map_injective_iff.mpr (fun _ _ => UInt32.toNat_inj.mp) hmap

/-- One digit is taken if the number stays below `2 ^ 200`. -/
theorem b58dec.loop_cons {ch : UInt8} {b58 : Bytes} {outi : List UInt32} {d : Nat}
    (hlen : outi.length = 7) (hd : Base58.value? ch = some d) :
    ∃ next, next.length = 7 ∧ b58dec.loop 0xffffff00 (ch :: b58) outi =
        (if wordsNumber outi * 58 + d < 2 ^ 200 then b58dec.loop 0xffffff00 b58 next else none) ∧
      (wordsNumber outi * 58 + d < 2 ^ 200 → wordsNumber next = wordsNumber outi * 58 + d) := by
  have hdigit := (Base58.char_of_value? hd).1
  have hc : (UInt32.ofNat d).toNat = d := by
    rw [UInt32.toNat_ofNat']
    omega
  obtain ⟨hcarry, hsum⟩ := b58dec.word_foldr outi (c := UInt32.ofNat d) (by omega)
  have hnext := length_b58dec_word outi (UInt32.ofNat d)
  rw [b58dec.loop, show b58digits.idxOf? ch = some d from hd]
  simp only
  generalize outi.foldr b58dec.word (UInt32.ofNat d, []) = acc at hcarry hsum hnext
  obtain ⟨carry, next⟩ := acc
  simp only at hcarry hsum hnext ⊢
  rw [hlen] at hnext hsum
  rw [hc] at hsum
  refine ⟨next, hnext, ?_, ?_⟩
  · by_cases hzero : carry = 0
    · subst hzero
      have hnumber : wordsNumber next = wordsNumber outi * 58 + d := by
        rw [← hsum]
        simp
      rw [← hnumber]
      by_cases htop : next.headD 0 &&& 0xffffff00 = 0
      · rw [if_pos ((top_word hnext).mp htop), if_neg fun h => h.elim (fun h => h rfl) fun h => h htop]
      · rw [if_neg fun h => htop ((top_word hnext).mpr h), if_pos (.inr htop)]
    · have hpos : 1 ≤ carry.toNat := by
        by_contra hlt
        exact hzero (UInt32.toNat_inj.mp (by simpa using hlt))
      have hbig := Nat.mul_le_mul_right ((2 ^ 32) ^ 7) hpos
      have hpow : 2 ^ 200 ≤ 1 * (2 ^ 32) ^ 7 := by norm_num
      rw [if_pos (.inl hzero), if_neg (by omega)]
  · intro hlt
    have hzero : carry.toNat = 0 := by
      by_contra hne
      have hbig := Nat.mul_le_mul_right ((2 ^ 32) ^ 7) (Nat.one_le_iff_ne_zero.mpr hne)
      have hpow : 2 ^ 200 ≤ 1 * (2 ^ 32) ^ 7 := by norm_num
      omega
    rw [← hsum, hzero, Nat.zero_mul, Nat.zero_add]

/-- A string of digits is taken for its number, if this is below `2 ^ 200`. -/
theorem b58dec.loop_iff (b58 : Bytes) : ∀ (outi out : List UInt32), outi.length = 7 →
    wordsNumber outi < 2 ^ 200 →
    (b58dec.loop 0xffffff00 b58 outi = some out ↔
      ∃ ds, b58.map Base58.value? = ds.map some ∧ out.length = 7 ∧ wordsNumber out < 2 ^ 200 ∧
        wordsNumber out = wordsNumber outi * 58 ^ ds.length + ofNumeral 58 ds) := by
  induction b58 with
  | nil =>
      intro outi out hlen hsmall
      constructor
      · intro h
        cases h
        exact ⟨[], rfl, hlen, hsmall, by simp⟩
      · intro h
        obtain ⟨ds, hds, hout, -, hnumber⟩ := h
        obtain rfl : ds = [] := by simpa using hds.symm
        rw [b58dec.loop, wordsNumber_inj (hlen.trans hout.symm) (by simpa using hnumber.symm)]
  | cons ch b58 ih =>
      intro outi out hlen hsmall
      cases hd : Base58.value? ch with
      | none =>
          rw [b58dec.loop, show b58digits.idxOf? ch = none from hd]
          simp only [reduceCtorEq, false_iff, not_exists, not_and]
          intro ds hds
          cases ds <;> simp [hd] at hds
      | some d =>
          obtain ⟨next, hnext, hstep, hnumber⟩ := @b58dec.loop_cons ch b58 outi d hlen hd
          rw [hstep]
          have htail : ∀ ds : List Nat, wordsNumber outi * 58 ^ (d :: ds).length +
              ofNumeral 58 (d :: ds) =
                (wordsNumber outi * 58 + d) * 58 ^ ds.length + ofNumeral 58 ds := by
            intro ds
            rw [ofNumeral_cons, List.length_cons, Nat.pow_succ]
            ring
          constructor
          · intro h
            by_cases hlt : wordsNumber outi * 58 + d < 2 ^ 200
            · rw [if_pos hlt] at h
              have hnext' := hnumber hlt
              rw [← hnext'] at hlt htail
              obtain ⟨ds, hds, hout, hmax, hvalue⟩ := (ih next out hnext hlt).mp h
              exact ⟨d :: ds, by simp [hd, hds], hout, hmax, by rw [hvalue, htail]⟩
            · rw [if_neg hlt] at h
              cases h
          · intro h
            obtain ⟨ds, hds, hout, hmax, hvalue⟩ := h
            cases ds with
            | nil => cases hds
            | cons d' ds =>
                rw [List.map_cons, List.map_cons, hd] at hds
                obtain ⟨hhead, hrest⟩ := List.cons.inj hds
                obtain rfl := Option.some.inj hhead
                rw [htail] at hvalue
                have hgrow := Nat.le_mul_of_pos_right (wordsNumber outi * 58 + d)
                  (Nat.pow_pos (n := ds.length) (show 0 < 58 by decide))
                have hlt : wordsNumber outi * 58 + d < 2 ^ 200 := by omega
                rw [if_pos hlt]
                have hnext' := hnumber hlt
                rw [← hnext'] at hlt hvalue
                exact (ih next out hnext hlt).mpr ⟨ds, hrest, hout, hmax, hvalue⟩

theorem exists_wordsNumber {k n : Nat} (hn : n < (2 ^ 32) ^ k) :
    ∃ outi : List UInt32, outi.length = k ∧ wordsNumber outi = n := by
  refine ⟨(numeral (2 ^ 32) k n).map UInt32.ofNat, ?_, ?_⟩
  · rw [List.length_map, length_numeral (by decide) hn]
  · rw [wordsNumber, List.map_map, List.map_congr_left (g := id), List.map_id, ofNumeral_numeral]
    intro d hd
    exact UInt32.toNat_ofNat_of_lt' (lt_of_mem_numeral (by decide) hd)

/-- The bytes of the words, with the three in front that are zero left out. -/
theorem bytesNumber_drop {outi : List UInt32} (hlen : outi.length = 7)
    (hsmall : wordsNumber outi < 2 ^ 200) :
    ((outi.flatMap be32enc).drop 3).length = 25 ∧
      bytesNumber ((outi.flatMap be32enc).drop 3) = wordsNumber outi := by
  have hall : (outi.flatMap be32enc).length = 28 := by
    rw [length_flatMap_const length_be32enc, hlen]
  have hrest : ((outi.flatMap be32enc).drop 3).length = 25 := by
    rw [List.length_drop, hall]
  refine ⟨hrest, ?_⟩
  have hsplit : wordsNumber outi = bytesNumber ((outi.flatMap be32enc).take 3) * 256 ^ 25 +
      bytesNumber ((outi.flatMap be32enc).drop 3) := by
    rw [← hrest, ← bytesNumber_append, List.take_append_drop, bytesNumber_flatMap_be32enc,
      wordsNumber]
  have hpow : (2 : Nat) ^ 200 = 256 ^ 25 := by norm_num
  rw [hpow] at hsmall
  have hzero : bytesNumber ((outi.flatMap be32enc).take 3) = 0 := by
    by_contra hne
    have hbig := Nat.mul_le_mul_right (256 ^ 25) (Nat.one_le_iff_ne_zero.mpr hne)
    omega
  rw [hsplit, hzero, Nat.zero_mul, Nat.zero_add]

/-- What `b58dec` makes of an address is the number in 25 bytes. -/
theorem b58dec_iff (addr bin : Bytes) :
    b58dec 25 addr = some bin ↔
      ∃ ds, addr.map Base58.value? = ds.map some ∧ ofNumeral 58 ds < 2 ^ 200 ∧
        bin.length = 25 ∧ bytesNumber bin = ofNumeral 58 ds := by
  have hstart : wordsNumber (List.replicate 7 0) = 0 := by decide
  have hloop : ∀ out, b58dec.loop 0xffffff00 addr (List.replicate 7 0) = some out ↔
      ∃ ds, addr.map Base58.value? = ds.map some ∧ out.length = 7 ∧ wordsNumber out < 2 ^ 200 ∧
        wordsNumber out = ofNumeral 58 ds := by
    intro out
    rw [b58dec.loop_iff addr _ out rfl (by rw [hstart]; norm_num), hstart]
    simp only [Nat.zero_mul, Nat.zero_add]
  have hdec : b58dec 25 addr = (b58dec.loop 0xffffff00 addr (List.replicate 7 0)).map
      fun outi => (outi.flatMap be32enc).drop 3 := by
    have hmask : (0xffffffff : UInt32) <<< (8 * UInt32.ofNat (25 % 4)) = 0xffffff00 := rfl
    rw [b58dec]
    simp only [hmask, Nat.reduceAdd, Nat.reduceDiv]
    cases b58dec.loop 0xffffff00 addr (List.replicate 7 0) <;> rfl
  rw [hdec, Option.map_eq_some_iff]
  constructor
  · intro h
    obtain ⟨outi, hsome, rfl⟩ := h
    obtain ⟨ds, hds, hlen, hsmall, hnumber⟩ := (hloop outi).mp hsome
    obtain ⟨hbytes, hvalue⟩ := bytesNumber_drop hlen hsmall
    exact ⟨ds, hds, hnumber ▸ hsmall, hbytes, hvalue.trans hnumber⟩
  · intro h
    obtain ⟨ds, hds, hsmall, hlen, hnumber⟩ := h
    obtain ⟨outi, houti, hwords⟩ := exists_wordsNumber (k := 7) (n := ofNumeral 58 ds)
      (Nat.lt_trans hsmall (by norm_num))
    obtain ⟨hbytes, hvalue⟩ := bytesNumber_drop houti (hwords ▸ hsmall)
    refine ⟨outi, (hloop outi).mpr ⟨ds, hds, houti, hwords ▸ hsmall, hwords⟩, ?_⟩
    exact bytesNumber_inj (hbytes.trans hlen.symm) (by rw [hvalue, hwords, hnumber])

/-- The value of the words after a character is the value before it times 58, and the
digit, with nothing lost above: `b58dec` is the number of the string in 25 bytes,
for the numbers that fit. -/
theorem b58dec_exact (b58 : Bytes) :
    (b58dec 25 b58 = (Base58.number? b58).bind fun v =>
      if v < 2 ^ 200 then some (bigEndian 25 v) else none) ∧
    ∀ outi : List UInt32, outi.length = 7 → ∀ digit < 58,
      let (c, next) := outi.foldr b58dec.word (.ofNat digit, [])
      c.toNat * 2 ^ 224 + wordsNumber next = wordsNumber outi * 58 + digit := by
  constructor
  · refine Option.ext fun bin => ?_
    rw [b58dec_iff, Option.bind_eq_some_iff]
    have hpow : (2 : Nat) ^ 200 = 256 ^ 25 := by norm_num
    constructor
    · rintro ⟨ds, hds, hsmall, hlen, hnumber⟩
      refine ⟨ofNumeral 58 ds, Base58.number?_iff.mpr ⟨ds, hds, rfl⟩, ?_⟩
      rw [if_pos hsmall, (eq_bigEndian_iff (hpow ▸ hsmall)).mpr ⟨hlen, hnumber⟩]
    · rintro ⟨v, hv, hbin⟩
      obtain ⟨ds, hds, rfl⟩ := Base58.number?_iff.mp hv
      by_cases hsmall : ofNumeral 58 ds < 2 ^ 200
      · rw [if_pos hsmall] at hbin
        obtain ⟨hlen, hnumber⟩ := (eq_bigEndian_iff (hpow ▸ hsmall)).mp (Option.some.inj hbin).symm
        exact ⟨ds, hds, hsmall, hlen, hnumber⟩
      · rw [if_neg hsmall] at hbin
        cases hbin
  · intro outi hlen digit hdigit
    have hc : (UInt32.ofNat digit).toNat = digit := by
      rw [UInt32.toNat_ofNat']
      omega
    obtain ⟨-, hsum⟩ := b58dec.word_foldr outi (c := UInt32.ofNat digit) (by omega)
    rwa [hlen, hc, ← Nat.pow_mul] at hsum

/-- The number 58 in 25 bytes, and a carry out of the top word. -/
theorem b58dec_exact_sample :
    (b58dec 25 (ascii "21") = some (.replicate 24 0 ++ [58]) ∧
      b58dec 25 (ascii "0") = none) ∧
    wordsNumber (.replicate 7 0xffffffff) * 58 + 57 =
      57 * 2 ^ 224 + wordsNumber (.replicate 7 0xffffffff) := by
  refine ⟨⟨?_, ?_⟩, ?_⟩
  · rw [(b58dec_exact (ascii "21")).1]
    decide +kernel
  · rw [(b58dec_exact (ascii "0")).1]
    decide +kernel
  · exact ((b58dec_exact []).2 (.replicate 7 0xffffffff) rfl 57 (by decide)).symm

/-! ## The zeros in front -/

/-- A character that is not a digit zero is not a one. -/
theorem value_eq_zero {ch : UInt8} {d : Nat} (h : Base58.value? ch = some d) : ch = 49 ↔ d = 0 := by
  constructor
  · intro hch
    rw [hch] at h
    exact (Option.some.inj h).symm
  · intro hd
    rw [← (Base58.char_of_value? h).2, hd]
    rfl

/-- With a byte to stop at, the zero bytes and the ones are counted and compared. -/
theorem b58check.zeros_eq {bin : Bytes} (hbin : ∃ b ∈ bin, b ≠ 0) : ∀ {addr : Bytes}
    {ds : List Nat}, addr.map Base58.value? = ds.map some →
    b58check.zeros bin addr =
      some (decide (Lib.zeros (bin.map UInt8.toNat) = Lib.zeros ds)) := by
  induction bin with
  | nil => simp at hbin
  | cons b bin ih =>
      intro addr ds hds
      have hb : b.toNat = 0 ↔ b = 0 := by
        rw [← UInt8.toNat_inj]
        rfl
      cases addr with
      | nil =>
          obtain rfl : ds = [] := by simpa using hds.symm
          rw [b58check.zeros]
          by_cases hzero : b = 0
          · simp [hzero]
          · rw [List.map_cons, zeros_cons_of_ne (by rwa [Ne, hb])]
            simp [hzero]
      | cons ch addr =>
          cases ds with
          | nil => cases hds
          | cons d ds =>
              obtain ⟨hhead, hrest⟩ := List.cons.inj hds
              have hch := value_eq_zero hhead
              rw [b58check.zeros]
              by_cases hone : ch = 49
              · obtain rfl := hch.mp hone
                by_cases hzero : b = 0
                · have htail : ∃ b ∈ bin, b ≠ 0 := by
                    obtain ⟨c, hc, hne⟩ := hbin
                    rw [List.mem_cons] at hc
                    exact ⟨c, hc.resolve_left fun h => hne (h.trans hzero), hne⟩
                  rw [if_pos ⟨hzero, hone⟩, ih htail hrest]
                  simp [hzero]
                · rw [if_neg fun h => hzero h.1, List.map_cons,
                    zeros_cons_of_ne (by rwa [Ne, hb])]
                  simp [hone]
              · have hd : d ≠ 0 := fun h => hone (hch.mpr h)
                rw [if_neg fun h => hone h.2, zeros_cons_of_ne hd]
                by_cases hzero : b = 0
                · simp [hzero]
                · rw [List.map_cons, zeros_cons_of_ne (by rwa [Ne, hb])]
                  simp [hzero, hone]

/-- Under a checksum that the number zero does not have, an address passes if it is
the encoding of what it was decoded to. -/
theorem b58check_eq {sha256d : Bytes → Hash} {addr bin : Bytes}
    (hzero : (sha256d (List.replicate 21 0)).toList.take 4 ≠ List.replicate 4 0)
    (hdec : b58dec 25 addr = some bin) :
    b58check sha256d bin addr =
      if bin.drop 21 = (sha256d (bin.take 21)).toList.take 4 then
        some (if addr = Base58.encode bin then ((bin.headD 0).toNat : Int) else -3)
      else some (-1) := by
  obtain ⟨ds, hds, -, hlen, hnumber⟩ := (b58dec_iff addr bin).mp hdec
  rw [b58check, hlen]
  by_cases hsum : bin.drop 21 = (sha256d (bin.take 21)).toList.take 4
  · have hbyte : ∃ b ∈ bin, b ≠ 0 := by
      by_contra hno
      have hall : bin = List.replicate 25 0 :=
        List.eq_replicate_iff.mpr ⟨hlen, fun b hb => by_contra fun hne => hno ⟨b, hb, hne⟩⟩
      rw [hall] at hsum
      exact hzero hsum.symm
    rw [if_neg (by simpa using hsum), if_pos hsum, b58check.zeros_eq hbyte hds]
    by_cases hcanon : addr = Base58.encode bin
    · rw [decide_eq_true ((Base58.eq_encode_iff hds hnumber).mp hcanon), if_pos hcanon]
    · rw [decide_eq_false fun h => hcanon ((Base58.eq_encode_iff hds hnumber).mpr h),
        if_neg hcanon]
  · rw [if_pos (by simpa using hsum), if_neg hsum]

/-! ## The script -/

/-- What pays to a hash under an address version. -/
def hashScript (version : UInt8) (hash : Bytes) : Bytes :=
  if version = 5 ∨ version = 196 then [0xa9, 0x14] ++ hash ++ [0x87]
  else [0x76, 0xa9, 0x14] ++ hash ++ [0x88, 0xac]

/-- An encoding is decoded to what was encoded. -/
theorem b58dec_encode {payload : Bytes} (hlen : payload.length = 25) :
    b58dec 25 (Base58.encode payload) = some payload := by
  obtain ⟨ds, hds, hnumber⟩ := Base58.exists_values_encode payload
  have hsmall := bytesNumber_lt payload
  rw [hlen] at hsmall
  exact (b58dec_iff _ _).mpr ⟨ds, hds, hnumber ▸ hsmall, hlen, hnumber.symm⟩

theorem addressToScript_hash {sha256d : Bytes → Hash} {out addr bin : Bytes}
    (hdec : b58dec 25 addr = some bin)
    (hcheck : b58check sha256d bin addr = some ((bin.headD 0).toNat : Int))
    (hout : 25 ≤ out.length) :
    addressToScript sha256d out addr =
      some ((hashScript (bin.headD 0) (slice bin 1 20)).length,
        store out 0 (hashScript (bin.headD 0) (slice bin 1 20))) := by
  have hhash : (slice bin 1 20).length = 20 := length_slice (by rw [length_b58dec hdec]; decide)
  have hversion : ((bin.headD 0).toNat : Int) = 5 ∨ ((bin.headD 0).toNat : Int) = 196 ↔
      bin.headD 0 = 5 ∨ bin.headD 0 = 196 := by
    rw [← UInt8.toNat_inj, ← UInt8.toNat_inj]
    simp
    omega
  rw [addressToScript, hdec]
  simp only [hcheck]
  rw [if_neg (by omega), hashScript]
  by_cases hkind : bin.headD 0 = 5 ∨ bin.headD 0 = 196
  · rw [if_pos (hversion.mpr hkind), if_neg (by omega), if_pos hkind,
      store_scriptHash hhash (by omega)]
    simp [hhash]
  · rw [if_neg fun h => hkind (hversion.mp h), if_neg (by omega), if_neg hkind,
      store_pubkeyHash hhash hout]
    simp [hhash]

/-- An address that `b58dec` takes has a script if it is the encoding of a version
and a hash with their checksum, and then it is theirs. -/
theorem addressToScript_base58 {sha256d : Bytes → Hash} {out addr bin : Bytes}
    (hzero : (sha256d (List.replicate 21 0)).toList.take 4 ≠ List.replicate 4 0)
    (hdec : b58dec 25 addr = some bin) (hout : 25 ≤ out.length) :
    ∃ size out', addressToScript sha256d out addr = some (size, out') ∧
      (size ≠ 0 ↔ ∃ version hash, hash.length = 20 ∧
        addr = Base58.encode (Base58.checked (fun m => (sha256d m).toList) version hash)) ∧
      ∀ version hash, hash.length = 20 →
        addr = Base58.encode (Base58.checked (fun m => (sha256d m).toList) version hash) →
        size = (hashScript version hash).length ∧ out' = store out 0 (hashScript version hash) := by
  have hlen := length_b58dec hdec
  have hcheck := b58check_eq hzero hdec
  -- an encoding passes both tests, with its own version and hash
  have hcanon : ∀ version hash, hash.length = 20 →
      addr = Base58.encode (Base58.checked (fun m => (sha256d m).toList) version hash) →
      bin.drop 21 = (sha256d (bin.take 21)).toList.take 4 ∧ addr = Base58.encode bin ∧
        bin.headD 0 = version ∧ slice bin 1 20 = hash := by
    intro version hash hhash haddr
    have hpayload : (Base58.checked (fun m => (sha256d m).toList) version hash).length = 25 := by
      simp [Base58.checked, hhash]
    rw [haddr, b58dec_encode hpayload] at hdec
    obtain rfl := Option.some.inj hdec
    obtain ⟨htake, hdrop⟩ := Base58.take_drop_checked (fun m => (sha256d m).toList) version hhash
    exact ⟨by rw [hdrop, htake], haddr, rfl, Base58.slice_checked _ version hhash⟩
  by_cases hpass : bin.drop 21 = (sha256d (bin.take 21)).toList.take 4 ∧ addr = Base58.encode bin
  · obtain ⟨hsum, haddr⟩ := hpass
    rw [if_pos hsum, if_pos haddr] at hcheck
    refine ⟨_, _, addressToScript_hash hdec hcheck hout, ⟨fun _ => ?_, fun _ => ?_⟩, ?_⟩
    · refine ⟨bin.headD 0, slice bin 1 20, length_slice (by omega), ?_⟩
      rw [← Base58.eq_checked hlen hsum]
      exact haddr
    · unfold hashScript
      split <;> simp
    · intro version hash hhash haddr'
      obtain ⟨-, -, rfl, rfl⟩ := hcanon version hash hhash haddr'
      exact ⟨rfl, rfl⟩
  · have hfail : addressToScript sha256d out addr = some (0, out) := by
      rw [addressToScript, hdec]
      by_cases hsum : bin.drop 21 = (sha256d (bin.take 21)).toList.take 4
      · rw [if_pos hsum, if_neg fun h => hpass ⟨hsum, h⟩] at hcheck
        simp only [hcheck]
        rfl
      · rw [if_neg hsum] at hcheck
        simp only [hcheck]
        rfl
    refine ⟨0, out, hfail, ⟨fun h => absurd rfl h, fun h => ?_⟩, ?_⟩
    · obtain ⟨version, hash, hhash, haddr⟩ := h
      obtain ⟨hsum, haddr', -⟩ := hcanon version hash hhash haddr
      exact absurd ⟨hsum, haddr'⟩ hpass
    · intro version hash hhash haddr
      obtain ⟨hsum, haddr', -⟩ := hcanon version hash hhash haddr
      exact absurd ⟨hsum, haddr'⟩ hpass

theorem addressToScript_base58_sample :
    ∃ out', addressToScript (fun _ => .replicate 32 1) (List.replicate 25 0)
      (Base58.encode (Base58.checked (fun _ => List.replicate 32 1) 5 (List.replicate 20 7))) =
        some (23, out') := by
  obtain ⟨size, out', hsome, -, hscript⟩ :=
    @addressToScript_base58 (fun _ => .replicate 32 1) (List.replicate 25 0) _ _ (by decide)
      (@b58dec_encode (Base58.checked (fun _ => List.replicate 32 1) 5 (List.replicate 20 7))
        (by decide)) (by decide)
  obtain ⟨rfl, -⟩ := hscript 5 (List.replicate 20 7) (by decide) rfl
  exact ⟨out', hsome⟩

end AlphaMiner
