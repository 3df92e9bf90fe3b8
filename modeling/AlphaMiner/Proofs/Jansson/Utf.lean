import AlphaMiner.Model.Jansson.Utf
import AlphaMiner.Lib.JsonText

/-!
# The UTF-8 functions are UTF-8

`utf8_check_first` and `utf8_check_full` together accept a sequence exactly if it is
the one that the core library's encoder gives for some character
(`utf8Iterate_encode`, `encode_of_checkFull`). So no longer form, no half of a pair and
nothing above the last plane is let through, and what `utf8_check_string` accepts is
a sequence of characters.
-/

namespace AlphaMiner.Jansson

open Lib Lib.JsonText

/-! ## The first byte -/

theorem utf8CheckFirst_eq (c : UInt8) :
    utf8CheckFirst c =
      if c.toNat < 0x80 then 1 else if c.toNat < 0xC2 then 0 else if c.toNat < 0xE0 then 2
        else if c.toNat < 0xF0 then 3 else if c.toNat < 0xF5 then 4 else 0 := by
  have hc := c.toNat_lt
  simp only [utf8CheckFirst, UInt8.lt_iff_toNat_lt, UInt8.le_iff_toNat_le, ← UInt8.toNat_inj,
    UInt8.reduceToNat]
  split_ifs <;> omega

/-! ## Continuation bytes -/

def isContinuation (u : UInt8) : Prop := 0x80 ≤ u.toNat ∧ u.toNat ≤ 0xBF

theorem loop_succ (buffer : Bytes) (left i value v : Nat) :
    utf8CheckFull.loop buffer (left + 1) i value = some v ↔
      isContinuation (buffer.getD i 0) ∧
        utf8CheckFull.loop buffer left (i + 1) (value * 64 + (buffer.getD i 0).toNat % 64) =
          some v := by
  have hmask : ((buffer.getD i 0) &&& 0x3F).toNat = (buffer.getD i 0).toNat % 64 := by
    rw [UInt8.toNat_and]
    exact Nat.and_two_pow_sub_one_eq_mod _ 6
  have hshift : value <<< 6 = value * 64 := Nat.shiftLeft_eq value 6
  rw [utf8CheckFull.loop]
  simp only [hmask, hshift]
  by_cases hcont : isContinuation (buffer.getD i 0)
  · rw [if_neg]
    · exact ⟨fun h => ⟨hcont, h⟩, fun h => h.2⟩
    · have h := hcont
      simp only [isContinuation] at h
      simp only [UInt8.lt_iff_toNat_lt, UInt8.reduceToNat]
      omega
  · rw [if_pos]
    · exact ⟨nofun, fun h => absurd h.1 hcont⟩
    · have h := hcont
      simp only [isContinuation] at h
      simp only [UInt8.lt_iff_toNat_lt, UInt8.reduceToNat]
      omega

theorem loop_zero (buffer : Bytes) (i value v : Nat) :
    utf8CheckFull.loop buffer 0 i value = some v ↔ value = v := by
  rw [utf8CheckFull.loop, Option.some.injEq]

/-- The terminator is no continuation byte. -/
theorem not_isContinuation_zero : ¬isContinuation 0 := fun h => absurd h.1 (by decide)

theorem toNat_and_mask (u : UInt8) :
    (u &&& 0x1F).toNat = u.toNat % 32 ∧ (u &&& 0xF).toNat = u.toNat % 16 ∧
      (u &&& 0x7).toNat = u.toNat % 8 := by
  refine ⟨?_, ?_, ?_⟩
  · rw [UInt8.toNat_and]
    exact Nat.and_two_pow_sub_one_eq_mod _ 5
  · rw [UInt8.toNat_and]
    exact Nat.and_two_pow_sub_one_eq_mod _ 4
  · rw [UInt8.toNat_and]
    exact Nat.and_two_pow_sub_one_eq_mod _ 3

/-- The test on a code point that has been put together. -/
def inForm (size value : Nat) : Prop :=
  value ≤ 0x10FFFF ∧ ¬(0xD800 ≤ value ∧ value ≤ 0xDFFF) ∧
    (size = 2 → 0x80 ≤ value) ∧ (size = 3 → 0x800 ≤ value) ∧ (size = 4 → 0x10000 ≤ value)

theorem utf8CheckFull_iff {s : Bytes} {size first v : Nat}
    (hfirst : (if size = 2 then some ((s.getD 0 0) &&& 0x1F).toNat
      else if size = 3 then some ((s.getD 0 0) &&& 0xF).toNat
      else if size = 4 then some ((s.getD 0 0) &&& 0x7).toNat else none) = some first) :
    utf8CheckFull s size = some v ↔
      utf8CheckFull.loop s (size - 1) 1 first = some v ∧ inForm size v := by
  rw [utf8CheckFull]
  simp only [hfirst, Option.bind_some]
  cases utf8CheckFull.loop s (size - 1) 1 first with
  | none => simp
  | some value =>
      simp only [inForm, Option.some.injEq]
      split_ifs with h1 h2 h3
      · constructor
        · nofun
        · rintro ⟨rfl, h, -⟩
          omega
      · constructor
        · nofun
        · rintro ⟨rfl, -, h, -⟩
          exact absurd h2 h
      · constructor
        · nofun
        · rintro ⟨rfl, -, -, h⟩
          omega
      · constructor
        · intro h
          obtain rfl := Option.some.inj h
          exact ⟨rfl, by omega, h2, by omega, by omega, by omega⟩
        · rintro ⟨rfl, -⟩
          rfl

/-! ## Characters -/

theorem checkFull_two {a b : UInt8} {rest : Bytes} {v : Nat} :
    utf8CheckFull (a :: b :: rest) 2 = some v ↔ isContinuation b ∧
      v = a.toNat % 32 * 64 + b.toNat % 64 ∧ inForm 2 v := by
  rw [utf8CheckFull_iff (by rw [if_pos rfl]), loop_succ, loop_zero, (toNat_and_mask _).1, and_assoc]
  exact and_congr_right fun _ => and_congr_left fun _ => eq_comm

theorem checkFull_three {a b c : UInt8} {rest : Bytes} {v : Nat} :
    utf8CheckFull (a :: b :: c :: rest) 3 = some v ↔ isContinuation b ∧ isContinuation c ∧
      v = (a.toNat % 16 * 64 + b.toNat % 64) * 64 + c.toNat % 64 ∧ inForm 3 v := by
  rw [utf8CheckFull_iff (by rw [if_neg (by decide), if_pos rfl]), loop_succ, loop_succ, loop_zero,
    (toNat_and_mask _).2.1, and_assoc, and_assoc]
  exact and_congr_right fun _ => and_congr_right fun _ => and_congr_left fun _ => eq_comm

theorem checkFull_four {a b c d : UInt8} {rest : Bytes} {v : Nat} :
    utf8CheckFull (a :: b :: c :: d :: rest) 4 = some v ↔
      isContinuation b ∧ isContinuation c ∧ isContinuation d ∧
      v = ((a.toNat % 8 * 64 + b.toNat % 64) * 64 + c.toNat % 64) * 64 + d.toNat % 64 ∧
      inForm 4 v := by
  rw [utf8CheckFull_iff (by rw [if_neg (by decide), if_neg (by decide), if_pos rfl]), loop_succ,
    loop_succ, loop_succ, loop_zero, (toNat_and_mask _).2.2, and_assoc, and_assoc, and_assoc]
  exact and_congr_right fun _ => and_congr_right fun _ => and_congr_right fun _ =>
    and_congr_left fun _ => eq_comm

/-- A sequence does not go on behind the terminator. -/
theorem length_of_checkFull {s : Bytes} {size v : Nat} (hsize : 2 ≤ size)
    (h : utf8CheckFull s size = some v) : size ≤ s.length := by
  have hloop : ∀ left i value w, utf8CheckFull.loop s left i value = some w →
      left = 0 ∨ i + left ≤ s.length := by
    intro left
    induction left with
    | zero => exact fun _ _ _ _ => .inl rfl
    | succ left ih =>
        intro i value w hv
        obtain ⟨hcont, hrest⟩ := (loop_succ ..).mp hv
        have hi : i < s.length := by
          by_contra hi
          rw [List.getD_eq_getElem?_getD, List.getElem?_eq_none (Nat.not_lt.mp hi)] at hcont
          exact not_isContinuation_zero hcont
        rcases ih _ _ _ hrest with rfl | hle
        · exact .inr hi
        · exact .inr (by omega)
  rw [utf8CheckFull] at h
  split at h
  · cases h
  · next value hv =>
      obtain ⟨first, -, hv⟩ := Option.bind_eq_some_iff.mp hv
      rcases hloop _ _ _ _ hv with hzero | hle
      · omega
      · omega

/-- The bytes of a character and its code point. -/
theorem utf8EncodeChar_cases_toNat (k : Char) :
    (k.toNat < 0x80 ∧ String.utf8EncodeChar k = [UInt8.ofNat k.toNat]) ∨
    (0x80 ≤ k.toNat ∧ k.toNat < 0x800 ∧ String.utf8EncodeChar k =
      [UInt8.ofNat (k.toNat / 64 % 32 + 192), UInt8.ofNat (k.toNat % 64 + 128)]) ∨
    (0x800 ≤ k.toNat ∧ k.toNat < 0x10000 ∧ ¬(0xD800 ≤ k.toNat ∧ k.toNat ≤ 0xDFFF) ∧
      String.utf8EncodeChar k =
        [UInt8.ofNat (k.toNat / 4096 % 16 + 224), UInt8.ofNat (k.toNat / 64 % 64 + 128),
          UInt8.ofNat (k.toNat % 64 + 128)]) ∨
    (0x10000 ≤ k.toNat ∧ k.toNat ≤ 0x10FFFF ∧ String.utf8EncodeChar k =
        [UInt8.ofNat (k.toNat / 262144 % 8 + 240), UInt8.ofNat (k.toNat / 4096 % 64 + 128),
          UInt8.ofNat (k.toNat / 64 % 64 + 128), UInt8.ofNat (k.toNat % 64 + 128)]) := by
  have hvalid : k.toNat < 55296 ∨ 57343 < k.toNat ∧ k.toNat < 1114112 := k.valid
  have hdef : String.utf8EncodeChar k = if k.toNat ≤ 127 then [UInt8.ofNat k.toNat]
      else if k.toNat ≤ 2047 then
        [UInt8.ofNat (k.toNat / 64 % 32 + 192), UInt8.ofNat (k.toNat % 64 + 128)]
      else if k.toNat ≤ 65535 then
        [UInt8.ofNat (k.toNat / 4096 % 16 + 224), UInt8.ofNat (k.toNat / 64 % 64 + 128),
          UInt8.ofNat (k.toNat % 64 + 128)]
      else [UInt8.ofNat (k.toNat / 262144 % 8 + 240), UInt8.ofNat (k.toNat / 4096 % 64 + 128),
        UInt8.ofNat (k.toNat / 64 % 64 + 128), UInt8.ofNat (k.toNat % 64 + 128)] := rfl
  rw [hdef]
  split_ifs with h1 h2 h3
  · exact .inl ⟨by omega, rfl⟩
  · exact .inr (.inl ⟨by omega, by omega, rfl⟩)
  · exact .inr (.inr (.inl ⟨by omega, by omega, by omega, rfl⟩))
  · exact .inr (.inr (.inr ⟨by omega, by omega, rfl⟩))

theorem toNat_ofNat_of_lt {n : Nat} (h : n < 256) : (UInt8.ofNat n).toNat = n :=
  UInt8.toNat_ofNat_of_lt' h

/-- The first byte announces its character, and the others complete it. -/
theorem checkFirst_encode (k : Char) : ∃ c s, String.utf8EncodeChar k = c :: s ∧
    utf8CheckFirst c = s.length + 1 ∧
    ((c.toNat = k.toNat ∧ c.toNat < 0x80 ∧ s = []) ∨ (0x80 ≤ c.toNat ∧ 2 ≤ utf8CheckFirst c ∧
      ∀ rest, utf8CheckFull (c :: (s ++ rest)) (utf8CheckFirst c) = some k.toNat)) := by
  rcases utf8EncodeChar_cases_toNat k with ⟨hv, hk⟩ | ⟨hmin, hmax, hk⟩ | ⟨hmin, hmax, hs, hk⟩ |
    ⟨hmin, hmax, hk⟩
  · have hbyte := toNat_ofNat_of_lt (show k.toNat < 256 by omega)
    refine ⟨_, _, hk, ?_, .inl ⟨hbyte, Nat.lt_of_le_of_lt (Nat.le_of_eq hbyte) hv, rfl⟩⟩
    rw [utf8CheckFirst_eq, hbyte, if_pos hv]
    rfl
  · have ha := toNat_ofNat_of_lt (show k.toNat / 64 % 32 + 192 < 256 by omega)
    have hb := toNat_ofNat_of_lt (show k.toNat % 64 + 128 < 256 by omega)
    have hfirst : utf8CheckFirst (UInt8.ofNat (k.toNat / 64 % 32 + 192)) = 2 := by
      rw [utf8CheckFirst_eq, ha]
      split_ifs <;> omega
    refine ⟨_, _, hk, hfirst, .inr ⟨by omega, Nat.le_of_eq hfirst.symm, fun rest => ?_⟩⟩
    rw [hfirst]
    exact (@checkFull_two _ _ rest k.toNat).mpr ⟨by rw [isContinuation, hb]; omega,
      by rw [ha, hb]; omega, by omega, by omega, by omega⟩
  · have ha := toNat_ofNat_of_lt (show k.toNat / 4096 % 16 + 224 < 256 by omega)
    have hb := toNat_ofNat_of_lt (show k.toNat / 64 % 64 + 128 < 256 by omega)
    have hc := toNat_ofNat_of_lt (show k.toNat % 64 + 128 < 256 by omega)
    have hfirst : utf8CheckFirst (UInt8.ofNat (k.toNat / 4096 % 16 + 224)) = 3 := by
      rw [utf8CheckFirst_eq, ha]
      split_ifs <;> omega
    refine ⟨_, _, hk, hfirst, .inr ⟨by omega, by omega, fun rest => ?_⟩⟩
    rw [hfirst]
    exact (@checkFull_three _ _ _ rest k.toNat).mpr ⟨by rw [isContinuation, hb]; omega,
      by rw [isContinuation, hc]; omega, by rw [ha, hb, hc]; omega, by omega, by omega, by omega⟩
  · have ha := toNat_ofNat_of_lt (show k.toNat / 262144 % 8 + 240 < 256 by omega)
    have hb := toNat_ofNat_of_lt (show k.toNat / 4096 % 64 + 128 < 256 by omega)
    have hc := toNat_ofNat_of_lt (show k.toNat / 64 % 64 + 128 < 256 by omega)
    have hd := toNat_ofNat_of_lt (show k.toNat % 64 + 128 < 256 by omega)
    have hfirst : utf8CheckFirst (UInt8.ofNat (k.toNat / 262144 % 8 + 240)) = 4 := by
      rw [utf8CheckFirst_eq, ha]
      split_ifs <;> omega
    refine ⟨_, _, hk, hfirst, .inr ⟨by omega, by omega, fun rest => ?_⟩⟩
    rw [hfirst]
    exact (@checkFull_four _ _ _ _ rest k.toNat).mpr ⟨by rw [isContinuation, hb]; omega,
      by rw [isContinuation, hc]; omega, by rw [isContinuation, hd]; omega,
      by rw [ha, hb, hc, hd]; omega, by omega, by omega, by omega⟩

/-- A character is read as itself, and the zero character as the end. -/
theorem utf8Iterate_encode {k : Char} (hk : k.toNat ≠ 0) (rest : Bytes) :
    utf8Iterate (String.utf8EncodeChar k ++ rest) =
      some ((String.utf8EncodeChar k).length, some k.toNat) := by
  obtain ⟨c, s, henc, hcount, ⟨hvalue, -, rfl⟩ | ⟨hhigh, hlong, hfull⟩⟩ := checkFirst_encode k
  · have hzero : c ≠ 0 := by
      rintro rfl
      exact hk hvalue.symm
    have hone : utf8CheckFirst c = 1 := hcount
    rw [henc, List.cons_append, utf8Iterate]
    simp only [List.headD_cons, if_neg hzero, hone, hvalue]
    rfl
  · have hzero : c ≠ 0 := by
      rintro rfl
      exact absurd hhigh (by decide)
    rw [henc, List.cons_append, utf8Iterate, List.headD_cons, if_neg hzero]
    dsimp only
    rw [if_neg (by omega), if_neg (by omega), hfull, Option.map_some, hcount, List.length_cons]

theorem exists_char {v : Nat} (hmax : v ≤ 0x10FFFF) (hs : ¬(0xD800 ≤ v ∧ v ≤ 0xDFFF)) :
    ∃ k : Char, k.toNat = v := by
  have hlt : v < UInt32.size := by
    have hsize : UInt32.size = 4294967296 := rfl
    omega
  refine ⟨⟨.ofNatLT v hlt, ?_⟩, UInt32.toNat_ofNatLT⟩
  rw [UInt32.isValidChar, UInt32.toNat_ofNatLT]
  simp only [Nat.isValidChar]
  omega

theorem eq_ofNat {a : UInt8} {n : Nat} (h : a.toNat = n) : a = UInt8.ofNat n :=
  h ▸ (UInt8.ofNat_toNat).symm

theorem utf8CheckFirst_cases (a : UInt8) :
    (a.toNat < 0x80 ∧ utf8CheckFirst a = 1) ∨ utf8CheckFirst a = 0 ∨
    (0xC2 ≤ a.toNat ∧ a.toNat < 0xE0 ∧ utf8CheckFirst a = 2) ∨
    (0xE0 ≤ a.toNat ∧ a.toNat < 0xF0 ∧ utf8CheckFirst a = 3) ∨
    (0xF0 ≤ a.toNat ∧ a.toNat < 0xF5 ∧ utf8CheckFirst a = 4) := by
  rw [utf8CheckFirst_eq]
  split_ifs <;> omega

/-- And nothing else is read as one. -/
theorem encode_of_checkFull {a : UInt8} {s : Bytes} {v : Nat} (hfirst : 2 ≤ utf8CheckFirst a)
    (h : utf8CheckFull (a :: s) (utf8CheckFirst a) = some v) :
    ∃ k rest, a :: s = String.utf8EncodeChar k ++ rest ∧
      utf8CheckFirst a = (String.utf8EncodeChar k).length ∧ v = k.toNat := by
  have hlen := length_of_checkFull hfirst h
  rcases utf8CheckFirst_cases a with ⟨-, hc⟩ | hc | ⟨hmin, hmax, hc⟩ | ⟨hmin, hmax, hc⟩ |
    ⟨hmin, hmax, hc⟩
  · omega
  · omega
  · rw [hc] at h hlen ⊢
    match s, hlen with
    | b :: s, _ =>
        obtain ⟨hb, hv, hform⟩ := checkFull_two.mp h
        obtain ⟨k, rfl⟩ := exists_char hform.1 hform.2.1
        have hmin := hform.2.2.1 rfl
        simp only [isContinuation] at hb
        rcases utf8EncodeChar_cases_toNat k with hk | ⟨-, -, hk⟩ | hk | hk
        · omega
        · refine ⟨k, s, ?_, by rw [hk]; rfl, rfl⟩
          rw [hk, eq_ofNat (show a.toNat = k.toNat / 64 % 32 + 192 by omega),
            eq_ofNat (show b.toNat = k.toNat % 64 + 128 by omega)]
          rfl
        · omega
        · omega
  · rw [hc] at h hlen ⊢
    match s, hlen with
    | b :: c :: s, _ =>
        obtain ⟨hb, hc, hv, hform⟩ := checkFull_three.mp h
        obtain ⟨k, rfl⟩ := exists_char hform.1 hform.2.1
        have hmin := hform.2.2.2.1 rfl
        simp only [isContinuation] at hb hc
        rcases utf8EncodeChar_cases_toNat k with hk | hk | ⟨-, -, -, hk⟩ | hk
        · omega
        · omega
        · refine ⟨k, s, ?_, by rw [hk]; rfl, rfl⟩
          rw [hk, eq_ofNat (show a.toNat = k.toNat / 4096 % 16 + 224 by omega),
            eq_ofNat (show b.toNat = k.toNat / 64 % 64 + 128 by omega),
            eq_ofNat (show c.toNat = k.toNat % 64 + 128 by omega)]
          rfl
        · omega
  · rw [hc] at h hlen ⊢
    match s, hlen with
    | b :: c :: d :: s, _ =>
        obtain ⟨hb, hc, hd, hv, hform⟩ := checkFull_four.mp h
        obtain ⟨k, rfl⟩ := exists_char hform.1 hform.2.1
        have hmin := hform.2.2.2.2 rfl
        simp only [isContinuation] at hb hc hd
        rcases utf8EncodeChar_cases_toNat k with hk | hk | hk | ⟨-, -, hk⟩
        · omega
        · omega
        · omega
        · refine ⟨k, s, ?_, by rw [hk]; rfl, rfl⟩
          rw [hk, eq_ofNat (show a.toNat = k.toNat / 262144 % 8 + 240 by omega),
            eq_ofNat (show b.toNat = k.toNat / 4096 % 64 + 128 by omega),
            eq_ofNat (show c.toNat = k.toNat / 64 % 64 + 128 by omega),
            eq_ofNat (show d.toNat = k.toNat % 64 + 128 by omega)]
          rfl

theorem encode_of_utf8Iterate {s : Bytes} {n v : Nat} (h : utf8Iterate s = some (n, some v)) :
    ∃ k rest, s = String.utf8EncodeChar k ++ rest ∧ n = (String.utf8EncodeChar k).length ∧
      v = k.toNat ∧ k.toNat ≠ 0 := by
  cases s with
  | nil => cases h
  | cons a s =>
      rw [utf8Iterate, List.headD_cons] at h
      split at h
      · cases h
      next hnull =>
      have hbyte : a.toNat ≠ 0 := fun hzero => hnull (eq_ofNat hzero)
      dsimp only at h
      split at h
      · cases h
      next hzero =>
      split at h
      · next hone =>
          obtain ⟨rfl, hv⟩ : 1 = n ∧ a.toNat = v := by simpa using h
          have hlow : a.toNat < 0x80 := by
            have hcases := utf8CheckFirst_cases a
            omega
          obtain ⟨k, hk⟩ := exists_char (v := v) (by omega) (by omega)
          have henc : String.utf8EncodeChar k = [a] := by
            rcases utf8EncodeChar_cases_toNat k with ⟨-, henc⟩ | hcase | hcase | hcase
            · rw [henc, hk, eq_ofNat hv]
            · omega
            · omega
            · omega
          exact ⟨k, s, by rw [henc]; rfl, by rw [henc]; rfl, hk.symm, by omega⟩
      · next hmany =>
          obtain ⟨w, hfull, hw⟩ := Option.map_eq_some_iff.mp h
          obtain ⟨rfl, rfl⟩ : utf8CheckFirst a = n ∧ w = v := by simpa using hw
          obtain ⟨k, rest, henc, hlen, hvalue⟩ := encode_of_checkFull (by omega) hfull
          refine ⟨k, rest, henc, hlen, hvalue, fun hk => ?_⟩
          rcases utf8EncodeChar_cases_toNat k with ⟨-, hone⟩ | hcase | hcase | hcase
          · rw [hone] at hlen
            exact hmany hlen
          · omega
          · omega
          · omega

theorem utf8Iterate_end {s : Bytes} : utf8Iterate s = some (0, none) ↔ s.headD 0 = 0 := by
  rw [utf8Iterate]
  split
  · next hzero => exact iff_of_true rfl hzero
  · next hzero =>
      refine iff_of_false ?_ hzero
      dsimp only
      split
      · exact nofun
      · split
        · exact nofun
        · intro h
          obtain ⟨w, -, hw⟩ := Option.map_eq_some_iff.mp h
          cases (Prod.mk.inj hw).2

/-! ## Strings -/

theorem length_utf8EncodeChar_pos (k : Char) : 0 < (String.utf8EncodeChar k).length := by
  rw [String.length_utf8EncodeChar]
  exact k.utf8Size_pos

/-- What a round of the loop does in front of a character. -/
theorem checkString_encode (k : Char) (rest : Bytes) {fuel : Nat} :
    utf8CheckString.loop (fuel + 1) (String.utf8EncodeChar k ++ rest) =
      utf8CheckString.loop fuel rest := by
  obtain ⟨c, s, henc, hcount, ⟨-, -, rfl⟩ | ⟨-, hlong, hfull⟩⟩ := checkFirst_encode k
  · rw [henc, List.singleton_append, utf8CheckString.loop]
    simp only [hcount, List.length_nil]
    rfl
  · have hlen : ¬(c :: (s ++ rest)).length < utf8CheckFirst c := by
      rw [hcount, List.length_cons, List.length_append]
      omega
    rw [henc, List.cons_append, utf8CheckString.loop]
    rw [if_neg (by omega), if_pos (by omega), if_neg hlen, hfull, Option.isNone_some,
      if_neg Bool.false_ne_true, hcount, List.drop_succ_cons, List.drop_left]

/-- What a round of the loop has accepted when it goes on. -/
theorem checkString_round {fuel : Nat} {a : UInt8} {s : Bytes}
    (h : utf8CheckString.loop (fuel + 1) (a :: s) = true) :
    ∃ front rest, a :: s = front ++ rest ∧ Utf8 front ∧
      utf8CheckString.loop fuel rest = true := by
  rw [utf8CheckString.loop] at h
  split at h
  · cases h
  next hzero =>
  split at h
  · next hmany =>
      split at h
      · cases h
      split at h
      · cases h
      next hfull =>
      obtain ⟨v, hv⟩ := Option.ne_none_iff_exists'.mp fun hnone =>
        hfull (Option.isNone_iff_eq_none.mpr hnone)
      obtain ⟨k, rest, hs, hlen, -⟩ := encode_of_checkFull hmany hv
      rw [hs, hlen, List.drop_left] at h
      exact ⟨_, rest, hs, ⟨[k], by simp⟩, h⟩
  · have hlow : a < 128 := by
      have hcases := utf8CheckFirst_cases a
      rw [UInt8.lt_iff_toNat_lt]
      exact show a.toNat < 128 by omega
    exact ⟨[a], s, rfl, utf8_singleton hlow, h⟩

theorem utf8_of_checkString (fuel : Nat) :
    ∀ s : Bytes, utf8CheckString.loop fuel s = true → Utf8 s := by
  induction fuel with
  | zero =>
      intro s h
      cases s with
      | nil => exact ⟨[], rfl⟩
      | cons a s => cases h
  | succ fuel ih =>
      intro s h
      cases s with
      | nil => exact ⟨[], rfl⟩
      | cons a s =>
          obtain ⟨front, rest, hs, hfront, hrest⟩ := checkString_round h
          rw [hs]
          exact hfront.append (ih rest hrest)

theorem checkString_of_chars (cs : List Char) :
    ∀ fuel, (cs.flatMap String.utf8EncodeChar).length ≤ fuel →
      utf8CheckString.loop fuel (cs.flatMap String.utf8EncodeChar) = true := by
  induction cs with
  | nil =>
      intro fuel _
      rw [List.flatMap_nil, utf8CheckString.loop.eq_def]
  | cons k cs ih =>
      intro fuel hfuel
      have hpos := length_utf8EncodeChar_pos k
      rw [List.flatMap_cons, List.length_append] at hfuel
      obtain ⟨fuel, rfl⟩ : ∃ f, fuel = f + 1 := ⟨fuel - 1, by omega⟩
      rw [List.flatMap_cons, checkString_encode]
      exact ih fuel (by omega)

theorem utf8CheckString_iff {s : Bytes} (hlen : s.length < 2 ^ 31 - 3) :
    utf8CheckString s = true ↔ Utf8 s := by
  have hlength : ((s.length : Int).bmod (2 ^ 32)).toNat = s.length := by
    rw [Int.bmod_eq_of_le (by omega) (by omega), Int.toNat_natCast]
  rw [utf8CheckString]
  simp only [hlength, List.take_length]
  constructor
  · exact utf8_of_checkString s.length s
  · rintro ⟨cs, rfl⟩
    exact checkString_of_chars cs _ (Nat.le_refl _)

/-! ## The encoder -/

theorem and_shiftRight (c mask k n : Nat) (h : mask >>> k = 2 ^ n - 1) :
    (c &&& mask) >>> k = c / 2 ^ k % 2 ^ n := by
  rw [Nat.shiftRight_and_distrib, h, Nat.and_two_pow_sub_one_eq_mod, Nat.shiftRight_eq_div_pow]

theorem utf8Encode_char (k : Char) : utf8Encode k.toNat = some (String.utf8EncodeChar k) := by
  have hlow : k.toNat &&& 0x3F = k.toNat % 64 := Nat.and_two_pow_sub_one_eq_mod _ 6
  have h2 := and_shiftRight k.toNat 0x7C0 6 5 rfl
  have h3 := and_shiftRight k.toNat 0xF000 12 4 rfl
  have h3' := and_shiftRight k.toNat 0x0FC0 6 6 rfl
  have h4 := and_shiftRight k.toNat 0x1C0000 18 3 rfl
  have h4' := and_shiftRight k.toNat 0x03F000 12 6 rfl
  have hneg : ¬((k.toNat : Int) < 0) := by omega
  simp only [utf8Encode, Int.toNat_natCast, if_neg hneg, hlow, h2, h3, h3', h4, h4']
  rcases utf8EncodeChar_cases_toNat k with ⟨hv, hk⟩ | ⟨hmin, hmax, hk⟩ | ⟨hmin, hmax, -, hk⟩ |
    ⟨hmin, hmax, hk⟩
  · rw [if_pos hv, hk]
  · rw [if_neg (by omega), if_pos hmax, hk]
    simp [Nat.add_comm]
  · rw [if_neg (by omega), if_neg (by omega), if_pos hmax, hk]
    simp [Nat.add_comm]
  · rw [if_neg (by omega), if_neg (by omega), if_neg (by omega), if_pos hmax, hk]
    simp [Nat.add_comm]

/-- A string of less than 2^31 - 3 bytes is accepted if it is a sequence of characters, a
character is written as what it is in UTF-8, and what is walked through are characters, up
to the terminator. -/
theorem utf8_exact :
    (∀ s : Bytes, s.length < 2 ^ 31 - 3 → (utf8CheckString s = true ↔ Utf8 s)) ∧
    (∀ k : Char, utf8Encode k.toNat = some (String.utf8EncodeChar k)) ∧
    (∀ s : Bytes, utf8Iterate s = some (0, none) ↔ s.headD 0 = 0) ∧
    ∀ (s : Bytes) (n v : Nat), utf8Iterate s = some (n, some v) ↔
      ∃ (k : Char) (rest : Bytes), s = String.utf8EncodeChar k ++ rest ∧
        n = (String.utf8EncodeChar k).length ∧ v = k.toNat ∧ k.toNat ≠ 0 := by
  refine ⟨fun s hlen => utf8CheckString_iff hlen, utf8Encode_char, fun s => utf8Iterate_end,
    fun s n v => ⟨encode_of_utf8Iterate, ?_⟩⟩
  rintro ⟨k, rest, rfl, rfl, rfl, hk⟩
  exact utf8Iterate_encode hk rest

theorem utf8_exact_euro :
    (utf8CheckString [0xE2, 0x82, 0xAC] = true ↔ Utf8 [0xE2, 0x82, 0xAC]) ∧
      utf8Iterate [0xE2, 0x82, 0xAC] = some (3, some 0x20AC) :=
  ⟨utf8_exact.1 _ (by decide),
    (utf8_exact.2.2.2 _ _ _).mpr ⟨'€', [], by decide, by decide, by decide, by decide⟩⟩

end AlphaMiner.Jansson
