import AlphaMiner.Lib.JsonScan
import AlphaMiner.Model.Jansson.Dump
import AlphaMiner.Proofs.Jansson.Utf
import AlphaMiner.Proofs.Jansson.Words

/-!
# The words and strings that are written out

Each character of a string is written as it is or as an escape (`piece`), and a lexer
inside a string makes the character of it again in both cases (`run_piece`), a pair of
escapes being one character. The loops of `dump_string` write the pieces one after the
other (`dumpString_eq`).

An integer is written in the digits that it is read in (`integerOf_dump`), and a real in
whatever `%.17g` gives, with a point behind it if it would be an integer otherwise.
-/

namespace AlphaMiner.Jansson

open Lib Lib.JsonText

/-! ## Strings -/

/-- What is written for a character. -/
def piece (ascii : Bool) (k : Char) : Bytes :=
  if needsEscape ascii k.toNat then escapeText k.toNat else String.utf8EncodeChar k

def plainChar (ascii : Bool) (k : Char) : Bool := !needsEscape ascii k.toNat

theorem head_encode {k : Char} (hk : k.toNat ≠ 0) (rest : Bytes) :
    (String.utf8EncodeChar k ++ rest).headD 0 ≠ 0 := by
  intro hzero
  have hread := utf8Iterate_encode hk rest
  rw [utf8Iterate_end.mpr hzero] at hread
  cases (Prod.mk.inj (Option.some.inj hread)).2

/-- The inner loop comes to the first character that has to be escaped. -/
theorem dumpPlain_eq (ascii : Bool) {cs : List Char} : ∀ {fuel : Nat}, cs.length < fuel →
    (∀ k ∈ cs, k.toNat ≠ 0) →
    dumpPlain ascii fuel (cs.flatMap String.utf8EncodeChar) =
      some (((cs.takeWhile (plainChar ascii)).flatMap String.utf8EncodeChar).length,
        (cs.dropWhile (plainChar ascii)).head?.map fun k =>
          ((String.utf8EncodeChar k).length, k.toNat)) := by
  induction cs with
  | nil =>
      intro fuel hfuel _
      obtain ⟨fuel, rfl⟩ : ∃ left, fuel = left + 1 := Nat.exists_eq_add_of_le' hfuel
      rfl
  | cons k cs ih =>
      intro fuel hfuel hzero
      obtain ⟨fuel, rfl⟩ : ∃ left, fuel = left + 1 :=
        Nat.exists_eq_add_of_le' (Nat.lt_of_le_of_lt (Nat.zero_le _) hfuel)
      have hhead := head_encode (hzero k List.mem_cons_self) (cs.flatMap String.utf8EncodeChar)
      rw [List.flatMap_cons, dumpPlain, if_neg hhead,
        utf8Iterate_encode (hzero k List.mem_cons_self)]
      dsimp only
      by_cases hescape : needsEscape ascii k.toNat = true
      · have hplain : ¬plainChar ascii k = true := by simp [plainChar, hescape]
        rw [if_pos hescape, List.takeWhile_cons_of_neg hplain, List.dropWhile_cons_of_neg hplain]
        rfl
      · have hplain : plainChar ascii k = true := by simpa [plainChar] using hescape
        rw [if_neg hescape, List.takeWhile_cons_of_pos hplain, List.dropWhile_cons_of_pos hplain,
          List.drop_left, ih (Nat.lt_of_succ_lt_succ hfuel)
            fun c hc => hzero c (List.mem_cons_of_mem k hc),
          Option.map_some, List.flatMap_cons, List.length_append]

theorem flatMap_piece_plain (ascii : Bool) {cs : List Char}
    (h : ∀ k ∈ cs, plainChar ascii k = true) :
    cs.flatMap (piece ascii) = cs.flatMap String.utf8EncodeChar := by
  refine List.flatMap_congr fun k hk => if_neg ?_
  simpa [plainChar] using h k hk

theorem length_le_flatMap (cs : List Char) :
    cs.length ≤ (cs.flatMap String.utf8EncodeChar).length := by
  induction cs with
  | nil => exact Nat.le_refl _
  | cons k cs ih =>
      have hpos := length_utf8EncodeChar_pos k
      rw [List.flatMap_cons, List.length_append, List.length_cons]
      omega

/-- The outer loop, a round for every escape. -/
theorem dumpStringFrom_eq (ascii : Bool) : ∀ (fuel : Nat) {cs : List Char}, cs.length < fuel →
    (∀ k ∈ cs, k.toNat ≠ 0) →
    dumpStringFrom ascii fuel (cs.flatMap String.utf8EncodeChar) =
      (cs.flatMap (piece ascii) ++ [34], true) := by
  intro fuel
  induction fuel with
  | zero => exact fun h => absurd h (Nat.not_lt_zero _)
  | succ fuel ih =>
      intro cs hfuel hzero
      have hsplit := List.takeWhile_append_dropWhile (p := plainChar ascii) (l := cs)
      have hplain : ∀ k ∈ cs.takeWhile (plainChar ascii), plainChar ascii k = true :=
        fun k hk => List.mem_takeWhile_imp hk
      have hround := dumpPlain_eq ascii
        (Nat.lt_succ_of_le (length_le_flatMap cs)) hzero
      rw [dumpStringFrom, hround]
      cases hrest : cs.dropWhile (plainChar ascii) with
      | nil =>
          rw [hrest, List.append_nil] at hsplit
          rw [hsplit] at hplain ⊢
          rw [flatMap_piece_plain ascii hplain]
          dsimp only [List.head?_nil, Option.map_none]
          rw [List.take_length]
      | cons k rest =>
          rw [hrest] at hsplit
          obtain ⟨front, hfront⟩ : ∃ front, cs.takeWhile (plainChar ascii) = front := ⟨_, rfl⟩
          rw [hfront] at hsplit hplain ⊢
          have hescape : needsEscape ascii k.toNat = true := by
            have hnot := List.head_dropWhile_not (plainChar ascii) (l := cs)
              (by rw [hrest]; exact List.cons_ne_nil k rest)
            simpa [hrest, plainChar] using hnot
          have hlength : rest.length < fuel := by
            rw [← hsplit, List.length_append, List.length_cons] at hfuel
            omega
          have hloop := ih hlength fun c hc => hzero c (by
            rw [← hsplit]
            exact List.mem_append_right _ (List.mem_cons_of_mem k hc))
          rw [← hsplit, List.flatMap_append, List.flatMap_cons, List.flatMap_append,
            List.flatMap_cons, flatMap_piece_plain ascii hplain, piece, if_pos hescape]
          dsimp only [List.head?_cons, Option.map_some]
          rw [List.take_left, ← List.append_assoc, ← List.length_append, List.drop_left, hloop]
          simp only [List.append_assoc]

theorem toNat_ne_zero {cs : List Char} (h : 0 ∉ cs.flatMap String.utf8EncodeChar) :
    ∀ k ∈ cs, k.toNat ≠ 0 := by
  intro k hk hzero
  obtain rfl : k = Char.ofNat 0 := by rw [← hzero, Char.ofNat_toNat]
  exact h (List.mem_flatMap.mpr ⟨_, hk, by decide⟩)

/-- A string of characters is written piece by piece. -/
theorem dumpString_eq (ascii : Bool) {cs : List Char}
    (h : 0 ∉ cs.flatMap String.utf8EncodeChar) :
    dumpString (cs.flatMap String.utf8EncodeChar) ascii =
      (34 :: (cs.flatMap (piece ascii) ++ [34]), true) := by
  rw [dumpString, dumpStringFrom_eq ascii _ (Nat.lt_succ_of_le (length_le_flatMap cs))
    (toNat_ne_zero h)]

/-! ## Reading the pieces -/

theorem hexValue_hexDigit : ∀ d : Fin 16, hexValue (hexDigit (UInt8.ofNat d)) = some d.val := by
  decide

/-- Four digits after `\u` make a code unit. -/
theorem run_sprintf04x {n : Nat} (hn : n < 0x10000) (tokens : List Token) (s : Bytes)
    (high : Option Nat) :
    (Lexer.mk tokens (.hex s high 0 4)).run (sprintf04x n) =
      (codeUnit s high n).map fun mode => ⟨tokens, mode⟩ := by
  have hvalue : ∀ d, d < 16 → hexValue (hexDigit (UInt8.ofNat d)) = some d := fun d hd =>
    hexValue_hexDigit ⟨d, hd⟩
  rw [sprintf04x]
  simp only [List.map_cons, List.map_nil]
  rw [Lexer.run_hex, hvalue _ (by omega), hvalue _ (by omega), hvalue _ (by omega),
    hvalue _ (by omega)]
  simp only [Option.bind_some, Lexer.run_nil]
  have hunit : 16 * (16 * (16 * (n / 4096) + n / 256 % 16) + n / 16 % 16) + n % 16 = n := by omega
  rw [hunit]
  cases codeUnit s high n <;> rfl

theorem run_unit (tokens : List Token) (s rest : Bytes) :
    (Lexer.mk tokens (.string s)).run (92 :: 117 :: rest) =
      (Lexer.mk tokens (.hex s none 0 4)).run rest := rfl

theorem run_low (tokens : List Token) (s : Bytes) (high : Nat) (rest : Bytes) :
    (Lexer.mk tokens (.low s high)).run (92 :: 117 :: rest) =
      (Lexer.mk tokens (.hex s (some high) 0 4)).run rest := rfl

/-- The halves of a surrogate pair. -/
theorem high_half {c : Nat} (hc : c < 0x100000) :
    0xD800 ||| ((c &&& 0xffc00) >>> 10) = 0xD800 + c / 1024 := by
  rw [and_shiftRight c 0xffc00 10 10 rfl]
  have hlt : c / 2 ^ 10 % 2 ^ 10 = c / 1024 := Nat.mod_eq_of_lt (by omega)
  rw [hlt]
  have hsplit : (0xD800 : Nat) = 2 ^ 10 * 54 := rfl
  rw [hsplit, ← Nat.two_pow_add_eq_or_of_lt (by omega)]

theorem low_half (c : Nat) : 0xDC00 ||| (c &&& 0x003ff) = 0xDC00 + c % 1024 := by
  have hmask : c &&& 0x003ff = c % 1024 := Nat.and_two_pow_sub_one_eq_mod c 10
  have hsplit : (0xDC00 : Nat) = 2 ^ 10 * 55 := rfl
  rw [hmask, hsplit, ← Nat.two_pow_add_eq_or_of_lt (by omega)]

/-- A character that is not in the first plane is a pair of code units. -/
theorem run_pair {k : Char} (hk : 0x10000 ≤ k.toNat) (tokens : List Token) (s : Bytes) :
    (Lexer.mk tokens (.string s)).run
        (92 :: 117 :: sprintf04x (0xD800 ||| (((k.toNat - 0x10000) &&& 0xffc00) >>> 10)) ++
          92 :: 117 :: sprintf04x (0xDC00 ||| ((k.toNat - 0x10000) &&& 0x003ff))) =
      some ⟨tokens, .string (s ++ String.utf8EncodeChar k)⟩ := by
  have hvalid : k.toNat < 0xd800 ∨ 0xdfff < k.toNat ∧ k.toNat < 0x110000 := k.valid
  obtain ⟨c, hc⟩ : ∃ c, k.toNat - 0x10000 = c := ⟨_, rfl⟩
  have hlt : c < 0x100000 := by omega
  rw [hc, high_half hlt, low_half, Lexer.run_append]
  rw [run_unit, run_sprintf04x (by omega)]
  have hhigh : codeUnit s none (0xD800 + c / 1024) = some (.low s (0xD800 + c / 1024)) :=
    if_pos (by omega)
  rw [hhigh, Option.map_some, Option.bind_some, run_low, run_sprintf04x (by omega)]
  have hvalue : 0x10000 + 0x400 * (0xD800 + c / 1024 - 0xd800) + (0xDC00 + c % 1024 - 0xdc00) =
      k.toNat := by omega
  have hlow : codeUnit s (some (0xD800 + c / 1024)) (0xDC00 + c % 1024) =
      some (.string (s ++ String.utf8EncodeChar (.ofNat (0x10000 +
        0x400 * (0xD800 + c / 1024 - 0xd800) + (0xDC00 + c % 1024 - 0xdc00))))) :=
    if_pos (by omega)
  rw [hlow, hvalue, Char.ofNat_toNat]
  rfl

/-- A character of the first plane. -/
theorem run_single {k : Char} (hk : k.toNat < 0x10000) (tokens : List Token) (s : Bytes) :
    (Lexer.mk tokens (.string s)).run (92 :: 117 :: sprintf04x k.toNat) =
      some ⟨tokens, .string (s ++ String.utf8EncodeChar k)⟩ := by
  have hvalid : k.toNat < 0xd800 ∨ 0xdfff < k.toNat ∧ k.toNat < 0x110000 := k.valid
  have hunit : codeUnit s none k.toNat = some (.string (s ++ String.utf8EncodeChar k)) := by
    rw [codeUnit, if_neg (by omega), if_neg (by omega), Char.ofNat_toNat]
  rw [run_unit, run_sprintf04x hk, hunit]
  rfl

/-- A character that is written as it is. -/
theorem run_verbatim {k : Char} (hk : needsEscape false k.toNat = false) (tokens : List Token)
    (s : Bytes) : (Lexer.mk tokens (.string s)).run (String.utf8EncodeChar k) =
      some ⟨tokens, .string (s ++ String.utf8EncodeChar k)⟩ := by
  refine Lexer.run_plain tokens (fun b hb => ?_) s
  rcases utf8EncodeChar_cases k with ⟨a, ha, hbytes⟩ | hhigh
  · rw [hbytes] at hb
    obtain rfl := List.mem_singleton.mp hb
    have hvalue : b.toNat = k.toNat := by
      obtain ⟨c, s, henc, -, ⟨hvalue, -, -⟩ | ⟨hhigh, -⟩⟩ := checkFirst_encode k
      · rw [hbytes] at henc
        obtain ⟨rfl, -⟩ := List.cons.inj henc
        exact hvalue
      · rw [hbytes] at henc
        obtain ⟨rfl, -⟩ := List.cons.inj henc
        exact absurd (UInt8.lt_iff_toNat_lt.mp ha) (Nat.not_lt.mpr hhigh)
    rw [← hvalue] at hk
    simp only [needsEscape, Bool.false_and, Bool.or_false, Bool.or_eq_false_iff,
      decide_eq_false_iff_not] at hk
    obtain ⟨⟨hback, hquote⟩, hcontrol⟩ := hk
    refine ⟨?_, ?_, ?_⟩
    · rintro rfl
      exact hquote rfl
    · rintro rfl
      exact hback rfl
    · rw [UInt8.le_iff_toNat_le]
      exact Nat.le_of_not_lt hcontrol
  · have hb := hhigh b hb
    rw [UInt8.le_iff_toNat_le] at hb
    have hb : 128 ≤ b.toNat := hb
    refine ⟨?_, ?_, ?_⟩
    · rintro rfl
      exact absurd hb (by decide)
    · rintro rfl
      exact absurd hb (by decide)
    · rw [UInt8.le_iff_toNat_le]
      exact Nat.le_trans (by decide) hb

/-- The lexer makes the character again of what is written for it. -/
theorem run_piece (ascii : Bool) (k : Char) (tokens : List Token) (s : Bytes) :
    (Lexer.mk tokens (.string s)).run (piece ascii k) =
      some ⟨tokens, .string (s ++ String.utf8EncodeChar k)⟩ := by
  rw [piece]
  by_cases hescape : needsEscape ascii k.toNat = true
  · rw [if_pos hescape]
    have hshort : ∀ n : Nat, k.toNat = n → k = Char.ofNat n := fun n h => by
      rw [← h, Char.ofNat_toNat]
    rw [escapeText]
    split
    · next h => rw [hshort _ h]; rfl
    · split
      · next h => rw [hshort _ h]; rfl
      · split
        · next h => rw [hshort _ h]; rfl
        · split
          · next h => rw [hshort _ h]; rfl
          · split
            · next h => rw [hshort _ h]; rfl
            · split
              · next h => rw [hshort _ h]; rfl
              · split
                · next h => rw [hshort _ h]; rfl
                · split
                  · next h => exact run_single h tokens s
                  · next h => exact run_pair (Nat.le_of_not_lt h) tokens s
  · rw [if_neg hescape]
    refine run_verbatim ?_ tokens s
    simp only [needsEscape, Bool.or_eq_true, not_or] at hescape
    obtain ⟨⟨⟨hback, hquote⟩, hcontrol⟩, -⟩ := hescape
    simp [needsEscape, hback, hquote, hcontrol]

theorem run_pieces (ascii : Bool) (cs : List Char) (tokens : List Token) : ∀ s : Bytes,
    (Lexer.mk tokens (.string s)).run (cs.flatMap (piece ascii)) =
      some ⟨tokens, .string (s ++ cs.flatMap String.utf8EncodeChar)⟩ := by
  induction cs with
  | nil => intro s; rw [List.flatMap_nil, List.flatMap_nil, List.append_nil]; rfl
  | cons k cs ih =>
      intro s
      rw [List.flatMap_cons, Lexer.run_append, run_piece, Option.bind_some, ih, List.flatMap_cons,
        List.append_assoc]

/-! ## Integers -/

def decimal (n : Nat) : Bytes := (Nat.toDigits 10 n).map fun c => c.toNat.toUInt8

theorem dumpInteger_nonneg (n : Nat) : dumpInteger n = decimal n := by
  have hrepr : toString (n : Int) = n.repr := rfl
  rw [dumpInteger, ascii, hrepr, Nat.toList_repr]
  rfl

theorem dumpInteger_neg (n : Nat) : dumpInteger (Int.negSucc n) = 45 :: decimal (n + 1) := by
  have hrepr : toString (Int.negSucc n) = "-" ++ (n + 1).repr := rfl
  rw [dumpInteger, ascii, hrepr, String.toList_append, Nat.toList_repr]
  rfl

theorem digitChar_byte : ∀ d : Fin 10, (Nat.digitChar d).toNat.toUInt8 = UInt8.ofNat (48 + d) := by
  decide

theorem decimal_digit {n : Nat} (h : n < 10) : decimal n = [UInt8.ofNat (48 + n)] := by
  rw [decimal, Nat.toDigits_of_lt_base h, List.map_singleton]
  exact congrArg (fun c => [c]) (digitChar_byte ⟨n, h⟩)

theorem decimal_more {n : Nat} (h : 10 ≤ n) :
    decimal n = decimal (n / 10) ++ [UInt8.ofNat (48 + n % 10)] := by
  rw [decimal, Nat.toDigits_of_base_le (by decide) h, List.map_append, List.map_singleton, decimal]
  exact congrArg (fun c => _ ++ [c]) (digitChar_byte ⟨n % 10, Nat.mod_lt n (by decide)⟩)

theorem toNat_digit {d : Nat} (h : d < 10) : (UInt8.ofNat (48 + d)).toNat = 48 + d :=
  toNat_ofNat_of_lt (by omega)

theorem isDigit_digit {d : Nat} (h : d < 10) : isDigit (UInt8.ofNat (48 + d)) = true := by
  rw [isDigit_iff, toNat_digit h]
  omega

/-- The digits of a number, which begin with a zero only for zero. -/
theorem decimal_spec (n : Nat) : (decimal n).all isDigit = true ∧
    ofNumeral 10 ((decimal n).map fun c => c.toNat - 48) = n ∧
    ∃ d rest, decimal n = d :: rest ∧ (0 < n → d ≠ 48) := by
  induction n using Nat.strong_induction_on with
  | _ n ih =>
      by_cases hn : n < 10
      · rw [decimal_digit hn]
        refine ⟨?_, ?_, _, [], rfl, fun hpos heq => ?_⟩
        · rw [List.all_cons, isDigit_digit hn]
          rfl
        · rw [List.map_singleton, toNat_digit hn, ← List.nil_append [_], ofNumeral_concat,
            ofNumeral_nil]
          omega
        · have hvalue := congrArg UInt8.toNat heq
          rw [toNat_digit hn] at hvalue
          have hvalue : 48 + n = 48 := hvalue
          omega
      · have hlast : n % 10 < 10 := Nat.mod_lt n (by decide)
        obtain ⟨hall, hvalue, d, rest, hfirst, hd⟩ := ih (n / 10) (by omega)
        rw [decimal_more (Nat.le_of_not_lt hn)]
        refine ⟨?_, ?_, d, rest ++ [UInt8.ofNat (48 + n % 10)], ?_, fun _ => hd (by omega)⟩
        · rw [List.all_append, hall, List.all_cons, isDigit_digit hlast]
          rfl
        · rw [List.map_append, List.map_singleton, ofNumeral_concat, hvalue, toNat_digit hlast]
          omega
        · rw [hfirst, List.cons_append]

theorem isDigits_decimal (n : Nat) : isDigits (decimal n) = true := by
  obtain ⟨hall, -, d, rest, hfirst, -⟩ := decimal_spec n
  exact isDigits_iff.mpr ⟨by rw [hfirst]; exact List.cons_ne_nil d rest, hall⟩

theorem head_decimal (n : Nat) : (decimal n).head? ≠ some 45 := by
  obtain ⟨hall, -, d, rest, hfirst, -⟩ := decimal_spec n
  rw [hfirst] at hall ⊢
  intro hsign
  obtain rfl := Option.some.inj hsign
  exact absurd (List.all_eq_true.mp hall 45 List.mem_cons_self) (by decide)

theorem isNumber_decimal (n : Nat) :
    isNumber (decimal n) = true ∧ isNumber (45 :: decimal n) = true := by
  have hunsigned : isNumber (45 :: decimal n) = true := by
    obtain ⟨hall, hvalue, d, rest, hfirst, hd⟩ := decimal_spec n
    by_cases hn : n = 0
    · subst hn
      rfl
    · rw [hfirst] at hall ⊢
      rw [List.all_cons, Bool.and_eq_true] at hall
      rw [isNumber, if_pos List.head?_cons, List.tail_cons]
      dsimp only
      rw [if_neg (hd (Nat.pos_of_ne_zero hn)), hall.1,
        List.dropWhile_eq_nil_iff.mpr (List.all_eq_true.mp hall.2)]
      rfl
  refine ⟨?_, hunsigned⟩
  rw [isNumber, if_neg (head_decimal n)]
  exact hunsigned

theorem isNumber_dumpInteger (value : Int) : isNumber (dumpInteger value) = true := by
  cases value with
  | ofNat n =>
      rw [Int.ofNat_eq_natCast, dumpInteger_nonneg]
      exact (isNumber_decimal n).1
  | negSucc n =>
      rw [dumpInteger_neg]
      exact (isNumber_decimal (n + 1)).2

/-- An integer is read back. -/
theorem integerOf_dump (value : Int) : integerOf (dumpInteger value) = some value := by
  cases value with
  | ofNat n =>
      obtain ⟨-, hvalue, -⟩ := decimal_spec n
      rw [Int.ofNat_eq_natCast, dumpInteger_nonneg, integerOf, integer?, if_neg (head_decimal n),
        if_pos (isDigits_decimal n), hvalue, Option.map_some, if_neg (head_decimal n)]
  | negSucc n =>
      obtain ⟨-, hvalue, -⟩ := decimal_spec (n + 1)
      rw [dumpInteger_neg, integerOf, integer?, if_pos List.head?_cons, List.tail_cons,
        if_pos (isDigits_decimal (n + 1)), hvalue, Option.map_some, if_pos List.head?_cons]
      rfl

/-! ## Reals -/

/-- What is asked of `%.17g`: a number of the grammar, with a small `e` if with any, and
short enough. -/
structure Printed (printed : Bytes) : Prop where
  number : isNumber printed = true
  small : 69 ∉ printed
  short : printed.length < 98

theorem integerOf_none {w : Bytes} (h : 46 ∈ w ∨ 101 ∈ w) : integerOf w = none := by
  have hmark : ∃ c ∈ w, c ≠ 45 ∧ isDigit c = false := by
    rcases h with h | h
    · exact ⟨46, h, by decide, by decide⟩
    · exact ⟨101, h, by decide, by decide⟩
  obtain ⟨c, hc, hsign, hdigit⟩ := hmark
  have hmem : c ∈ if w.head? = some 45 then w.tail else w := by
    split
    · next hhead =>
        rw [← List.cons_head?_tail hhead] at hc
        rcases List.mem_cons.mp hc with rfl | hc
        · exact absurd rfl hsign
        · exact hc
    · exact hc
  rw [integerOf, integer?, if_neg, Option.map_none]
  intro hdigits
  have hall := List.all_eq_true.mp (isDigits_iff.mp hdigits).2 c hmem
  rw [hdigit] at hall
  cases hall

/-- What follows the digits of a number without a mark is nothing. -/
theorem fraction_nil {x : Bytes} (h : isFraction x = true) (hdot : 46 ∉ x) (he : 101 ∉ x)
    (hbig : 69 ∉ x) : x = [] := by
  cases x with
  | nil => rfl
  | cons c x =>
      rw [List.mem_cons, not_or] at hdot he hbig
      have hexponent : isExponent (c :: x) = true := by
        unfold isFraction at h
        split at h
        · next heq =>
            cases heq
            exact absurd rfl hdot.1
        · exact h
      unfold isExponent at hexponent
      dsimp only at hexponent
      rw [Bool.and_eq_true, Bool.or_eq_true, decide_eq_true_iff, decide_eq_true_iff] at hexponent
      rcases hexponent.1 with rfl | rfl
      · exact absurd rfl he.1
      · exact absurd rfl hbig.1

/-- A point and a zero behind an integer. -/
theorem isNumber_point {w : Bytes} (h : isNumber w = true) (hdot : 46 ∉ w) (he : 101 ∉ w)
    (hbig : 69 ∉ w) : isNumber (w ++ [46, 48]) = true := by
  have hunsigned : ∀ {d : UInt8} {rest : Bytes}, 46 ∉ rest → 101 ∉ rest → 69 ∉ rest →
      (if d = 48 then isFraction rest
        else isDigit d && isFraction (rest.dropWhile isDigit)) = true →
      (if d = 48 then isFraction (rest ++ [46, 48])
        else isDigit d && isFraction ((rest ++ [46, 48]).dropWhile isDigit)) = true := by
    intro d rest hdot he hbig h
    by_cases hd : d = 48
    · rw [if_pos hd] at h ⊢
      rw [fraction_nil h hdot he hbig]
      rfl
    · rw [if_neg hd, Bool.and_eq_true] at h ⊢
      have hsub : ∀ {c : UInt8}, c ∉ rest → c ∉ rest.dropWhile isDigit := fun hc hmem =>
        hc ((List.dropWhile_sublist isDigit).mem hmem)
      have hnil := fraction_nil h.2 (hsub hdot) (hsub he) (hsub hbig)
      have hdrop : (rest ++ [46, 48]).dropWhile isDigit = [46, 48] := by
        rw [List.dropWhile_append, hnil]
        rfl
      rw [hdrop]
      exact ⟨h.1, rfl⟩
  cases w with
  | nil => cases h
  | cons s w =>
      rw [List.mem_cons, not_or] at hdot he hbig
      by_cases hs : s = 45
      · subst hs
        cases w with
        | nil => cases h
        | cons d rest =>
            rw [List.mem_cons, not_or] at hdot he hbig
            exact hunsigned hdot.2.2 he.2.2 hbig.2.2 h
      · have hhead : ∀ t : Bytes, (s :: t).head? ≠ some 45 := fun t heq => hs (Option.some.inj heq)
        rw [isNumber, if_neg (hhead w)] at h
        rw [List.cons_append, isNumber, if_neg (hhead _)]
        exact hunsigned hdot.2 he.2 hbig.2 h

/-- A real never becomes an integer. -/
theorem dumpReal_spec {printed : Bytes} (h : Printed printed) :
    ∃ text, dumpReal printed = some text ∧ isNumber text = true ∧ integerOf text = none := by
  have hshort := h.short
  rw [dumpReal, if_neg (by omega)]
  by_cases hmark : 46 ∉ printed ∧ 101 ∉ printed
  · rw [if_pos hmark, if_neg (by omega)]
    refine ⟨_, rfl, isNumber_point h.number hmark.1 hmark.2 h.small, integerOf_none (.inl ?_)⟩
    exact List.mem_append_right printed List.mem_cons_self
  · rw [if_neg hmark]
    refine ⟨_, rfl, h.number, integerOf_none ?_⟩
    by_cases hdot : 46 ∈ printed
    · exact .inl hdot
    · exact .inr (by_contra fun he => hmark ⟨hdot, he⟩)

/-! ## What is written is UTF-8 -/

theorem utf8_number {w : Bytes} (h : isNumber w = true) : Utf8 w := by
  have hbyte : ∀ c : UInt8, isNumberByte c = true → c < 128 := by
    intro c hc
    simp only [isNumberByte, Bool.or_eq_true, decide_eq_true_eq] at hc
    rcases hc with ((((hc | rfl) | rfl) | rfl) | rfl) | rfl
    · have hdigit := isDigit_iff.mp hc
      rw [UInt8.lt_iff_toNat_lt]
      exact Nat.lt_of_le_of_lt hdigit.2 (by decide)
    all_goals decide
  obtain ⟨d, t, hform, hd, ht⟩ := isNumber_cases h
  refine utf8_of_ascii (List.all_eq_true.mpr fun c hc => decide_eq_true (hbyte c ?_))
  have ht := List.all_eq_true.mp ht
  rcases hform with rfl | rfl
  · rcases List.mem_cons.mp hc with rfl | hc
    · exact isNumberByte_of_isDigit hd
    · exact ht c hc
  · rcases List.mem_cons.mp hc with rfl | hc
    · rfl
    · rcases List.mem_cons.mp hc with rfl | hc
      · exact isNumberByte_of_isDigit hd
      · exact ht c hc

theorem hexDigit_ascii : ∀ d : Fin 16, hexDigit (UInt8.ofNat d) < 128 := by decide

theorem ascii_sprintf04x {n : Nat} (hn : n < 0x10000) :
    (sprintf04x n).all (· < 128) = true := by
  have hdigit : ∀ d, d < 16 → hexDigit (UInt8.ofNat d) < 128 := fun d hd => hexDigit_ascii ⟨d, hd⟩
  rw [sprintf04x]
  simp only [List.map_cons, List.map_nil, List.all_cons, List.all_nil, Bool.and_true,
    Bool.and_eq_true, decide_eq_true_eq]
  exact ⟨hdigit _ (by omega), hdigit _ (by omega), hdigit _ (by omega), hdigit _ (by omega)⟩

theorem utf8_escapeText (k : Char) : Utf8 (escapeText k.toNat) := by
  refine utf8_of_ascii ?_
  rw [escapeText]
  split
  · rfl
  · split
    · rfl
    · split
      · rfl
      · split
        · rfl
        · split
          · rfl
          · split
            · rfl
            · split
              · rfl
              · split
                · next h => exact ascii_sprintf04x h
                · next h =>
                    have hvalid : k.toNat < 0xd800 ∨ 0xdfff < k.toNat ∧ k.toNat < 0x110000 :=
                      k.valid
                    have hlt : k.toNat - 0x10000 < 0x100000 := by omega
                    dsimp only
                    rw [high_half hlt, low_half]
                    simp only [List.cons_append, List.all_cons, List.all_append,
                      ascii_sprintf04x (show 0xD800 + (k.toNat - 0x10000) / 1024 < 0x10000 by omega),
                      ascii_sprintf04x (show 0xDC00 + (k.toNat - 0x10000) % 1024 < 0x10000 by omega)]
                    rfl

theorem utf8_pieces (ascii : Bool) (cs : List Char) : Utf8 (cs.flatMap (piece ascii)) := by
  induction cs with
  | nil => exact ⟨[], rfl⟩
  | cons k cs ih =>
      rw [List.flatMap_cons]
      refine Utf8.append ?_ ih
      rw [piece]
      split
      · exact utf8_escapeText k
      · exact ⟨[k], (List.flatMap_singleton ..).symm⟩

end AlphaMiner.Jansson
