import AlphaMiner.Lib.JsonPieces
import AlphaMiner.Model.JsonNumbers
import Mathlib.Tactic.Tauto

/-!
# What `hack_json_numbers` does to a JSON text

The scanner does not parse. It copies piece after piece of the text and comes out
of every piece as it went in, outside of strings and numbers, but for a number: its
end is seen at the byte behind it. In an array or an object that byte is there, and
it is a delimiter (`loop_word`, `loop_pieces`).
-/

namespace AlphaMiner

open Lib Lib.JsonText

/-! ## The value of digits -/

theorem isdigit_eq (c : UInt8) : isdigit c = isDigit c := rfl

theorem foldl_digits (s : Bytes) :
    s.foldl (fun n c => 10 * n + (c.toNat - 48)) 0 =
      ofNumeral 10 (s.map fun c => c.toNat - 48) := by
  induction s using List.reverseRecOn with
  | nil => rfl
  | append_singleton s c ih =>
      rw [List.foldl_append, ih, List.map_append, List.map_singleton, ofNumeral_concat]
      simp only [List.foldl_cons, List.foldl_nil]
      omega

theorem digitsValue_of_isDigits {s : Bytes} (h : s.all isDigit = true) :
    digitsValue s = ofNumeral 10 (s.map fun c => c.toNat - 48) := by
  have hall : ∀ c ∈ s, isDigit c = true := List.all_eq_true.mp h
  have htake : (s.takeWhile fun c => 48 ≤ c && c ≤ 57) = s := List.takeWhile_eq_self_iff.mpr hall
  rw [digitsValue, htake, foldl_digits]

theorem isDigit_iff {c : UInt8} : isDigit c = true ↔ 48 ≤ c.toNat ∧ c.toNat ≤ 57 := by
  simp [isDigit, UInt8.le_iff_toNat_le]

/-- A number that is as short as the scanner asks is small. -/
theorem ofNumeral_small {s : Bytes} (h : s.all isDigit = true) (hlen : s.length ≤ 4) :
    ofNumeral 10 (s.map fun c => c.toNat - 48) < 10000 := by
  have hdigit : ∀ d ∈ s.map (fun c => c.toNat - 48), d < 10 := by
    intro d hd
    obtain ⟨c, hc, rfl⟩ := List.mem_map.mp hd
    have := isDigit_iff.mp (List.all_eq_true.mp h c hc)
    omega
  have hlt := ofNumeral_lt (by decide) hdigit
  rw [List.length_map] at hlt
  exact Nat.lt_of_lt_of_le hlt (Nat.pow_le_pow_right (by decide) hlen)

/-! ## The text of one piece -/

namespace HackJsonNumbers

theorem loop_copy (long : LongWidth) {c : UInt8} (rest : Bytes) {st : State} (hquote : c ≠ 34)
    (hback : c ≠ 92) (hint : st.inInt = false) (hplain : st.inStr = true ∨ isDigit c = false) :
    loop long (c :: rest) st = loop long rest (st.put c) := by
  rw [loop.eq_def]
  simp only [if_neg hquote, if_neg hback]
  rcases hplain with hstr | hdigit
  · simp [hint, hstr]
  · simp [hint, isdigit_eq, hdigit]

/-- Bytes that mean nothing to the scanner. Inside a string a digit is one of them. -/
theorem loop_copies (long : LongWidth) (str : Bool) (u rest : Bytes) (k : Nat) :
    (u.all fun c => c ≠ 34 && c ≠ 92 && (str || !isDigit c)) = true → ∀ out : Bytes,
    loop long (u ++ rest) ⟨out, str, false, k⟩ = loop long rest ⟨out ++ u, str, false, k⟩ := by
  induction u with
  | nil =>
      intro _ out
      rw [List.nil_append, List.append_nil]
  | cons c u ih =>
      intro h out
      simp only [List.all_cons, Bool.and_eq_true, decide_eq_true_eq, Bool.or_eq_true,
        Bool.not_eq_true'] at h
      obtain ⟨⟨⟨hquote, hback⟩, hplain⟩, hrest⟩ := h
      rw [List.cons_append, loop_copy long _ hquote hback (by rfl) hplain, State.put,
        ih (by simpa using hrest), List.append_assoc]
      rfl

theorem hexValue_plain {d : UInt8} (h : (hexValue d).isSome = true) :
    (d ≠ 34 && d ≠ 92 && (true || !isDigit d)) = true := by
  simp only [Bool.true_or, Bool.and_true, Bool.and_eq_true, decide_eq_true_eq]
  constructor
  · rintro rfl
    exact absurd h (by decide)
  · rintro rfl
    exact absurd h (by decide)

/-- A string is over where the scanner says. -/
theorem loop_string (long : LongWidth) {body : Bytes} (h : StringBody body) (rest : Bytes)
    (k : Nat) : ∀ out : Bytes, loop long (body ++ rest) ⟨out, true, false, k⟩ =
      loop long rest ⟨out ++ body, true, false, k⟩ := by
  induction h with
  | nil =>
      intro out
      rw [List.nil_append, List.append_nil]
  | plain hquote hback _ _ ih =>
      intro out
      rw [List.cons_append, loop_copy long _ hquote hback (by rfl) (.inl (by rfl)), State.put, ih,
        List.append_assoc]
      rfl
  | escape _ _ ih =>
      intro out
      rw [List.cons_append, List.cons_append, loop, if_neg (by decide), if_pos rfl]
      simp only [State.put]
      rw [ih]
      simp only [List.append_assoc, List.singleton_append]
      rfl
  | @unit digits body _ hdigits _ ih =>
      intro out
      have hplain : (digits.all fun c => c ≠ 34 && c ≠ 92 && (true || !isDigit c)) = true :=
        List.all_eq_true.mpr fun d hd => hexValue_plain (List.all_eq_true.mp hdigits d hd)
      rw [List.cons_append, List.cons_append, loop, if_neg (by decide), if_pos rfl,
        List.append_assoc]
      simp only [State.put]
      rw [loop_copies long true _ _ _ hplain, ih]
      simp only [List.append_assoc, List.cons_append, List.nil_append]

/-- No byte of a number ends it. -/
theorem numberByte_plain {c : UInt8} (h : isNumberByte c = true) :
    c ≠ 34 ∧ c ≠ 92 ∧
      (isDigit c = true ∨ ¬(c ≠ 46 ∧ c ≠ 101 ∧ c ≠ 69 ∧ c ≠ 43 ∧ c ≠ 45)) := by
  refine ⟨?_, ?_, ?_⟩
  · rintro rfl
    exact absurd h (by decide)
  · rintro rfl
    exact absurd h (by decide)
  · simp only [isNumberByte, Bool.or_eq_true, decide_eq_true_eq] at h
    tauto

/-- The digits and the other bytes of a number, from the first digit on. -/
theorem loop_number (long : LongWidth) (t rest : Bytes) (k : Nat) :
    t.all isNumberByte = true → ∀ out : Bytes,
    loop long (t ++ rest) ⟨out, false, true, k⟩ = loop long rest ⟨out ++ t, false, true, k⟩ := by
  induction t with
  | nil =>
      intro _ out
      rw [List.nil_append, List.append_nil]
  | cons c t ih =>
      intro h out
      rw [List.all_cons, Bool.and_eq_true] at h
      have hcopy : loop long (c :: (t ++ rest)) ⟨out, false, true, k⟩ =
          loop long (t ++ rest) ⟨out ++ [c], false, true, k⟩ := by
        obtain ⟨hquote, hback, hbyte⟩ := numberByte_plain h.1
        rw [loop.eq_def]
        simp only [if_neg hquote, if_neg hback]
        rcases hbyte with hdigit | hpart
        · simp [isdigit_eq, hdigit, State.put]
        · simp [hpart, State.put]
      rw [List.cons_append, hcopy, ih h.2, List.append_assoc]
      rfl

/-! ## The end of a number -/

theorem delimiter_plain {c : UInt8} (h : isDelimiter c = true) :
    c ≠ 34 ∧ c ≠ 92 ∧ isDigit c = false ∧ c ≠ 46 ∧ c ≠ 101 ∧ c ≠ 69 ∧ c ≠ 43 ∧ c ≠ 45 := by
  have hcases : c = 32 ∨ c = 9 ∨ c = 10 ∨ c = 13 ∨ c = 123 ∨ c = 125 ∨ c = 91 ∨ c = 93 ∨ c = 58 ∨
      c = 44 := by
    simp only [isDelimiter, isBlank, structural?, Bool.or_eq_true, decide_eq_true_eq] at h
    grind
  rcases hcases with rfl | rfl | rfl | rfl | rfl | rfl | rfl | rfl | rfl | rfl <;> decide

/-- The state at a delimiter may as well be the one with the number settled. -/
theorem loop_delimiter (long : LongWidth) {c : UInt8} (hc : isDelimiter c = true) (rest out : Bytes)
    (k : Nat) :
    loop long (c :: rest) ⟨out, false, true, k⟩ =
      loop long (c :: rest) (endNumber long ⟨out, false, true, k⟩) := by
  obtain ⟨hquote, hback, hdigit, hpart⟩ := delimiter_plain hc
  have hclean : (endNumber long ⟨out, false, true, k⟩).inInt = false := by
    simp only [endNumber]
    split
    · split <;> rfl
    · rfl
  rw [loop_copy long rest hquote hback hclean (.inr hdigit), loop.eq_def]
  simp only [if_neg hquote, if_neg hback, isdigit_eq, hdigit]
  simp [hpart]

/-- What `strtol` says about a number that begins with a digit. -/
theorem strtol_digit (long : LongWidth) {d : UInt8} (hd : isDigit d = true) (t : Bytes) :
    (strtol long (d :: t)).rest = (d :: t).dropWhile isDigit ∧
      (((strtol long (d :: t)).erange = true ∨ (strtol long (d :: t)).value > intMax) ↔
        intMax < digitsValue (d :: t)) := by
  have hrange := isDigit_iff.mp hd
  have hspace : isSpace d = false := by
    simp [isSpace, ← UInt8.toNat_inj, UInt8.le_iff_toNat_le]
    omega
  have hneg : d ≠ 45 := by
    rintro rfl
    exact absurd hd (by decide)
  have hpos : d ≠ 43 := by
    rintro rfl
    exact absurd hd (by decide)
  have hmax : intMax ≤ long.max := by cases long <;> decide
  have hhead : ((d :: t).head?.any isdigit) = true := hd
  have hmin : ¬((digitsValue (d :: t) : Int) < -long.max - 1) := by
    have : 0 ≤ intMax := by decide
    omega
  rw [strtol, List.dropWhile_cons_of_neg (by simp [hspace])]
  simp only [List.head?_cons, Option.some.injEq, hneg, hpos, or_self, if_false, Option.any_some,
    isdigit_eq, hd, Bool.true_eq_false, hmin]
  split
  · next hlt => exact ⟨rfl, iff_of_true (.inl rfl) (lt_of_le_of_lt hmax hlt)⟩
  · exact ⟨rfl, by simp⟩

/-- Whether the text of a number from its first digit on is that of a big one. -/
def isBig (u : Bytes) : Bool :=
  isDigits u && intMax < ofNumeral 10 (u.map fun c => c.toNat - 48)

theorem endNumber_eq (long : LongWidth) {d : UInt8} (hd : isDigit d = true) (t out : Bytes) :
    endNumber long ⟨out ++ d :: t, false, true, out.length⟩ =
      ⟨out ++ d :: t ++ (if isBig (d :: t) then [46, 48] else []), false, false, out.length⟩ := by
  obtain ⟨hrest, hbig⟩ := strtol_digit long hd t
  have hoff : (out ++ d :: t).length - out.length = (d :: t).length := by
    rw [List.length_append, Nat.add_sub_cancel_left]
  have hdrop : (out ++ d :: t).drop out.length = d :: t := List.drop_left
  simp only [endNumber, State.off, hoff, hdrop, hrest, hbig]
  by_cases hall : (d :: t).all isDigit = true
  · have hvalue := digitsValue_of_isDigits hall
    have hend : (d :: t).dropWhile isDigit = [] :=
      List.dropWhile_eq_nil_iff.mpr (List.all_eq_true.mp hall)
    have hint : isBig (d :: t) = decide (intMax < digitsValue (d :: t)) := by
      rw [isBig, isDigits, hall, hvalue]
      rfl
    rw [hint]
    simp only [hend, true_and, List.length_cons]
    by_cases hlen : t.length + 1 > 4
    · rw [if_pos hlen]
      by_cases hlt : intMax < (digitsValue (d :: t) : Int)
      · simp [State.put, hlt]
      · simp [hlt]
    · have hsmall := ofNumeral_small hall (Nat.le_of_not_lt hlen)
      have hlt : ¬intMax < (digitsValue (d :: t) : Int) := by
        rw [hvalue, intMax]
        omega
      simp [hlen, hlt]
  · have hend : (d :: t).dropWhile isDigit ≠ [] :=
      fun h => hall (List.all_eq_true.mpr (List.dropWhile_eq_nil_iff.mp h))
    have hint : isBig (d :: t) = false := by
      rw [isBig, isDigits, Bool.eq_false_iff.mpr hall]
      rfl
    simp [hint, hend]

end HackJsonNumbers

/-! ## The text -/

/-- The word in place of `w`: an integer whose absolute value is above `INT_MAX` gets
a fraction. -/
def floatWord (w : Literal) : Bytes :=
  match integer? w.1 with
  | some n => if intMax < n then w.1 ++ ascii ".0" else w.1
  | none => w.1

namespace HackJsonNumbers

/-- The sign of a number is not looked at. -/
theorem floatWord_number {w : Literal} {d : UInt8} {t : Bytes} (hd : isDigit d = true)
    (hw : w.1 = d :: t ∨ w.1 = 45 :: d :: t) :
    floatWord w = w.1 ++ (if isBig (d :: t) then [46, 48] else []) := by
  have hunsigned : (if w.1.head? = some 45 then w.1.tail else w.1) = d :: t := by
    rcases hw with hw | hw
    · rw [hw, List.head?_cons, if_neg]
      rintro ⟨⟩
      exact absurd hd (by decide)
    · rw [hw]
      rfl
  rw [floatWord, integer?, hunsigned]
  by_cases hdigits : isDigits (d :: t) = true
  · simp only [isBig, hdigits, if_true, Bool.true_and, decide_eq_true_eq]
    split
    · rfl
    · exact (List.append_nil _).symm
  · simp only [isBig, hdigits, Bool.false_and, Bool.false_eq_true, if_false]
    exact (List.append_nil _).symm

/-- A name holds no digit. -/
theorem loop_name (long : LongWidth) {w : Bytes}
    (hw : w = ascii "true" ∨ w = ascii "false" ∨ w = ascii "null") (rest out : Bytes) (k : Nat) :
    loop long (w ++ rest) ⟨out, false, false, k⟩ = loop long rest ⟨out ++ w, false, false, k⟩ := by
  apply loop_copies
  rcases hw with rfl | rfl | rfl <;> decide

/-- A number without its sign. -/
theorem loop_digits (long : LongWidth) {d c : UInt8} {t : Bytes} (hd : isDigit d = true)
    (ht : t.all isNumberByte = true) (hc : isDelimiter c = true) (rest out : Bytes) (k : Nat) :
    loop long (d :: t ++ c :: rest) ⟨out, false, false, k⟩ =
      loop long (c :: rest) ⟨out ++ d :: t ++ (if isBig (d :: t) then [46, 48] else []),
        false, false, out.length⟩ := by
  obtain ⟨hquote, hback, -⟩ := numberByte_plain (isNumberByte_of_isDigit hd)
  have hfirst : loop long (d :: (t ++ c :: rest)) ⟨out, false, false, k⟩ =
      loop long (t ++ c :: rest) ⟨out ++ [d], false, true, out.length⟩ := by
    rw [loop.eq_def]
    simp only [if_neg hquote, if_neg hback, isdigit_eq, hd]
    rfl
  rw [List.cons_append, hfirst, loop_number long t _ _ ht, loop_delimiter long hc,
    List.append_assoc, List.singleton_append, endNumber_eq long hd]

theorem loop_word (long : LongWidth) (w : Literal) {c : UInt8} (hc : isDelimiter c = true)
    (rest out : Bytes) (k : Nat) :
    ∃ k', loop long (w.1 ++ c :: rest) ⟨out, false, false, k⟩ =
      loop long (c :: rest) ⟨out ++ floatWord w, false, false, k'⟩ := by
  have hliteral : (w.1 = ascii "true" ∨ w.1 = ascii "false" ∨ w.1 = ascii "null") ∨
      isNumber w.1 = true := by
    have := w.2
    simpa [isLiteral, or_assoc] using this
  rcases hliteral with hname | hnumber
  · refine ⟨k, ?_⟩
    have hfloat : floatWord w = w.1 := by
      rw [floatWord]
      rcases hname with hname | hname | hname <;> rw [hname] <;> rfl
    rw [loop_name long hname, hfloat]
  · obtain ⟨d, t, hw, hd, ht⟩ := isNumber_cases hnumber
    rw [floatWord_number hd hw]
    rcases hw with hw | hw
    · rw [hw, loop_digits long hd ht hc, List.append_assoc]
      exact ⟨_, rfl⟩
    · have hsign : loop long (45 :: (d :: t ++ c :: rest)) ⟨out, false, false, k⟩ =
          loop long (d :: t ++ c :: rest) ⟨out ++ [45], false, false, k⟩ :=
        loop_copies long false [45] _ k (by decide) out
      rw [hw, List.cons_append, hsign, loop_digits long hd ht hc]
      simp only [List.append_assoc, List.cons_append]
      exact ⟨_, rfl⟩

/-- Where there is no number, a delimiter is copied. -/
theorem loop_clean (long : LongWidth) {c : UInt8} (hc : isDelimiter c = true) (rest out : Bytes)
    (k : Nat) :
    loop long (c :: rest) ⟨out, false, false, k⟩ = loop long rest ⟨out ++ [c], false, false, k⟩ := by
  obtain ⟨hquote, hback, hdigit, -⟩ := delimiter_plain hc
  exact loop_copy long rest hquote hback rfl (.inr hdigit)

theorem loop_quoted (long : LongWidth) {body : Bytes} (hbody : StringBody body) (rest out : Bytes)
    (k : Nat) :
    loop long (34 :: (body ++ [34]) ++ rest) ⟨out, false, false, k⟩ =
      loop long rest ⟨out ++ 34 :: (body ++ [34]), false, false, k⟩ := by
  have hquote : ∀ (str : Bool) (rest out : Bytes), loop long (34 :: rest) ⟨out, str, false, k⟩ =
      loop long rest ⟨out ++ [34], !str, false, k⟩ := by
    intro str rest out
    rw [loop.eq_def]
    rfl
  rw [List.cons_append, List.append_assoc, hquote, Bool.not_false, loop_string long hbody,
    List.singleton_append, hquote]
  simp only [List.append_assoc, List.cons_append, List.nil_append, Bool.not_true]

theorem loop_pieces (long : LongWidth) {pieces : List Piece}
    (h : Settled (pieces.flatMap Piece.tokens)) : ∀ (out : Bytes) (k : Nat),
    ∃ k', loop long (pieces.flatMap Piece.text) ⟨out, false, false, k⟩ =
      ⟨out ++ pieces.flatMap (Piece.mapWord floatWord), false, false, k'⟩ := by
  induction pieces with
  | nil =>
      intro out k
      exact ⟨k, by rw [List.flatMap_nil, List.flatMap_nil, List.append_nil]; rfl⟩
  | cons p pieces ih =>
      intro out k
      rw [List.flatMap_cons] at h
      rw [List.flatMap_cons, List.flatMap_cons, ← List.append_assoc]
      cases p with
      | blank c hc =>
          have hdelim : isDelimiter c = true := by rw [isDelimiter, hc, Bool.true_or]
          obtain ⟨k', hpieces⟩ := ih h (out ++ [c]) k
          exact ⟨k', (loop_clean long hdelim _ out k).trans hpieces⟩
      | mark c t hc =>
          have hdelim : isDelimiter c = true := by
            rw [isDelimiter, hc, Option.isSome_some, Bool.or_true]
          obtain ⟨k', hpieces⟩ := ih (settled_tail h) (out ++ [c]) k
          exact ⟨k', (loop_clean long hdelim _ out k).trans hpieces⟩
      | string body hbody =>
          obtain ⟨k', hpieces⟩ := ih h (out ++ 34 :: (body ++ [34])) k
          exact ⟨k', (loop_quoted long hbody _ out k).trans hpieces⟩
      | word w =>
          obtain ⟨hfirst, hrest⟩ := h
          obtain ⟨c, text, htext, hc⟩ := delimiter_of_markFirst hfirst
          obtain ⟨k₁, hword⟩ := loop_word long w hc text out k
          obtain ⟨k₂, hpieces⟩ := ih hrest (out ++ floatWord w) k₁
          refine ⟨k₂, ?_⟩
          rw [htext] at hpieces ⊢
          exact hword.trans hpieces

end HackJsonNumbers

/-- The numbers that are too big are written as floating-point numbers, and nothing
else is changed. -/
theorem hackJsonNumbers_document (long : LongWidth) (d : Document)
    (hroot : d.value.isContainer = true) :
    hackJsonNumbers long d.text = d.mapWords floatWord := by
  have hsettled : Settled (d.pieces.flatMap Piece.tokens) := by
    rw [d.spells]
    exact Value.settled_root hroot
  obtain ⟨k, h⟩ := HackJsonNumbers.loop_pieces long hsettled [] 0
  rw [hackJsonNumbers, Document.text, h]
  rfl

end AlphaMiner
