import AlphaMiner.Lib.JsonScan
import AlphaMiner.Proofs.Jansson.Stream

/-!
# The lexer reads a string

It goes over a string twice. The first pass looks for the closing quotation mark and
checks the form of the escapes, which is `splitBody`; the second undoes them, which is
`decodeBody`. The one difference is `\u0000`, which the second pass refuses, so that no
string has a zero byte in it (`lexScanString_at`).
-/

namespace AlphaMiner.Jansson

open Lib Lib.JsonText

/-! ## The first pass -/

theorem isxdigit_iff (c : UInt8) : isxdigit c = true ↔ (hexValue c).isSome = true := by
  have hdigit : isdigit c = isDigit c := rfl
  rw [isxdigit, hexValue, hdigit]
  by_cases h₁ : isDigit c = true
  · simp [h₁]
  by_cases h₂ : (65 ≤ c && c ≤ 70) = true
  · simp [h₁, h₂]
  by_cases h₃ : (97 ≤ c && c ≤ 102) = true
  · simp [h₁, h₂, h₃]
  · simp [h₁, h₂, h₃]

theorem isxdigit_eof : isxdigit eof = false := by decide

theorem scanHex_at {done : Bool} : ∀ (n : Nat) {lex : Lex} {p pre : Bytes}, At lex.stream p done →
    lex.savedText = pre ++ [p.headD eof] →
    (∃ digits q lex', digits.length = n ∧ digits.all (fun d => (hexValue d).isSome) = true ∧
      p = digits ++ q ∧ scanHex n (p.headD eof) lex = (true, q.headD eof, lex') ∧
      At lex'.stream q done ∧ lex'.savedText = pre ++ digits ++ [q.headD eof] ∧ Kept lex lex') ∨
    (∃ c lex', scanHex n (p.headD eof) lex = (false, c, lex') ∧ Kept lex lex' ∧
      ∀ digits q : Bytes, digits.length = n →
        digits.all (fun d => (hexValue d).isSome) = true → p ≠ digits ++ q) := by
  intro n
  induction n with
  | zero =>
      intro lex p pre hat hsaved
      refine .inl ⟨[], p, lex, rfl, rfl, rfl, rfl, hat, ?_, rfl, rfl⟩
      rw [List.append_nil]
      exact hsaved
  | succ n ih =>
      intro lex p pre hat hsaved
      rw [scanHex]
      cases p with
      | nil =>
          refine .inr ⟨eof, lex, ?_, ⟨rfl, rfl⟩, fun digits q hlen _ h => ?_⟩
          · rw [List.headD_nil, isxdigit_eof]
            rfl
          · have hnil := (List.append_eq_nil_iff.mp h.symm).1
            rw [hnil] at hlen
            cases hlen
      | cons c q =>
          rw [List.headD_cons] at hsaved ⊢
          by_cases hc : isxdigit c = true
          · obtain ⟨lex₁, hget, hat₁, hsaved₁, hkept₁⟩ := lexGetSave_at (hat.on c q rfl)
            rw [hsaved] at hsaved₁
            rw [hc, hget]
            rcases ih hat₁ hsaved₁ with ⟨digits, r, lex', hlen, hall, rfl, hscan, hat', hsaved', hkept'⟩ |
              ⟨d, lex', hscan, hkept', hno⟩
            · refine .inl ⟨c :: digits, r, lex', congrArg Nat.succ hlen, ?_, rfl, hscan, hat', ?_,
                hkept₁.trans hkept'⟩
              · rw [List.all_cons, (isxdigit_iff c).mp hc, hall]
                rfl
              · rw [hsaved', List.append_assoc pre [c]]
                rfl
            · refine .inr ⟨d, lex', hscan, hkept₁.trans hkept', fun digits r hlen hall h => ?_⟩
              cases digits with
              | nil => cases hlen
              | cons e digits =>
                  rw [List.cons_append] at h
                  rw [List.all_cons, Bool.and_eq_true] at hall
                  exact hno digits r (Nat.succ.inj hlen) hall.2 (List.cons.inj h).2
          · refine .inr ⟨c, lex, ?_, ⟨rfl, rfl⟩, fun digits r hlen hall h => ?_⟩
            · rw [Bool.not_eq_true _ |>.mp hc]
              rfl
            · cases digits with
              | nil => cases hlen
              | cons e digits =>
                  rw [List.cons_append] at h
                  obtain ⟨rfl, -⟩ := List.cons.inj h
                  rw [List.all_cons, Bool.and_eq_true] at hall
                  exact hc ((isxdigit_iff c).mpr hall.1)

theorem escape?_isSome_iff (c : UInt8) : (escape? c).isSome = true ↔
    c = 34 ∨ c = 92 ∨ c = 47 ∨ c = 98 ∨ c = 102 ∨ c = 110 ∨ c = 114 ∨ c = 116 := by
  simp only [escape?, Bool.or_eq_true, decide_eq_true_iff]
  split_ifs with h₁ h₂ h₃ h₄ h₅ h₆
  · rcases h₁ with (rfl | rfl) | rfl <;> decide
  · subst h₂; decide
  · subst h₃; decide
  · subst h₄; decide
  · subst h₅; decide
  · subst h₆; decide
  · simp only [not_or] at h₁
    simp [h₁, h₂, h₃, h₄, h₅, h₆]

/-- The first pass splits off the body of the string, if there is one. -/
def Splits (lex lex' : Lex) (found : Bool) (pre : Bytes) (done : Bool) :
    Option (Bytes × Bytes) → Prop
  | none => found = false ∧ lex'.token = lex.token
  | some (body, rest) => found = true ∧ Holds lex'.stream rest done ∧
      lex'.savedText = pre ++ body ++ [34] ∧ Kept lex lex'

theorem Splits.map {lex lex₁ lex' : Lex} {found : Bool} {pre front : Bytes} {done : Bool}
    {part : Option (Bytes × Bytes)} (h : Splits lex₁ lex' found (pre ++ front) done part)
    (hkept : Kept lex lex₁) :
    Splits lex lex' found pre done (part.map fun s => (front ++ s.1, s.2)) := by
  cases part with
  | none => exact ⟨h.1, h.2.trans hkept.token⟩
  | some s =>
      obtain ⟨hfound, hholds, hsaved, hkept'⟩ := h
      refine ⟨hfound, hholds, ?_, hkept.trans hkept'⟩
      rw [hsaved, List.append_assoc pre]

theorem splitBody_nil : splitBody [] = none := by rw [splitBody.eq_def]

theorem splitBody_backslash : splitBody [92] = none := by rw [splitBody.eq_def]; rfl

theorem escapeError (lex : Lex) (msg : Bytes) :
    (errorSet (lexUngetUnsave lex) msg).token = lex.token :=
  errorSet_token _ _

/-- An escape is as long for the first pass as it is in the body. -/
theorem scanEscape_at {lex : Lex} {q pre : Bytes} {done : Bool} (hat : At lex.stream (92 :: q) done)
    (hsaved : lex.savedText = pre ++ [92]) :
    (∃ x q' lex', q = x ++ q' ∧
      splitBody (92 :: q) = (splitBody q').map (fun s => (92 :: (x ++ s.1), s.2)) ∧
      scanEscape lex = (true, q'.headD eof, lex') ∧ At lex'.stream q' done ∧
      lex'.savedText = pre ++ 92 :: x ++ [q'.headD eof] ∧ Kept lex lex') ∨
    (splitBody (92 :: q) = none ∧
      ∃ c lex', scanEscape lex = (false, c, lex') ∧ lex'.token = lex.token) := by
  obtain ⟨lex₁, hget₁, hat₁, hsaved₁, hkept₁⟩ := lexGetSave_at (hat.on 92 q rfl)
  rw [hsaved] at hsaved₁
  rw [scanEscape, hget₁]
  cases q with
  | nil =>
      exact .inr ⟨splitBody_backslash, eof, _, rfl, (escapeError lex₁ _).trans hkept₁.token⟩
  | cons e r =>
      obtain ⟨lex₂, hget₂, hat₂, hsaved₂, hkept₂⟩ := lexGetSave_at (hat₁.on e r rfl)
      rw [hsaved₁, List.headD_cons] at hsaved₂
      have hkept := hkept₁.trans hkept₂
      rw [List.headD_cons]
      dsimp only
      by_cases hu : e = 117
      · subst hu
        rw [if_pos rfl, hget₂]
        dsimp only
        rcases scanHex_at 4 hat₂ hsaved₂ with
          ⟨digits, s, lex₃, hdigits, hall, rfl, hscan, hat₃, hsaved₃, hkept₃⟩ |
          ⟨d, lex₃, hscan, hkept₃, hno⟩
        · obtain ⟨d₁, d₂, d₃, d₄, rfl⟩ : ∃ d₁ d₂ d₃ d₄, digits = [d₁, d₂, d₃, d₄] := by
            match digits, hdigits with
            | [d₁, d₂, d₃, d₄], _ => exact ⟨d₁, d₂, d₃, d₄, rfl⟩
          rw [hscan]
          refine .inl ⟨[117, d₁, d₂, d₃, d₄], s, lex₃, rfl, ?_, rfl, hat₃, by simpa using hsaved₃,
            hkept.trans hkept₃⟩
          simp only [List.cons_append, List.nil_append]
          rw [splitBody_unit, if_pos hall]
        · rw [hscan]
          have hsplit : splitBody (92 :: 117 :: r) = none := by
            by_cases hshort : ∀ d₁ d₂ d₃ d₄ rest, r ≠ d₁ :: d₂ :: d₃ :: d₄ :: rest
            · exact splitBody_short hshort
            · simp only [not_forall, not_not] at hshort
              obtain ⟨d₁, d₂, d₃, d₄, rest, rfl⟩ := hshort
              rw [splitBody_unit, if_neg]
              exact fun hall => hno [d₁, d₂, d₃, d₄] rest rfl hall rfl
          exact .inr ⟨hsplit, d, _, rfl, (escapeError lex₃ _).trans (hkept.trans hkept₃).token⟩
      · rw [if_neg hu]
        by_cases hescape : (escape? e).isSome = true
        · rw [if_pos ((escape?_isSome_iff e).mp hescape), hget₂]
          refine .inl ⟨[e], r, lex₂, rfl, ?_, rfl, hat₂, by simpa using hsaved₂, hkept⟩
          rw [splitBody_escape r hu, if_pos hescape]
          rfl
        · rw [if_neg fun h => hescape ((escape?_isSome_iff e).mpr h)]
          refine .inr ⟨?_, e, _, rfl, (escapeError lex₁ _).trans hkept₁.token⟩
          rw [splitBody_escape r hu, if_neg hescape]

theorem scanQuoted_at {done : Bool} : ∀ {fuel : Nat} {lex : Lex} {p pre : Bytes},
    At lex.stream p done → lex.savedText = pre ++ [p.headD eof] → p.length < fuel →
    Splits lex (scanQuoted fuel (p.headD eof) lex).2 (scanQuoted fuel (p.headD eof) lex).1 pre done
      (splitBody p) := by
  intro fuel
  induction fuel with
  | zero => exact fun _ _ h => absurd h (Nat.not_lt_zero _)
  | succ fuel ih =>
      intro lex p pre hat hsaved hfuel
      cases p with
      | nil =>
          rw [scanQuoted, List.headD_nil, if_neg (by decide), if_pos rfl, splitBody_nil]
          refine ⟨rfl, ?_⟩
          rw [prematureEnd]
          split
          · exact errorSet_token _ _
          · rfl
      | cons c q =>
          rw [List.headD_cons] at hsaved ⊢
          rw [scanQuoted]
          by_cases hquote : c = 34
          · subst hquote
            rw [if_pos rfl, splitBody_quote]
            refine ⟨rfl, hat.on 34 q rfl, ?_, rfl, rfl⟩
            rw [hsaved, List.append_nil]
          have hne : c ≠ eof := (hat.back.ne List.mem_cons_self).2
          have hlen : q.length < fuel := Nat.lt_of_succ_lt_succ hfuel
          rw [if_neg hquote, if_neg hne]
          by_cases hcontrol : c ≤ 0x1F
          · have hlt : c < 32 := by
              rw [UInt8.le_iff_toNat_le] at hcontrol
              rw [UInt8.lt_iff_toNat_lt]
              exact Nat.lt_succ_of_le hcontrol
            have hback : c ≠ 92 := by
              rintro rfl
              exact absurd hlt (by decide)
            rw [if_pos hcontrol, splitBody_plain q hquote hback, if_pos hlt]
            exact ⟨rfl, errorSet_token _ _⟩
          rw [if_neg hcontrol]
          by_cases hback : c = 92
          · subst hback
            rw [if_pos rfl]
            rcases scanEscape_at hat hsaved with
              ⟨x, r, lex₁, rfl, hsplit, hscan, hat₁, hsaved₁, hkept₁⟩ | ⟨hsplit, d, lex₁, hscan, htoken⟩
            · rw [hscan, hsplit]
              have hshort : r.length < fuel := by
                rw [List.length_append] at hlen
                omega
              have hrest : Splits lex₁ _ _ (pre ++ 92 :: x) done _ := ih hat₁ hsaved₁ hshort
              exact hrest.map hkept₁
            · rw [hscan, hsplit]
              exact ⟨rfl, htoken⟩
          · obtain ⟨lex₁, hget₁, hat₁, hsaved₁, hkept₁⟩ := lexGetSave_at (hat.on c q rfl)
            rw [hsaved] at hsaved₁
            have hlt : ¬c < 32 := by
              rw [UInt8.le_iff_toNat_le] at hcontrol
              rw [UInt8.lt_iff_toNat_lt]
              exact fun h => hcontrol (Nat.le_of_lt_succ h)
            rw [if_neg hback, hget₁, splitBody_plain q hquote hback, if_neg hlt]
            have hrest : Splits lex₁ _ _ (pre ++ [c]) done _ := ih hat₁ hsaved₁ hlen
            exact hrest.map hkept₁

/-! ## The second pass -/

theorem hexOf_of_hexValue {c : UInt8} {x : Nat} (h : hexValue c = some x) :
    hexOf c = x ∧ x < 16 := by
  have hdigit : isdigit c = isDigit c := rfl
  have hnat := c.toNat_lt
  rw [hexValue] at h
  rw [hexOf, hdigit]
  split at h
  · next hd =>
      obtain rfl := Option.some.inj h
      rw [if_pos hd]
      simp only [isDigit, Bool.and_eq_true, decide_eq_true_iff, UInt8.le_iff_toNat_le,
        UInt8.reduceToNat] at hd
      exact ⟨rfl, by omega⟩
  · next hd =>
      rw [if_neg hd]
      split at h
      · next hupper =>
          obtain rfl := Option.some.inj h
          simp only [Bool.and_eq_true, decide_eq_true_iff, UInt8.le_iff_toNat_le,
            UInt8.reduceToNat] at hupper
          have hlower : ¬islower c = true := by
            simp only [islower, Bool.and_eq_true, decide_eq_true_iff, UInt8.le_iff_toNat_le,
              UInt8.reduceToNat]
            omega
          rw [if_neg hlower]
          exact ⟨by omega, by omega⟩
      · split at h
        · next hlow =>
            obtain rfl := Option.some.inj h
            simp only [Bool.and_eq_true, decide_eq_true_iff, UInt8.le_iff_toNat_le,
              UInt8.reduceToNat] at hlow
            have hlower : islower c = true := by
              simp only [islower, Bool.and_eq_true, decide_eq_true_iff, UInt8.le_iff_toNat_le,
                UInt8.reduceToNat]
              omega
            rw [if_pos hlower]
            exact ⟨by omega, by omega⟩
        · cases h

/-- Four digits, and the code unit that they spell. -/
theorem exists_unit {digits : Bytes} (hlen : digits.length = 4)
    (hall : digits.all (fun d => (hexValue d).isSome) = true) : ∃ v, v < 0x10000 ∧
      (∀ rest, decodeUnicodeEscape (117 :: (digits ++ rest)) = v) ∧
      ∀ (tokens : List Token) (s : Bytes) (high : Option Nat) (rest : Bytes),
        (Lexer.mk tokens (.hex s high 0 4)).run (digits ++ rest) =
          (codeUnit s high v).bind fun mode => (Lexer.mk tokens mode).run rest := by
  match digits, hlen with
  | [d₁, d₂, d₃, d₄], _ =>
      simp only [List.all_cons, List.all_nil, Bool.and_true, Bool.and_eq_true,
        Option.isSome_iff_exists] at hall
      obtain ⟨⟨x₁, h₁⟩, ⟨x₂, h₂⟩, ⟨x₃, h₃⟩, x₄, h₄⟩ := hall
      have b₁ := hexOf_of_hexValue h₁
      have b₂ := hexOf_of_hexValue h₂
      have b₃ := hexOf_of_hexValue h₃
      have b₄ := hexOf_of_hexValue h₄
      refine ⟨16 * (16 * (16 * x₁ + x₂) + x₃) + x₄, by omega, fun rest => ?_,
        fun tokens s high rest => ?_⟩
      · simp only [decodeUnicodeEscape, List.drop_succ_cons, List.drop_zero, List.cons_append,
          List.nil_append, List.take_succ_cons, List.take_zero, List.foldl_cons, List.foldl_nil,
          Nat.shiftLeft_eq, b₁.1, b₂.1, b₃.1, b₄.1]
        omega
      · simp only [List.cons_append, List.nil_append]
        rw [Lexer.run_hex, h₁, h₂, h₃, h₄]
        rfl

theorem escape?_shortEscape {c x : UInt8} (h : escape? c = some x) (hc : c ≠ 0) :
    shortEscape c = x ∧ x ≠ 0 ∧ c ≠ 117 := by
  have hsome : (escape? c).isSome = true := by rw [h]; rfl
  rcases (escape?_isSome_iff c).mp hsome with rfl | rfl | rfl | rfl | rfl | rfl | rfl | rfl
  all_goals
    obtain rfl := Option.some.inj h
    decide

theorem zero_not_mem_encode {k : Char} (hk : k.toNat ≠ 0) : 0 ∉ String.utf8EncodeChar k := by
  rcases utf8EncodeChar_cases k with ⟨b, hb, hsingle⟩ | hhigh
  · rcases utf8EncodeChar_cases_toNat k with ⟨hv, henc⟩ | ⟨-, -, henc⟩ | ⟨-, -, -, henc⟩ |
      ⟨-, -, henc⟩
    · rw [henc, List.mem_singleton]
      intro hzero
      have htoNat := congrArg UInt8.toNat hzero
      rw [toNat_ofNat_of_lt (by omega)] at htoNat
      exact hk htoNat.symm
    all_goals
      rw [hsingle] at henc
      cases henc
  · exact fun hzero => absurd (hhigh 0 hzero) (by decide)

/-- A code point that is no half of a pair is written as its character. -/
theorem encode_unit {v : Nat} (hmax : v ≤ 0x10FFFF) (hs : ¬(0xD800 ≤ v ∧ v ≤ 0xDFFF)) :
    (utf8Encode v).getD [] = String.utf8EncodeChar (.ofNat v) ∧
      (v ≠ 0 → 0 ∉ String.utf8EncodeChar (.ofNat v)) := by
  obtain ⟨k, rfl⟩ := exists_char hmax hs
  rw [utf8Encode_char, Char.ofNat_toNat]
  exact ⟨rfl, zero_not_mem_encode⟩

theorem codeUnit_high (s : Bytes) {v : Nat} (h : 0xD800 ≤ v ∧ v ≤ 0xDBFF) :
    codeUnit s none v = some (.low s v) :=
  if_pos ⟨h.1, Nat.lt_succ_of_le h.2⟩

theorem codeUnit_low (s : Bytes) {v : Nat} (h : 0xDC00 ≤ v ∧ v ≤ 0xDFFF) :
    codeUnit s none v = none := by
  rw [codeUnit]
  exact (if_neg (by omega)).trans (if_pos ⟨h.1, Nat.lt_succ_of_le h.2⟩)

theorem codeUnit_plain (s : Bytes) {v : Nat} (h : ¬(0xD800 ≤ v ∧ v ≤ 0xDFFF)) :
    codeUnit s none v = some (.string (s ++ String.utf8EncodeChar (.ofNat v))) := by
  rw [codeUnit]
  exact (if_neg (by omega)).trans (if_neg (by omega))

theorem codeUnit_pair (s : Bytes) (high : Nat) {v : Nat} (h : 0xDC00 ≤ v ∧ v ≤ 0xDFFF) :
    codeUnit s (some high) v = some (.string (s ++ String.utf8EncodeChar
      (.ofNat (0x10000 + 0x400 * (high - 0xd800) + (v - 0xdc00))))) :=
  if_pos ⟨h.1, Nat.lt_succ_of_le h.2⟩

theorem codeUnit_single (s : Bytes) (high : Nat) {v : Nat} (h : ¬(0xDC00 ≤ v ∧ v ≤ 0xDFFF)) :
    codeUnit s (some high) v = none :=
  if_neg fun hlt => h ⟨hlt.1, Nat.le_of_lt_succ hlt.2⟩

/-- The second pass on a body, in front of the closing quotation mark. -/
theorem unescape_iff : ∀ {fuel : Nat} {body t u : Bytes}, StringBody body → 0 ∉ body → 0 ∉ t →
    body.length < fuel → (unescape fuel (body ++ [34]) t = .ok u ↔
      Lexer.run ⟨[], .string t⟩ body = some ⟨[], .string u⟩ ∧ 0 ∉ u) := by
  intro fuel
  induction fuel with
  | zero => exact fun _ _ _ h => absurd h (Nat.not_lt_zero _)
  | succ fuel ih =>
      intro body t u hbody hzero ht hfuel
      have happend : ∀ c : UInt8, c ≠ 0 → 0 ∉ t ++ [c] := by
        intro c hc hmem
        rcases List.mem_append.mp hmem with hmem | hmem
        · exact ht hmem
        · exact hc (List.mem_singleton.mp hmem).symm
      rw [unescape]
      cases hbody with
      | nil =>
          rw [List.nil_append, List.headD_cons, if_pos rfl, Lexer.run_nil]
          constructor
          · intro h
            cases h
            exact ⟨rfl, ht⟩
          · rintro ⟨h, -⟩
            cases h
            rfl
      | @plain c rest hquote hback hcontrol hrest =>
          rw [List.mem_cons, not_or] at hzero
          rw [List.cons_append, List.headD_cons, if_neg hquote, if_neg hback, List.tail_cons,
            ih hrest hzero.2 (happend c (Ne.symm hzero.1)) (Nat.lt_of_succ_lt_succ hfuel),
            Lexer.run_cons, Lexer.step]
          simp only [if_neg hquote, if_neg hback, if_neg (UInt8.not_lt.mpr hcontrol),
            Option.bind_some]
      | @escape c rest hescape hrest =>
          obtain ⟨x, hx⟩ := Option.isSome_iff_exists.mp hescape
          simp only [List.mem_cons, not_or] at hzero
          obtain ⟨hshort, hxzero, hu⟩ := escape?_shortEscape hx (Ne.symm hzero.2.1)
          rw [List.length_cons, List.length_cons] at hfuel
          rw [List.cons_append, List.headD_cons, if_neg (by decide), if_pos rfl, List.tail_cons,
            List.cons_append]
          dsimp only
          rw [List.headD_cons, if_neg hu, List.tail_cons, hshort,
            ih hrest hzero.2.2 (happend x hxzero) (by omega)]
          simp only [Lexer.run_cons, Lexer.step, if_neg (show (92 : UInt8) ≠ 34 by decide), if_true,
            Option.bind_some, if_neg hu, hx, Option.map_some]
      | @unit digits rest hlen hdigits hrest =>
          obtain ⟨v, hv, hdecode, hrun⟩ := exists_unit hlen hdigits
          have hzeroRest : 0 ∉ rest := fun h =>
            hzero (List.mem_cons_of_mem _ (List.mem_cons_of_mem _ (List.mem_append_right _ h)))
          have hshort : rest.length < fuel := by
            simp only [List.length_cons, List.length_append] at hfuel
            omega
          have hdrop : ((117 : UInt8) :: (digits ++ (rest ++ [34]))).drop 5 = rest ++ [34] := by
            rw [List.drop_succ_cons, ← hlen, List.drop_left]
          have hstart : Lexer.run ⟨[], .string t⟩ (92 :: 117 :: (digits ++ rest)) =
              (codeUnit t none v).bind fun mode => (Lexer.mk [] mode).run rest :=
            hrun [] t none rest
          have hencode : ∀ k, k ≠ 0 → k ≤ 0x10FFFF → ¬(0xD800 ≤ k ∧ k ≤ 0xDFFF) →
              (utf8Encode (k : Nat)).getD [] = String.utf8EncodeChar (.ofNat k) ∧
              0 ∉ t ++ String.utf8EncodeChar (.ofNat k) := by
            intro k hk hmax hs
            obtain ⟨henc, hclean⟩ := encode_unit hmax hs
            exact ⟨henc, fun hmem => (List.mem_append.mp hmem).elim ht (hclean hk)⟩
          rw [List.cons_append, List.headD_cons, if_neg (by decide), if_pos rfl, List.tail_cons,
            List.cons_append, List.append_assoc]
          dsimp only
          rw [List.headD_cons, if_pos rfl, hdecode, hdrop, hstart]
          by_cases hhigh : 0xD800 ≤ v ∧ v ≤ 0xDBFF
          · rw [if_pos hhigh, codeUnit_high t hhigh, Option.bind_some]
            -- the second half has to stand right behind the first
            cases hrest with
            | nil =>
                rw [if_neg (by decide)]
                constructor
                · intro h
                  cases h
                · rintro ⟨h, -⟩
                  cases h
            | @plain c rest hquote hback hcontrol hrest =>
                rw [if_neg (fun h => hback h.1), Lexer.run_cons, Lexer.step]
                simp only [if_neg hback, Option.bind_none]
                constructor
                · intro h
                  cases h
                · rintro ⟨h, -⟩
                  cases h
            | @escape c rest hescape hrest =>
                have hu : c ≠ 117 := by
                  rintro rfl
                  cases hescape
                rw [if_neg (fun h => hu h.2), Lexer.run_cons, Lexer.step]
                simp only [if_true, Option.bind_some, Lexer.run_cons, Lexer.step, if_neg hu,
                  Option.bind_none]
                constructor
                · intro h
                  cases h
                · rintro ⟨h, -⟩
                  cases h
            | @unit digits₂ rest hlen₂ hdigits₂ hrest =>
                obtain ⟨v₂, hv₂, hdecode₂, hrun₂⟩ := exists_unit hlen₂ hdigits₂
                have hdrop₂ : ((117 : UInt8) :: (digits₂ ++ (rest ++ [34]))).drop 5 =
                    rest ++ [34] := by
                  rw [List.drop_succ_cons, ← hlen₂, List.drop_left]
                have hlow : Lexer.run ⟨[], .low t v⟩ (92 :: 117 :: (digits₂ ++ rest)) =
                    (codeUnit t (some v) v₂).bind fun mode => (Lexer.mk [] mode).run rest :=
                  hrun₂ [] t (some v) rest
                rw [hlow, List.cons_append, List.headD_cons, List.tail_cons,
                  List.cons_append, List.headD_cons, if_pos ⟨rfl, rfl⟩, List.append_assoc,
                  hdecode₂, hdrop₂]
                by_cases hpair : 0xDC00 ≤ v₂ ∧ v₂ ≤ 0xDFFF
                · rw [if_pos hpair, codeUnit_pair t v hpair, Option.bind_some]
                  have hvalue : (v - 0xD800) <<< 10 + (v₂ - 0xDC00) + 0x10000 =
                      0x10000 + 0x400 * (v - 0xD800) + (v₂ - 0xDC00) := by
                    rw [Nat.shiftLeft_eq]
                    omega
                  rw [hvalue]
                  obtain ⟨henc, hclean⟩ :=
                    hencode (0x10000 + 0x400 * (v - 0xD800) + (v₂ - 0xDC00)) (by omega) (by omega)
                      (by omega)
                  have hshort₂ : rest.length < fuel := by
                    simp only [List.length_cons, List.length_append] at hshort
                    omega
                  have hzero₂ : 0 ∉ rest := fun h => hzeroRest (List.mem_cons_of_mem _
                    (List.mem_cons_of_mem _ (List.mem_append_right _ h)))
                  rw [henc]
                  exact ih hrest hzero₂ hclean hshort₂
                · rw [if_neg hpair, codeUnit_single t v hpair]
                  constructor
                  · intro h
                    cases h
                  · rintro ⟨h, -⟩
                    cases h
          · rw [if_neg hhigh]
            by_cases hlow : 0xDC00 ≤ v ∧ v ≤ 0xDFFF
            · rw [if_pos hlow, codeUnit_low t hlow]
              constructor
              · intro h
                cases h
              · rintro ⟨h, -⟩
                cases h
            · rw [if_neg hlow, codeUnit_plain t (by omega), Option.bind_some]
              by_cases hnull : v = 0
              · rw [if_pos hnull]
                constructor
                · intro h
                  cases h
                · rintro ⟨h, hclean⟩
                  obtain ⟨-, -, hsofar⟩ := Lexer.run_body hrest (by rfl) h
                  refine absurd (hsofar.subset (List.mem_append_right t ?_)) hclean
                  rw [hnull]
                  decide
              · rw [if_neg hnull]
                obtain ⟨henc, hclean⟩ := hencode v hnull (by omega) (by omega)
                rw [henc]
                exact ih hrest hzeroRest hclean hshort

/-! ## Both -/

/-- A string is read unless a zero byte would end it. -/
theorem lexScanString_at {lex : Lex} {q : Bytes} {done : Bool} (hholds : Holds lex.stream q done)
    (hsaved : lex.savedText = [34]) :
    match scanString q with
    | some (.string u, rest) =>
        if 0 ∈ u then (lexScanString lex).token = .invalid
        else (lexScanString lex).token = .string u ∧ (lexScanString lex).erange = lex.erange ∧
          Holds (lexScanString lex).stream rest done
    | _ => (lexScanString lex).token = .invalid := by
  have hinvalid : Holds ({ lex with token := .invalid } : Lex).stream q done := hholds
  obtain ⟨lex₁, hget₁, hat₁, hsaved₁, hkept₁⟩ := lexGetSave_at hinvalid
  have hsave : lex₁.savedText = [34] ++ [q.headD eof] := by rw [hsaved₁, hsaved]
  have hquoted := scanQuoted_at hat₁ hsave hat₁.length_lt
  rw [lexScanString, hget₁, scanString]
  dsimp only
  cases hscan : scanQuoted (lex₁.unread + 2) (q.headD eof) lex₁ with
  | mk found lex₂ =>
      rw [hscan] at hquoted
      cases hsplit : splitBody q with
      | none =>
          rw [hsplit] at hquoted
          obtain ⟨rfl, htoken⟩ := hquoted
          exact htoken.trans hkept₁.token
      | some s =>
          obtain ⟨body, rest⟩ := s
          rw [hsplit] at hquoted
          obtain ⟨rfl, hholds₂, hsaved₂, hkept₂⟩ := hquoted
          obtain ⟨hbody, rfl⟩ := splitBody_some hsplit
          have hzero : 0 ∉ body := fun h => (hholds.ne (List.mem_append_left _ h)).1 rfl
          have htext : lex₂.savedText.tail = body ++ [34] := by rw [hsaved₂]; rfl
          have hlong : body.length < lex₂.savedText.length := by
            rw [hsaved₂]
            simp
          have hiff := fun u => unescape_iff (t := []) (u := u) hbody hzero List.not_mem_nil hlong
          rw [Option.bind_some]
          dsimp only
          rw [htext, decodeBody.eq_def]
          cases hun : unescape lex₂.savedText.length (body ++ [34]) [] with
          | ok u =>
              obtain ⟨hrun, hclean⟩ := (hiff u).mp hun
              rw [hrun]
              dsimp only [Option.map_some]
              rw [if_neg hclean]
              exact ⟨rfl, (hkept₁.trans hkept₂).erange, hholds₂⟩
          | error msg =>
              have hinvalid : (errorSet lex₂ msg).token = .invalid :=
                (errorSet_token _ _).trans (hkept₂.token.trans hkept₁.token)
              dsimp only
              cases hrun : Lexer.run ⟨[], .string []⟩ body with
              | none => exact hinvalid
              | some l =>
                  obtain ⟨tokens, mode⟩ := l
                  obtain ⟨rfl, hmode, -⟩ := Lexer.run_body hbody (by rfl) hrun
                  cases mode with
                  | string u =>
                      dsimp only [Option.map_some]
                      rw [if_pos]
                      · exact hinvalid
                      · by_contra hclean
                        have hok := (hiff u).mpr ⟨hrun, hclean⟩
                        rw [hun] at hok
                        cases hok
                  | low u high => exact hinvalid
                  | _ => cases hmode

end AlphaMiner.Jansson
