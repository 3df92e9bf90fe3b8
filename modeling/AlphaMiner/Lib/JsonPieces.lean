import AlphaMiner.Lib.JsonText
import AlphaMiner.Lib.Radix

/-!
# JSON texts by their pieces (RFC 8259)

The grammar from the side of the writer: a text is a sequence of pieces, each of
them a blank, a mark, a string as it is written or a word, and the tokens of the
pieces spell a value. Nothing is decoded, so this is every text of the grammar,
also one with an escape that stands for no character.

Words have to be kept apart, and the grammar does so by itself. A word is never
followed by a string or by another word, and in an array or an object it is never
the last token (`Value.settled_array`, `Value.settled_object`).
-/

namespace AlphaMiner.Lib.JsonText

/-! ## Pieces -/

/-- What may stand between the quotation marks of a string. -/
inductive StringBody : Bytes → Prop where
  | nil : StringBody []
  | plain {c : UInt8} {rest : Bytes} (hquote : c ≠ 34) (hback : c ≠ 92) (hcontrol : 32 ≤ c)
      (h : StringBody rest) : StringBody (c :: rest)
  | escape {c : UInt8} {rest : Bytes} (hescape : (escape? c).isSome = true)
      (h : StringBody rest) : StringBody (92 :: c :: rest)
  | unit {digits rest : Bytes} (hlen : digits.length = 4)
      (hdigits : digits.all (fun d => (hexValue d).isSome) = true) (h : StringBody rest) :
      StringBody (92 :: 117 :: (digits ++ rest))

inductive Piece where
  | blank (c : UInt8) (h : isBlank c = true)
  | mark (c : UInt8) (t : Token) (h : structural? c = some t)
  | string (body : Bytes) (h : StringBody body)
  | word (w : Literal)

namespace Piece

def text : Piece → Bytes
  | .blank c _ => [c]
  | .mark c _ _ => [c]
  | .string body _ => 34 :: (body ++ [34])
  | .word w => w.1

/-- A string counts as it is written. -/
def tokens : Piece → List Token
  | .blank _ _ => []
  | .mark _ t _ => [t]
  | .string body _ => [.string body]
  | .word w => [.literal w]

/-- The text of the piece, with something else in place of a word. -/
def mapWord (f : Literal → Bytes) : Piece → Bytes
  | .word w => f w
  | .blank c h => (Piece.blank c h).text
  | .mark c t h => (Piece.mark c t h).text
  | .string body h => (Piece.string body h).text

end Piece

/-- A JSON text. -/
structure Document where
  pieces : List Piece
  value : Value
  spells : pieces.flatMap Piece.tokens = value.tokens

namespace Document

def text (d : Document) : Bytes := d.pieces.flatMap Piece.text

def mapWords (f : Literal → Bytes) (d : Document) : Bytes := d.pieces.flatMap (Piece.mapWord f)

end Document

/-! ## Words stand apart -/

def Token.isMark : Token → Bool
  | .string _ => false
  | .literal _ => false
  | _ => true

/-- Some mark comes first. -/
def MarkFirst (tokens : List Token) : Prop := ∃ t rest, tokens = t :: rest ∧ t.isMark = true

/-- Every literal has a mark behind it. -/
def Settled : List Token → Prop
  | [] => True
  | .literal _ :: rest => MarkFirst rest ∧ Settled rest
  | _ :: rest => Settled rest

theorem settled_cons {t : Token} {rest : List Token} (h : Settled rest)
    (ht : (∃ w, t = .literal w) → MarkFirst rest) : Settled (t :: rest) := by
  cases t with
  | literal w => exact ⟨ht ⟨w, rfl⟩, h⟩
  | _ => exact h

theorem settled_tail {t : Token} {rest : List Token} (h : Settled (t :: rest)) : Settled rest := by
  cases t with
  | literal w => exact h.2
  | _ => exact h

theorem settled_mark {t : Token} {rest : List Token} (ht : t.isMark = true) (h : Settled rest) :
    Settled (t :: rest) ∧ MarkFirst (t :: rest) := by
  refine ⟨settled_cons h ?_, t, rest, rfl, ht⟩
  rintro ⟨w, rfl⟩
  cases ht

theorem settled_separated {tokens rest : List Token} (h : Settled (tokens ++ rest))
    (hrest : Settled rest ∧ MarkFirst rest) :
    Settled (separated tokens ++ rest) ∧ MarkFirst (separated tokens ++ rest) := by
  cases tokens with
  | nil => exact hrest
  | cons t tokens => exact settled_mark (by rfl) h

mutual

theorem Value.settled (v : Value) {rest : List Token} (hrest : Settled rest ∧ MarkFirst rest) :
    Settled (v.tokens ++ rest) := by
  cases v with
  | literal w => exact ⟨hrest.2, hrest.1⟩
  | string s => exact hrest.1
  | array elems =>
      rw [Value.tokens, List.cons_append, List.append_assoc]
      exact settled_elements elems (settled_mark (by rfl) hrest.1)
  | object members =>
      rw [Value.tokens, List.cons_append, List.append_assoc]
      exact settled_members members (settled_mark (by rfl) hrest.1)

theorem settled_elements (elems : List Value) {rest : List Token}
    (hrest : Settled rest ∧ MarkFirst rest) : Settled (elementTokens elems ++ rest) := by
  cases elems with
  | nil => exact hrest.1
  | cons v elems =>
      rw [elementTokens, List.append_assoc]
      exact v.settled (settled_separated (settled_elements elems hrest) hrest)

theorem settled_members (members : List (Bytes × Value)) {rest : List Token}
    (hrest : Settled rest ∧ MarkFirst rest) : Settled (memberTokens members ++ rest) := by
  cases members with
  | nil => exact hrest.1
  | cons m members =>
      obtain ⟨name, v⟩ := m
      rw [memberTokens, List.cons_append, List.cons_append, List.append_assoc]
      exact v.settled (settled_separated (settled_members members hrest) hrest)

end

def Value.isContainer : Value → Bool
  | .array _ => true
  | .object _ => true
  | _ => false

theorem Value.settled_root {v : Value} (h : v.isContainer = true) : Settled v.tokens := by
  cases v with
  | literal w => cases h
  | string s => cases h
  | array elems => exact settled_elements elems (settled_mark (by rfl) trivial)
  | object members => exact settled_members members (settled_mark (by rfl) trivial)

/-- What ends a word. -/
def isDelimiter (c : UInt8) : Bool := isBlank c || (structural? c).isSome

/-- The text of a mark begins with a delimiter, and so do blanks in front of it. -/
theorem delimiter_of_markFirst {pieces : List Piece}
    (h : MarkFirst (pieces.flatMap Piece.tokens)) :
    ∃ c text, pieces.flatMap Piece.text = c :: text ∧ isDelimiter c = true := by
  obtain ⟨t, rest, hfirst, ht⟩ := h
  cases pieces with
  | nil => cases hfirst
  | cons p pieces =>
      rw [List.flatMap_cons] at hfirst ⊢
      cases p with
      | blank c hc => exact ⟨c, _, rfl, by rw [isDelimiter, hc, Bool.true_or]⟩
      | mark c m hc => exact ⟨c, _, rfl, by rw [isDelimiter, hc, Option.isSome_some, Bool.or_true]⟩
      | string body hbody =>
          obtain ⟨rfl, -⟩ := List.cons.inj hfirst
          cases ht
      | word w =>
          obtain ⟨rfl, -⟩ := List.cons.inj hfirst
          cases ht

/-! ## Numbers -/

/-- What a number is written with. -/
def isNumberByte (c : UInt8) : Bool :=
  isDigit c || c = 46 || c = 101 || c = 69 || c = 43 || c = 45

theorem isNumberByte_of_isDigit {c : UInt8} (h : isDigit c = true) : isNumberByte c = true := by
  simp [isNumberByte, h]

theorem numberBytes_of_isDigits {s : Bytes} (h : s.all isDigit = true) :
    s.all isNumberByte = true :=
  List.all_eq_true.mpr fun c hc => isNumberByte_of_isDigit (List.all_eq_true.mp h c hc)

theorem numberBytes_of_isExponent {s : Bytes} (h : isExponent s = true) :
    s.all isNumberByte = true := by
  cases s with
  | nil => rfl
  | cons e rest =>
      cases rest with
      | nil => simp [isExponent] at h
      | cons sign digits =>
          simp only [isExponent, isDigits, Bool.and_eq_true, Bool.or_eq_true,
            decide_eq_true_eq] at h
          obtain ⟨he, ⟨-, hall⟩ | ⟨hsign, -, hall⟩⟩ := h
          · rw [List.all_cons, numberBytes_of_isDigits hall, Bool.and_true]
            rcases he with rfl | rfl <;> rfl
          · rw [List.all_cons, List.all_cons, numberBytes_of_isDigits hall, Bool.and_true]
            rcases he with rfl | rfl <;> rcases hsign with rfl | rfl <;> rfl

/-- Digits in front do not matter. -/
theorem numberBytes_of_dropWhile {s : Bytes}
    (h : (s.dropWhile isDigit).all isNumberByte = true) : s.all isNumberByte = true := by
  have hdigits : (s.takeWhile isDigit).all isDigit = true :=
    List.all_eq_true.mpr fun c hc => List.mem_takeWhile_imp hc
  rw [← @List.takeWhile_append_dropWhile _ isDigit s, List.all_append,
    numberBytes_of_isDigits hdigits, h]
  rfl

theorem numberBytes_of_isFraction {s : Bytes} (h : isFraction s = true) :
    s.all isNumberByte = true := by
  unfold isFraction at h
  split at h
  · next d rest =>
      rw [Bool.and_eq_true] at h
      rw [List.all_cons, List.all_cons, isNumberByte_of_isDigit h.1,
        numberBytes_of_dropWhile (numberBytes_of_isExponent h.2)]
      rfl
  · exact numberBytes_of_isExponent h

/-- A number is an optional sign, a digit and what may follow it. -/
theorem isNumber_cases {w : Bytes} (h : isNumber w = true) :
    ∃ d t, (w = d :: t ∨ w = 45 :: d :: t) ∧ isDigit d = true ∧ t.all isNumberByte = true := by
  have hunsigned : w = (if w.head? = some 45 then w.tail else w) ∨
      w = 45 :: (if w.head? = some 45 then w.tail else w) := by
    by_cases hsign : w.head? = some 45
    · rw [if_pos hsign]
      exact .inr (List.cons_head?_tail hsign).symm
    · exact .inl (if_neg hsign).symm
  unfold isNumber at h
  generalize (if w.head? = some 45 then w.tail else w) = u at h hunsigned
  cases u with
  | nil => cases h
  | cons d t =>
      refine ⟨d, t, hunsigned, ?_⟩
      simp only at h
      split at h
      · next hzero => exact ⟨hzero ▸ rfl, numberBytes_of_isFraction h⟩
      · rw [Bool.and_eq_true] at h
        exact ⟨h.1, numberBytes_of_dropWhile (numberBytes_of_isFraction h.2)⟩

/-- The absolute value of a number without a fraction and an exponent. -/
def integer? (w : Bytes) : Option Nat :=
  let digits := if w.head? = some 45 then w.tail else w
  if isDigits digits then some (ofNumeral 10 (digits.map fun c => c.toNat - 48)) else none

end AlphaMiner.Lib.JsonText
