import AlphaMiner.Lib.Endian
import Mathlib.Data.List.Basic

/-!
# JSON texts (RFC 8259)

A JSON text is UTF-8, it comes apart into tokens, and its tokens spell a value.
The first is stated with the encoder of the core library. The second is a
machine that reads one byte at a time (`step`); inside a string it undoes the
escapes, so a token carries the bytes that the string stands for. The third is
the grammar read from the value's side: `Value.tokens` writes a value down, and
a text decodes to the value whose tokens it has.

Numbers and the three names are not interpreted further. A `Literal` is a word
that the grammar allows outside of strings.
-/

namespace AlphaMiner.Lib.JsonText

/-! ## Characters -/

/-- The bytes of a sequence of characters. -/
def Utf8 (s : Bytes) : Prop := ∃ cs : List Char, s = cs.flatMap String.utf8EncodeChar

theorem Utf8.append {s t : Bytes} (hs : Utf8 s) (ht : Utf8 t) : Utf8 (s ++ t) := by
  obtain ⟨cs, rfl⟩ := hs
  obtain ⟨ds, rfl⟩ := ht
  exact ⟨cs ++ ds, List.flatMap_append.symm⟩

/-- A byte below 128 is a character by itself, and no part of any other. -/
theorem utf8EncodeChar_cases (k : Char) :
    (∃ b, b < 128 ∧ String.utf8EncodeChar k = [b]) ∨
      ∀ b ∈ String.utf8EncodeChar k, 128 ≤ b := by
  dsimp only [String.utf8EncodeChar]
  split
  · next h =>
      have hval : k.toNat ≤ 127 := h
      refine .inl ⟨_, ?_, rfl⟩
      rw [UInt8.lt_iff_toNat_lt]
      simp
      omega
  · refine .inr ?_
    split
    · simp [UInt8.le_iff_toNat_le]
      omega
    · split
      · simp [UInt8.le_iff_toNat_le]
        omega
      · simp [UInt8.le_iff_toNat_le]
        omega

theorem utf8EncodeChar_ascii : ∀ n : Fin 128,
    String.utf8EncodeChar (Char.ofNat n) = [UInt8.ofNat n] := by decide

theorem utf8_singleton {b : UInt8} (hb : b < 128) : Utf8 [b] := by
  refine ⟨[Char.ofNat b.toNat], ?_⟩
  rw [List.flatMap_singleton, utf8EncodeChar_ascii ⟨b.toNat, hb⟩, UInt8.ofNat_toNat]

theorem utf8_of_ascii {s : Bytes} (h : s.all (· < 128) = true) : Utf8 s := by
  induction s with
  | nil => exact ⟨[], rfl⟩
  | cons b s ih =>
      rw [List.all_cons, Bool.and_eq_true, decide_eq_true_iff] at h
      exact (utf8_singleton h.1).append (ih h.2)

/-- So a text may be cut at it. -/
theorem utf8_append_cons {b : UInt8} (hb : b < 128) (s t : Bytes) :
    Utf8 (s ++ b :: t) ↔ Utf8 s ∧ Utf8 t := by
  constructor
  · intro h
    obtain ⟨cs, hcs⟩ := h
    induction cs generalizing s with
    | nil => simp at hcs
    | cons k cs ih =>
        rw [List.flatMap_cons, List.append_eq_append_iff] at hcs
        obtain ⟨mid, hk, hrest⟩ | ⟨mid, rfl, hrest⟩ := hcs
        · cases mid with
          | nil =>
              rw [List.append_nil] at hk
              rw [List.nil_append] at hrest
              exact ⟨⟨[k], by simp [hk]⟩, (ih [] hrest).2⟩
          | cons c mid =>
              obtain ⟨rfl, rfl⟩ := List.cons.inj hrest
              obtain ⟨d, hd, hsingle⟩ | hhigh := utf8EncodeChar_cases k
              · rw [hsingle] at hk
                obtain ⟨rfl, -, rfl⟩ : s = [] ∧ d = b ∧ mid = [] := by
                  cases s with
                  | nil => simpa using hk
                  | cons c s => simp at hk
                exact ⟨⟨[], rfl⟩, cs, rfl⟩
              · have hb' := hhigh b (by rw [hk]; simp)
                exact absurd hb (UInt8.not_lt.mpr hb')
        · obtain ⟨hmid, ht⟩ := ih mid hrest.symm
          exact ⟨Utf8.append ⟨[k], by simp⟩ hmid, ht⟩
  · intro h
    exact h.1.append ((utf8_singleton hb).append h.2)

/-- Space, tab, line feed and carriage return. -/
def isBlank (c : UInt8) : Bool := c = 32 || c = 9 || c = 10 || c = 13

def isDigit (c : UInt8) : Bool := 48 ≤ c && c ≤ 57

def hexValue (c : UInt8) : Option Nat :=
  if isDigit c then some (c.toNat - 48)
  else if 65 ≤ c && c ≤ 70 then some (c.toNat - 55)
  else if 97 ≤ c && c ≤ 102 then some (c.toNat - 87)
  else none

/-! ## Words -/

def isDigits (s : Bytes) : Bool := !s.isEmpty && s.all isDigit

/-- What may follow the digits of a number: nothing, or an exponent. -/
def isExponent (s : Bytes) : Bool :=
  match s with
  | [] => true
  | e :: rest =>
      (e = 101 || e = 69) &&
        match rest with
        | sign :: digits => isDigits rest || ((sign = 43 || sign = 45) && isDigits digits)
        | [] => false

/-- What may follow the integer part. -/
def isFraction (s : Bytes) : Bool :=
  match s with
  | 46 :: d :: rest => isDigit d && isExponent (rest.dropWhile isDigit)
  | _ => isExponent s

def isNumber (s : Bytes) : Bool :=
  match if s.head? = some 45 then s.tail else s with
  | [] => false
  | d :: rest =>
      if d = 48 then isFraction rest
      else isDigit d && isFraction (rest.dropWhile isDigit)

def isLiteral (s : Bytes) : Bool :=
  s = ascii "true" || s = ascii "false" || s = ascii "null" || isNumber s

abbrev Literal := { s : Bytes // isLiteral s = true }

/-! ## Tokens -/

inductive Token where
  | beginObject
  | endObject
  | beginArray
  | endArray
  | nameSeparator
  | valueSeparator
  | string (s : Bytes)
  | literal (w : Literal)
  deriving DecidableEq

def structural? (c : UInt8) : Option Token :=
  if c = 123 then some .beginObject
  else if c = 125 then some .endObject
  else if c = 91 then some .beginArray
  else if c = 93 then some .endArray
  else if c = 58 then some .nameSeparator
  else if c = 44 then some .valueSeparator
  else none

def literal? (s : Bytes) : Option Token :=
  if h : isLiteral s = true then some (.literal ⟨s, h⟩) else none

/-- What a letter after a backslash stands for. -/
def escape? (c : UInt8) : Option UInt8 :=
  if c = 34 || c = 92 || c = 47 then some c
  else if c = 98 then some 8
  else if c = 102 then some 12
  else if c = 110 then some 10
  else if c = 114 then some 13
  else if c = 116 then some 9
  else none

/-! ## The machine -/

/-- Where the machine stands. Inside a string it has what the string stands for
up to here; in the middle of a `\u` escape also the first half of a pair, the
digits so far and how many are left. -/
inductive Mode where
  | blank
  | word (w : Bytes)
  | string (s : Bytes)
  | escape (s : Bytes)
  | hex (s : Bytes) (high : Option Nat) (unit left : Nat)
  | low (s : Bytes) (high : Nat)
  | lowEscape (s : Bytes) (high : Nat)
  deriving DecidableEq

structure Lexer where
  tokens : List Token
  mode : Mode
  deriving DecidableEq

def Lexer.start : Lexer := ⟨[], .blank⟩

/-- A byte outside of strings and words. -/
def Lexer.begin (tokens : List Token) (c : UInt8) : Lexer :=
  if isBlank c then ⟨tokens, .blank⟩
  else if c = 34 then ⟨tokens, .string []⟩
  else
    match structural? c with
    | some t => ⟨tokens ++ [t], .blank⟩
    | none => ⟨tokens, .word [c]⟩

/-- After the four digits of a code unit. Half a pair by itself is refused. -/
def codeUnit (s : Bytes) (high : Option Nat) (unit : Nat) : Option Mode :=
  match high with
  | none =>
      if 0xd800 ≤ unit ∧ unit < 0xdc00 then some (.low s unit)
      else if 0xdc00 ≤ unit ∧ unit < 0xe000 then none
      else some (.string (s ++ String.utf8EncodeChar (.ofNat unit)))
  | some high =>
      if 0xdc00 ≤ unit ∧ unit < 0xe000 then
        some (.string (s ++ String.utf8EncodeChar
          (.ofNat (0x10000 + 0x400 * (high - 0xd800) + (unit - 0xdc00)))))
      else none

def Lexer.step (l : Lexer) (c : UInt8) : Option Lexer :=
  match l.mode with
  | .blank => some (.begin l.tokens c)
  | .word w =>
      if isBlank c ∨ c = 34 ∨ (structural? c).isSome then
        (literal? w).map fun t => .begin (l.tokens ++ [t]) c
      else some ⟨l.tokens, .word (w ++ [c])⟩
  | .string s =>
      if c = 34 then some ⟨l.tokens ++ [Token.string s], .blank⟩
      else if c = 92 then some ⟨l.tokens, .escape s⟩
      else if c < 32 then none
      else some ⟨l.tokens, .string (s ++ [c])⟩
  | .escape s =>
      if c = 117 then some ⟨l.tokens, .hex s none 0 4⟩
      else (escape? c).map fun e => ⟨l.tokens, .string (s ++ [e])⟩
  | .hex s high unit left =>
      (hexValue c).bind fun d =>
        if 1 < left then some ⟨l.tokens, .hex s high (16 * unit + d) (left - 1)⟩
        else (codeUnit s high (16 * unit + d)).map fun mode => ⟨l.tokens, mode⟩
  | .low s high => if c = 92 then some ⟨l.tokens, .lowEscape s high⟩ else none
  | .lowEscape s high => if c = 117 then some ⟨l.tokens, .hex s (some high) 0 4⟩ else none

def Lexer.run (l : Lexer) (text : Bytes) : Option Lexer := text.foldlM Lexer.step l

def Lexer.finish (l : Lexer) : Option (List Token) :=
  match l.mode with
  | .blank => some l.tokens
  | .word w => (literal? w).map fun t => l.tokens ++ [t]
  | _ => none

def lex (text : Bytes) : Option (List Token) := (Lexer.start.run text).bind Lexer.finish

@[simp] theorem Lexer.run_nil (l : Lexer) : l.run [] = some l := rfl

@[simp] theorem Lexer.run_cons (l : Lexer) (c : UInt8) (text : Bytes) :
    l.run (c :: text) = (l.step c).bind fun l => l.run text := rfl

@[simp] theorem Lexer.run_append (l : Lexer) (s t : Bytes) :
    l.run (s ++ t) = (l.run s).bind fun l => l.run t :=
  List.foldlM_append

/-! ## Inside a string -/

def Mode.inside : Mode → Bool
  | .blank => false
  | .word _ => false
  | _ => true

/-- How long the string can be by now. What an escape stands for is never longer
than the digits in it. -/
def Mode.size : Mode → Nat
  | .blank => 0
  | .word _ => 0
  | .string s => s.length
  | .escape s => s.length
  | .hex s none _ left => s.length + (4 - left)
  | .hex s (some _) _ _ => s.length + 4
  | .low s _ => s.length + 4
  | .lowEscape s _ => s.length + 4

theorem codeUnit_some {s : Bytes} {high : Option Nat} {unit : Nat} {mode : Mode}
    (h : codeUnit s high unit = some mode) :
    mode.inside = true ∧ mode.size ≤ s.length + 4 ∧ ∀ t, mode ≠ .escape t := by
  have hchar : ∀ k : Char, (s ++ String.utf8EncodeChar k).length ≤ s.length + 4 := by
    intro k
    rw [List.length_append, String.length_utf8EncodeChar]
    exact Nat.add_le_add_left k.utf8Size_le_four _
  cases high with
  | none =>
      simp only [codeUnit] at h
      split at h
      · cases h
        exact ⟨rfl, Nat.le_refl _, fun t => by simp⟩
      · split at h
        · cases h
        · cases h
          exact ⟨rfl, hchar _, fun t => by simp⟩
  | some high =>
      simp only [codeUnit] at h
      split at h
      · cases h
        exact ⟨rfl, hchar _, fun t => by simp⟩
      · cases h

/-- What a byte inside a string does: it ends the string, or the string goes on
and is at most one byte longer. -/
theorem Lexer.step_inside {l l' : Lexer} {c : UInt8} (hin : l.mode.inside = true)
    (h : l.step c = some l') :
    (∃ s, l.mode = .string s ∧ c = 34 ∧ l' = ⟨l.tokens ++ [Token.string s], .blank⟩) ∨
    (l'.tokens = l.tokens ∧ l'.mode.inside = true ∧ l'.mode.size ≤ l.mode.size + 1 ∧
      ∀ s, l'.mode = .escape s → c = 92) := by
  obtain ⟨tokens, mode⟩ := l
  cases mode with
  | blank => cases hin
  | word w => cases hin
  | string s =>
      simp only [Lexer.step] at h
      split at h
      · next hquote =>
          cases h
          exact .inl ⟨s, rfl, hquote, rfl⟩
      · refine .inr ?_
        split at h
        · next hback =>
            cases h
            exact ⟨rfl, rfl, Nat.le_succ _, fun _ _ => hback⟩
        · split at h
          · cases h
          · cases h
            exact ⟨rfl, rfl, by simp [Mode.size], fun t ht => by cases ht⟩
  | escape s =>
      refine .inr ?_
      simp only [Lexer.step] at h
      split at h
      · cases h
        exact ⟨rfl, rfl, by simp [Mode.size], fun t ht => by cases ht⟩
      · obtain ⟨e, -, rfl⟩ := Option.map_eq_some_iff.mp h
        exact ⟨rfl, rfl, by simp [Mode.size], fun t ht => by cases ht⟩
  | hex s high unit left =>
      refine .inr ?_
      simp only [Lexer.step] at h
      obtain ⟨d, -, h⟩ := Option.bind_eq_some_iff.mp h
      split at h
      · cases h
        refine ⟨rfl, rfl, ?_, fun t ht => by cases ht⟩
        cases high with
        | none =>
            simp only [Mode.size]
            omega
        | some high => exact Nat.le_succ _
      · obtain ⟨mode, hmode, rfl⟩ := Option.map_eq_some_iff.mp h
        obtain ⟨hinside, hsize, hescape⟩ := codeUnit_some hmode
        refine ⟨rfl, hinside, Nat.le_trans hsize ?_, fun t ht => absurd ht (hescape t)⟩
        cases high with
        | none =>
            simp only [Mode.size]
            omega
        | some high => exact Nat.le_succ _
  | low s high =>
      refine .inr ?_
      simp only [Lexer.step] at h
      split at h
      · cases h
        exact ⟨rfl, rfl, Nat.le_succ _, fun t ht => by cases ht⟩
      · cases h
  | lowEscape s high =>
      refine .inr ?_
      simp only [Lexer.step] at h
      split at h
      · cases h
        exact ⟨rfl, rfl, Nat.le_succ _, fun t ht => by cases ht⟩
      · cases h

/-! ## Tokens stay -/

theorem Lexer.tokens_begin (tokens : List Token) (c : UInt8) :
    tokens <+: (Lexer.begin tokens c).tokens := by
  unfold Lexer.begin
  split
  · exact List.prefix_refl _
  · split
    · exact List.prefix_refl _
    · cases structural? c with
      | none => exact List.prefix_refl _
      | some t => exact List.prefix_append _ _

theorem Lexer.tokens_step {l l' : Lexer} {c : UInt8} (h : l.step c = some l') :
    l.tokens <+: l'.tokens := by
  cases hin : l.mode.inside with
  | true =>
      obtain ⟨s, -, -, rfl⟩ | ⟨htokens, -⟩ := Lexer.step_inside hin h
      · exact List.prefix_append _ _
      · exact htokens ▸ List.prefix_refl _
  | false =>
      obtain ⟨tokens, mode⟩ := l
      cases mode with
      | blank =>
          cases h
          exact tokens_begin _ _
      | word w =>
          simp only [Lexer.step] at h
          split at h
          · obtain ⟨t, -, rfl⟩ := Option.map_eq_some_iff.mp h
            exact (List.prefix_append _ _).trans (tokens_begin _ _)
          · cases h
            exact List.prefix_refl _
      | _ => cases hin

theorem Lexer.tokens_run {text : Bytes} : ∀ {l l' : Lexer}, l.run text = some l' →
    l.tokens <+: l'.tokens := by
  induction text with
  | nil =>
      intro l l' h
      cases h
      exact List.prefix_refl _
  | cons c text ih =>
      intro l l' h
      rw [Lexer.run_cons] at h
      obtain ⟨l₁, hstep, hrun⟩ := Option.bind_eq_some_iff.mp h
      exact (tokens_step hstep).trans (ih hrun)

theorem Lexer.tokens_finish {l : Lexer} {tokens : List Token} (h : l.finish = some tokens) :
    l.tokens <+: tokens := by
  obtain ⟨before, mode⟩ := l
  cases mode with
  | blank =>
      cases h
      exact List.prefix_refl _
  | word w =>
      obtain ⟨t, -, rfl⟩ := Option.map_eq_some_iff.mp h
      exact List.prefix_append _ _
  | _ => cases h

/-- A run from inside a string: the string has ended, and is shorter than the
text that was read, or it still goes on. -/
theorem Lexer.run_inside {text : Bytes} : ∀ {l l' : Lexer}, l.mode.inside = true →
    l.run text = some l' →
    (∃ s, s.length < l.mode.size + text.length ∧ l.tokens ++ [Token.string s] <+: l'.tokens) ∨
    (l'.tokens = l.tokens ∧ l'.mode.inside = true ∧
      l'.mode.size ≤ l.mode.size + text.length) := by
  induction text with
  | nil =>
      intro l l' hin h
      cases h
      exact .inr ⟨rfl, hin, Nat.le_refl _⟩
  | cons c text ih =>
      intro l l' hin h
      rw [Lexer.run_cons] at h
      obtain ⟨l₁, hstep, hrun⟩ := Option.bind_eq_some_iff.mp h
      obtain ⟨s, hmode, -, rfl⟩ | ⟨htokens, hin₁, hsize, -⟩ := step_inside hin hstep
      · refine .inl ⟨s, ?_, tokens_run hrun⟩
        rw [hmode, List.length_cons]
        exact Nat.lt_add_of_pos_right (Nat.succ_pos _)
      · rw [List.length_cons]
        obtain ⟨s, hlen, hbegin⟩ | ⟨htokens', hin', hsize'⟩ := ih hin₁ hrun
        · exact .inl ⟨s, by omega, htokens ▸ hbegin⟩
        · exact .inr ⟨htokens'.trans htokens, hin', by omega⟩

theorem Lexer.begin_ne_escape (tokens : List Token) (c : UInt8) (s : Bytes) :
    (Lexer.begin tokens c).mode ≠ .escape s := by
  unfold Lexer.begin
  split
  · simp
  · split
    · simp
    · cases structural? c <;> simp

/-- Only a backslash begins an escape. -/
theorem Lexer.step_escape {l l' : Lexer} {c : UInt8} {s : Bytes} (h : l.step c = some l')
    (hmode : l'.mode = .escape s) : c = 92 := by
  cases hin : l.mode.inside with
  | true =>
      obtain ⟨t, -, -, rfl⟩ | ⟨-, -, -, hback⟩ := step_inside hin h
      · cases hmode
      · exact hback s hmode
  | false =>
      obtain ⟨tokens, mode⟩ := l
      cases mode with
      | blank =>
          cases h
          exact absurd hmode (begin_ne_escape _ _ _)
      | word w =>
          simp only [Lexer.step] at h
          split at h
          · obtain ⟨t, -, rfl⟩ := Option.map_eq_some_iff.mp h
            exact absurd hmode (begin_ne_escape _ _ _)
          · cases h
            cases hmode
      | _ => cases hin

theorem Lexer.run_escape {l l' : Lexer} {text s : Bytes} {c : UInt8}
    (h : l.run (text ++ [c]) = some l') (hmode : l'.mode = .escape s) : c = 92 := by
  rw [Lexer.run_append] at h
  obtain ⟨l₁, -, hlast⟩ := Option.bind_eq_some_iff.mp h
  obtain ⟨l₂, hstep, hnil⟩ := Option.bind_eq_some_iff.mp hlast
  obtain rfl := Option.some.inj hnil
  exact step_escape hstep hmode

/-! ## Strings that stand for themselves -/

/-- No quotation mark, no backslash and no control character. -/
def Plain (s : Bytes) : Prop := ∀ c ∈ s, c ≠ 34 ∧ c ≠ 92 ∧ 32 ≤ c

theorem plain_of_all {s : Bytes} (h : (s.all fun c => c ≠ 34 && c ≠ 92 && 32 ≤ c) = true) :
    Plain s := by
  intro c hc
  simpa [and_assoc] using List.all_eq_true.mp h c hc

/-- What may stand between quotation marks as it is. -/
def Verbatim (s : Bytes) : Prop := Utf8 s ∧ Plain s

theorem Lexer.run_plain (tokens : List Token) {s : Bytes} (h : Plain s) : ∀ front : Bytes,
    Lexer.run ⟨tokens, .string front⟩ s = some ⟨tokens, .string (front ++ s)⟩ := by
  induction s with
  | nil => simp
  | cons c s ih =>
      intro front
      obtain ⟨hquote, hback, hcontrol⟩ := h c List.mem_cons_self
      have hstep : Lexer.step ⟨tokens, .string front⟩ c =
          some ⟨tokens, .string (front ++ [c])⟩ := by
        simp [Lexer.step, hquote, hback, UInt8.not_lt.mpr hcontrol]
      rw [Lexer.run_cons, hstep, Option.bind_some,
        ih (fun d hd => h d (List.mem_cons_of_mem c hd)), List.append_assoc]
      rfl

theorem exists_not_plain {s : Bytes} (h : ¬Plain s) :
    ∃ p c q, s = p ++ c :: q ∧ Plain p ∧ (c = 34 ∨ c = 92 ∨ c < 32) := by
  induction s with
  | nil => exact absurd (fun c hc => by simp at hc) h
  | cons c s ih =>
      by_cases hc : c = 34 ∨ c = 92 ∨ c < 32
      · exact ⟨[], c, s, rfl, fun d hd => by simp at hd, hc⟩
      · have hplain : c ≠ 34 ∧ c ≠ 92 ∧ 32 ≤ c := by grind
        obtain ⟨p, d, q, rfl, hp, hd⟩ := ih fun hs => h fun d hd => by
          obtain rfl | hd := List.mem_cons.mp hd
          · exact hplain
          · exact hs d hd
        refine ⟨c :: p, d, q, rfl, fun e he => ?_, hd⟩
        obtain rfl | he := List.mem_cons.mp he
        · exact hplain
        · exact hp e he

theorem string_eq_of_prefix {tokens before : List Token} {s t : Bytes}
    (hs : before ++ [Token.string s] <+: tokens) (ht : before ++ [Token.string t] <+: tokens) :
    s = t := by
  have h := (List.prefix_of_prefix_length_le hs ht (by simp)).eq_of_length (by simp)
  simpa using h

/-- The machine after a text that is not plain: refused, done with a string that
is too short, or still inside of one that is. -/
theorem Lexer.run_not_plain {before : List Token} {s : Bytes} {l : Lexer} (hnot : ¬Plain s)
    (hrun : Lexer.run ⟨before, .string []⟩ s = some l) :
    (∃ t, t.length < s.length ∧ before ++ [Token.string t] <+: l.tokens) ∨
    (l.tokens = before ∧ l.mode.inside = true ∧ l.mode.size < s.length) := by
  obtain ⟨p, c, q, rfl, hp, hc⟩ := exists_not_plain hnot
  rw [Lexer.run_append, run_plain before hp, Option.bind_some, List.nil_append] at hrun
  obtain ⟨l₁, hstep, hrun⟩ := Option.bind_eq_some_iff.mp hrun
  simp only [Lexer.step] at hstep
  rw [List.length_append, List.length_cons]
  split at hstep
  · cases hstep
    exact .inl ⟨p, by omega, tokens_run hrun⟩
  · next hquote =>
      split at hstep
      · cases hstep
        obtain ⟨t, hlen, hbegin⟩ | ⟨htokens, hin, hsize⟩ := run_inside (by rfl) hrun
        · exact .inl ⟨t, Nat.lt_trans hlen (Nat.lt_succ_self _), hbegin⟩
        · exact .inr ⟨htokens, hin, Nat.lt_succ_of_le hsize⟩
      · next hback =>
          rw [if_pos ((hc.resolve_left hquote).resolve_left hback)] at hstep
          cases hstep

/-- A string that is written between quotation marks as it is, with plain text
and another quotation mark behind it: if it is what the machine reads there,
nothing in it needed an escape. -/
theorem plain_of_run {before tokens : List Token} {s between rest : Bytes} {l : Lexer}
    (hbetween : Plain between)
    (hrun : Lexer.run ⟨before, .string []⟩ (s ++ 34 :: (between ++ 34 :: rest)) = some l)
    (hl : l.tokens <+: tokens) (hread : before ++ [Token.string s] <+: tokens) : Plain s := by
  by_contra hnot
  rw [Lexer.run_append] at hrun
  obtain ⟨⟨now, mode⟩, hs, hrest⟩ := Option.bind_eq_some_iff.mp hrun
  obtain ⟨t, hlen, hbegin⟩ | ⟨htokens, hin, hsize⟩ := Lexer.run_not_plain hnot hs
  · obtain rfl := string_eq_of_prefix ((hbegin.trans (Lexer.tokens_run hrest)).trans hl) hread
    exact Nat.lt_irrefl _ hlen
  · obtain rfl : now = before := htokens
    obtain ⟨l₁, hstep, hrest⟩ := Option.bind_eq_some_iff.mp hrest
    cases mode with
    | blank => cases hin
    | word w => cases hin
    | string t =>
        cases hstep
        obtain rfl := string_eq_of_prefix ((Lexer.tokens_run hrest).trans hl) hread
        exact Nat.lt_irrefl _ hsize
    | escape t =>
        -- The quotation mark is escaped, so the string goes on to the next one.
        -- It would have to end both as `s` and as the text in between.
        obtain rfl := Option.some.inj hstep
        change Lexer.run ⟨now, .string (t ++ [34])⟩ (between ++ 34 :: rest) = some l at hrest
        rw [Lexer.run_append, Lexer.run_plain _ hbetween, Option.bind_some] at hrest
        change Lexer.run ⟨now ++ [Token.string (t ++ [34] ++ between)], .blank⟩ rest =
          some l at hrest
        have hwhole := string_eq_of_prefix ((Lexer.tokens_run hrest).trans hl) hread
        obtain rfl | ⟨front, c, rfl⟩ := List.eq_nil_or_concat s
        · simp at hwhole
        · rw [List.concat_eq_append] at hs hwhole
          have hback := Lexer.run_escape hs rfl
          have hlast : (34 :: between).getLast? = some c := by
            have h := congrArg List.getLast? hwhole
            rwa [List.append_assoc, List.singleton_append, List.getLast?_append_cons,
              List.getLast?_concat] at h
          obtain hquote | hmem := List.mem_cons.mp (List.mem_of_getLast? hlast)
          · rw [hback] at hquote
            exact absurd hquote (by decide)
          · exact (hbetween c hmem).2.1 hback
    | hex t high unit left => cases hstep
    | low t high => cases hstep
    | lowEscape t high => cases hstep

/-! ## Values -/

inductive Value where
  | literal (w : Literal)
  | string (s : Bytes)
  | array (elems : List Value)
  | object (members : List (Bytes × Value))

/-- With a separator in front, if there is anything to separate. -/
def separated : List Token → List Token
  | [] => []
  | t :: tokens => .valueSeparator :: t :: tokens

mutual

/-- The tokens that spell a value. -/
def Value.tokens : Value → List Token
  | .literal w => [.literal w]
  | .string s => [.string s]
  | .array elems => .beginArray :: (elementTokens elems ++ [Token.endArray])
  | .object members => .beginObject :: (memberTokens members ++ [Token.endObject])

def elementTokens : List Value → List Token
  | [] => []
  | v :: elems => v.tokens ++ separated (elementTokens elems)

def memberTokens : List (Bytes × Value) → List Token
  | [] => []
  | (name, v) :: members =>
      .string name :: .nameSeparator :: (v.tokens ++ separated (memberTokens members))

end

/-- The member of that name, if there is exactly one. -/
def Value.member? (v : Value) (name : Bytes) : Option Value :=
  match v with
  | .object members =>
      match members.filter (·.1 = name) with
      | [m] => some m.2
      | _ => none
  | _ => none

/-- The text is JSON, and this is what it says. -/
def Says (text : Bytes) (v : Value) : Prop := Utf8 text ∧ lex text = some v.tokens

/-! ## Reading a value off its tokens -/

theorem Value.tokens_string {v : Value} {s : Bytes} {rest more : List Token}
    (h : .string s :: rest = v.tokens ++ more) : v = .string s ∧ rest = more := by
  cases v with
  | literal w => simp [Value.tokens] at h
  | string t => simpa [Value.tokens, eq_comm] using h
  | array elems => simp [Value.tokens] at h
  | object members => simp [Value.tokens] at h

theorem Value.tokens_array {v : Value} {rest more : List Token}
    (h : .beginArray :: rest = v.tokens ++ more) :
    ∃ elems, v = .array elems ∧ rest = elementTokens elems ++ .endArray :: more := by
  cases v with
  | literal w => simp [Value.tokens] at h
  | string s => simp [Value.tokens] at h
  | array elems => exact ⟨elems, rfl, by simpa [Value.tokens] using h⟩
  | object members => simp [Value.tokens] at h

theorem Value.tokens_object {v : Value} {rest : List Token} (h : .beginObject :: rest = v.tokens) :
    ∃ members, v = .object members ∧ rest = memberTokens members ++ [Token.endObject] := by
  cases v with
  | literal w => simp [Value.tokens] at h
  | string s => simp [Value.tokens] at h
  | array elems => simp [Value.tokens] at h
  | object members => exact ⟨members, rfl, by simpa [Value.tokens] using h⟩

theorem memberTokens_name {members : List (Bytes × Value)} {name : Bytes} {rest : List Token}
    (h : .string name :: rest = memberTokens members ++ [Token.endObject]) :
    ∃ v members', members = (name, v) :: members' ∧
      rest = .nameSeparator ::
        (v.tokens ++ (separated (memberTokens members') ++ [Token.endObject])) := by
  cases members with
  | nil => simp [memberTokens] at h
  | cons m members =>
      obtain ⟨a, v⟩ := m
      simp only [memberTokens, List.cons_append, List.append_assoc] at h
      obtain ⟨hname, hrest⟩ := List.cons.inj h
      obtain rfl := Token.string.inj hname
      exact ⟨v, members, rfl, hrest⟩

theorem memberTokens_separated {members : List (Bytes × Value)} {rest : List Token}
    (h : .valueSeparator :: rest = separated (memberTokens members) ++ [Token.endObject]) :
    rest = memberTokens members ++ [Token.endObject] := by
  cases htokens : memberTokens members with
  | nil => simp [htokens, separated] at h
  | cons t tokens => simpa [htokens, separated] using h

/-- If the second member has the name, it is the one that is found, or none is. -/
theorem Value.member?_second {m : Bytes × Value} {name : Bytes} {v w : Value}
    {members : List (Bytes × Value)}
    (h : (Value.object (m :: (name, v) :: members)).member? name = some w) : v = w := by
  simp only [Value.member?] at h
  by_cases hm : m.1 = name
  · rw [List.filter_cons_of_pos (by simpa using hm), List.filter_cons_of_pos (by simp)] at h
    cases h
  · rw [List.filter_cons_of_neg (by simpa using hm), List.filter_cons_of_pos (by simp)] at h
    cases hrest : members.filter (·.1 = name) with
    | nil =>
        rw [hrest] at h
        exact Option.some.inj h
    | cons m' rest =>
        rw [hrest] at h
        cases h

end AlphaMiner.Lib.JsonText
