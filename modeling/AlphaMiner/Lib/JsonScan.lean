import AlphaMiner.Lib.JsonPieces

/-!
# JSON texts token by token (RFC 8259)

`lex` reads a whole text. `scan` takes the first token off it, as a parser that
asks for one token at a time does, and leaves the rest: a word is as long as its
own grammar lets it be, and nothing is said about what stands behind it.

The two agree (`lex_cons`), except that `lex` wants a word to end where a blank, a
mark or a string begins. A word in a value has a mark behind it, so for the tokens
of a value that comes to nothing (`lex_of_runs`).
-/

namespace AlphaMiner.Lib.JsonText

/-! ## Words -/

/-- The longest exponent, and what is left. -/
def exponentPart (p : Bytes) : Option (Bytes × Bytes) :=
  match p with
  | [] => some ([], [])
  | e :: q =>
      if e = 101 ∨ e = 69 then
        let sign := if q.head? = some 43 ∨ q.head? = some 45 then q.take 1 else []
        let r := if q.head? = some 43 ∨ q.head? = some 45 then q.tail else q
        if r.head?.any isDigit then
          some (e :: (sign ++ r.takeWhile isDigit), r.dropWhile isDigit)
        else none
      else some ([], p)

def fractionPart (p : Bytes) : Option (Bytes × Bytes) :=
  if p.head? = some 46 then
    if p.tail.head?.any isDigit then
      (exponentPart (p.tail.dropWhile isDigit)).map fun (x, rest) =>
        (46 :: (p.tail.takeWhile isDigit ++ x), rest)
    else none
  else exponentPart p

def unsignedPart (p : Bytes) : Option (Bytes × Bytes) :=
  match p with
  | [] => none
  | d :: r =>
      if d = 48 then
        if r.head?.any isDigit then none
        else (fractionPart r).map fun (x, rest) => (48 :: x, rest)
      else if isDigit d then
        (fractionPart (r.dropWhile isDigit)).map fun (x, rest) =>
          (d :: (r.takeWhile isDigit ++ x), rest)
      else none

def numberPart (p : Bytes) : Option (Bytes × Bytes) :=
  if p.head? = some 45 then (unsignedPart p.tail).map fun (w, rest) => (45 :: w, rest)
  else unsignedPart p

def isLetter (c : UInt8) : Bool := (65 ≤ c && c ≤ 90) || (97 ≤ c && c ≤ 122)

/-! ## Strings -/

/-- What stands between the quotation marks, as it is written, and what is left. -/
def splitBody : Bytes → Option (Bytes × Bytes)
  | [] => none
  | c :: q =>
      if c = 34 then some ([], q)
      else if c = 92 then
        match q with
        | [] => none
        | e :: q =>
            if e = 117 then
              match q with
              | d₁ :: d₂ :: d₃ :: d₄ :: q =>
                  if [d₁, d₂, d₃, d₄].all fun d => (hexValue d).isSome then
                    (splitBody q).map fun (body, rest) =>
                      (92 :: 117 :: d₁ :: d₂ :: d₃ :: d₄ :: body, rest)
                  else none
              | _ => none
            else if (escape? e).isSome then
              (splitBody q).map fun (body, rest) => (92 :: e :: body, rest)
            else none
      else if c < 32 then none
      else (splitBody q).map fun (body, rest) => (c :: body, rest)

/-- What it stands for. -/
def decodeBody (body : Bytes) : Option Bytes :=
  match Lexer.run ⟨[], .string []⟩ body with
  | some ⟨_, .string s⟩ => some s
  | _ => none

/-! ## The scanner -/

def scanString (q : Bytes) : Option (Token × Bytes) :=
  (splitBody q).bind fun (body, rest) => (decodeBody body).map fun s => (.string s, rest)

def scanWord (p : Bytes) : Option (Bytes × Bytes) :=
  if p.head?.any fun c => isDigit c || c = 45 then numberPart p
  else if p.head?.any isLetter then some (p.takeWhile isLetter, p.dropWhile isLetter)
  else none

def scan (p : Bytes) : Option (Token × Bytes) :=
  match p.dropWhile isBlank with
  | [] => none
  | c :: q =>
      match structural? c with
      | some t => some (t, q)
      | none =>
          if c = 34 then scanString q
          else (scanWord (c :: q)).bind fun (w, rest) => (literal? w).map fun t => (t, rest)

/-- The tokens come off the text one after the other. -/
def Runs (p : Bytes) : List Token → Bytes → Prop
  | [], rest => p = rest
  | t :: tokens, rest => ∃ q, scan p = some (t, q) ∧ Runs q tokens rest

theorem runs_append {p rest : Bytes} (ts us : List Token) :
    Runs p (ts ++ us) rest ↔ ∃ q, Runs p ts q ∧ Runs q us rest := by
  induction ts generalizing p with
  | nil => simp [Runs]
  | cons t ts ih =>
      simp only [List.cons_append, Runs, ih]
      constructor
      · rintro ⟨q, hscan, r, hts, hus⟩
        exact ⟨r, ⟨q, hscan, hts⟩, hus⟩
      · rintro ⟨r, ⟨q, hscan, hts⟩, hus⟩
        exact ⟨q, hscan, r, hts, hus⟩

/-! ## Where a word ends -/

/-- A blank, a quotation mark or a mark. -/
def endsWord (c : UInt8) : Bool := isBlank c || c = 34 || (structural? c).isSome

def Ends (q : Bytes) : Prop := q.head?.all endsWord = true

/-- The tokens that are there already stay in front. -/
theorem Lexer.step_before (before tokens : List Token) (mode : Mode) (c : UInt8) :
    (Lexer.mk (before ++ tokens) mode).step c =
      ((Lexer.mk tokens mode).step c).map fun l => ⟨before ++ l.tokens, l.mode⟩ := by
  have hbegin : ∀ tokens, Lexer.begin (before ++ tokens) c =
      ⟨before ++ (Lexer.begin tokens c).tokens, (Lexer.begin tokens c).mode⟩ := by
    intro tokens
    simp only [Lexer.begin]
    split
    · rfl
    · split
      · rfl
      · split
        · rw [List.append_assoc]
        · rfl
  cases mode with
  | blank => exact congrArg some (hbegin tokens)
  | word w =>
      simp only [Lexer.step]
      split
      · cases literal? w with
        | none => rfl
        | some t =>
            rw [Option.map_some, Option.map_some, Option.map_some, List.append_assoc, hbegin]
      · rfl
  | string s =>
      simp only [Lexer.step]
      split
      · rw [Option.map_some, List.append_assoc]
      · split
        · rfl
        · split <;> rfl
  | escape s =>
      simp only [Lexer.step]
      split
      · rfl
      · cases escape? c <;> rfl
  | hex s high unit left =>
      simp only [Lexer.step]
      cases hexValue c with
      | none => rfl
      | some d =>
          rw [Option.bind_some, Option.bind_some]
          split
          · rfl
          · cases codeUnit s high (16 * unit + d) <;> rfl
  | low s high =>
      simp only [Lexer.step]
      split <;> rfl
  | lowEscape s high =>
      simp only [Lexer.step]
      split <;> rfl

theorem Lexer.run_before (before : List Token) (text : Bytes) : ∀ (tokens : List Token)
    (mode : Mode), (Lexer.mk (before ++ tokens) mode).run text =
      ((Lexer.mk tokens mode).run text).map fun l => ⟨before ++ l.tokens, l.mode⟩ := by
  induction text with
  | nil => intro tokens mode; rfl
  | cons c text ih =>
      intro tokens mode
      rw [Lexer.run_cons, Lexer.run_cons, Lexer.step_before]
      cases (Lexer.mk tokens mode).step c with
      | none => rfl
      | some l => exact ih l.tokens l.mode

theorem Lexer.finish_before (before : List Token) (l : Lexer) :
    (Lexer.mk (before ++ l.tokens) l.mode).finish = l.finish.map (before ++ ·) := by
  obtain ⟨tokens, mode⟩ := l
  cases mode with
  | word w =>
      simp only [Lexer.finish]
      cases literal? w with
      | none => rfl
      | some t => rw [Option.map_some, Option.map_some, Option.map_some, List.append_assoc]
  | _ => rfl

/-- From a blank on the text is a text of its own. -/
theorem lex_after (before : List Token) (text : Bytes) :
    ((Lexer.mk before .blank).run text).bind Lexer.finish = (lex text).map (before ++ ·) := by
  have h := Lexer.run_before before text [] .blank
  rw [List.append_nil] at h
  rw [h, lex, Lexer.start]
  cases (Lexer.mk [] .blank).run text with
  | none => rfl
  | some l =>
      rw [Option.map_some, Option.bind_some, Option.bind_some]
      exact Lexer.finish_before before l

/-! ## Strings -/

/-- Between two characters of a string. -/
def Mode.between : Mode → Bool
  | .string _ => true
  | .low _ _ => true
  | _ => false

/-- What the string stands for up to there. -/
def Mode.sofar : Mode → Bytes
  | .string s => s
  | .low s _ => s
  | _ => []

theorem codeUnit_between {s : Bytes} {high : Option Nat} {unit : Nat} {mode : Mode}
    (h : codeUnit s high unit = some mode) : mode.between = true ∧ s <+: mode.sofar := by
  cases high with
  | none =>
      simp only [codeUnit] at h
      split at h
      · cases h
        exact ⟨rfl, List.prefix_rfl⟩
      · split at h
        · cases h
        · cases h
          exact ⟨rfl, List.prefix_append _ _⟩
  | some high =>
      simp only [codeUnit] at h
      split at h
      · cases h
        exact ⟨rfl, List.prefix_append _ _⟩
      · cases h

theorem Lexer.run_hex (tokens : List Token) (s : Bytes) (high : Option Nat)
    {d₁ d₂ d₃ d₄ : UInt8} (text : Bytes) :
    (Lexer.mk tokens (.hex s high 0 4)).run (d₁ :: d₂ :: d₃ :: d₄ :: text) =
      (hexValue d₁).bind fun x₁ => (hexValue d₂).bind fun x₂ => (hexValue d₃).bind fun x₃ =>
        (hexValue d₄).bind fun x₄ =>
          (codeUnit s high (16 * (16 * (16 * x₁ + x₂) + x₃) + x₄)).bind fun mode =>
            (Lexer.mk tokens mode).run text := by
  cases h₁ : hexValue d₁ <;> simp [Lexer.step, h₁]
  cases h₂ : hexValue d₂ <;> simp
  cases h₃ : hexValue d₃ <;> simp
  cases h₄ : hexValue d₄ <;> simp
  cases codeUnit s high (16 * (16 * (16 * _ + _) + _) + _) <;> rfl

/-- A text that ends within an escape is no text. -/
theorem Lexer.finish_hex (tokens : List Token) (s : Bytes) (high : Option Nat) {text : Bytes}
    (h : ∀ d₁ d₂ d₃ d₄ rest, text ≠ d₁ :: d₂ :: d₃ :: d₄ :: rest) :
    ((Lexer.mk tokens (.hex s high 0 4)).run text).bind Lexer.finish = none := by
  match text, h with
  | [], _ => rfl
  | [a], _ =>
      cases h₁ : hexValue a <;> simp [Lexer.step, Lexer.finish, h₁]
  | [a, b], _ =>
      cases h₁ : hexValue a <;> cases h₂ : hexValue b <;>
        simp [Lexer.step, Lexer.finish, h₁, h₂]
  | [a, b, c], _ =>
      cases h₁ : hexValue a <;> cases h₂ : hexValue b <;> cases h₃ : hexValue c <;>
        simp [Lexer.step, Lexer.finish, h₁, h₂, h₃]
  | a :: b :: c :: d :: rest, h => exact absurd rfl (h a b c d rest)

/-- A body keeps the machine inside the string. -/
theorem Lexer.run_body {body : Bytes} (h : StringBody body) : ∀ {l l' : Lexer},
    l.mode.between = true → l.run body = some l' →
    l'.tokens = l.tokens ∧ l'.mode.between = true ∧ l.mode.sofar <+: l'.mode.sofar := by
  induction h with
  | nil =>
      intro l l' hl hrun
      cases hrun
      exact ⟨rfl, hl, List.prefix_rfl⟩
  | @plain c rest hquote hback hcontrol _ ih =>
      rintro ⟨tokens, mode⟩ l' hl hrun
      cases mode with
      | string s =>
          rw [Lexer.run_cons, Lexer.step] at hrun
          simp only [hquote, hback, UInt8.not_lt.mpr hcontrol, if_false, Option.bind_some] at hrun
          obtain ⟨htokens, hmode, hsofar⟩ := ih (l := ⟨tokens, .string (s ++ [c])⟩) rfl hrun
          exact ⟨htokens, hmode, (List.prefix_append s [c]).trans hsofar⟩
      | low s high =>
          simp only [Lexer.run_cons, Lexer.step, if_neg hback] at hrun
          cases hrun
      | _ => cases hl
  | @escape c rest hescape _ ih =>
      rintro ⟨tokens, mode⟩ l' hl hrun
      obtain ⟨e, he⟩ := Option.isSome_iff_exists.mp hescape
      have hu : c ≠ 117 := by
        rintro rfl
        cases he
      cases mode with
      | string s =>
          simp only [Lexer.run_cons, Lexer.step, if_neg (show (92 : UInt8) ≠ 34 by decide), if_true,
            Option.bind_some, if_neg hu, he, Option.map_some] at hrun
          obtain ⟨htokens, hmode, hsofar⟩ := ih (l := ⟨tokens, .string (s ++ [e])⟩) rfl hrun
          exact ⟨htokens, hmode, (List.prefix_append s [e]).trans hsofar⟩
      | low s high =>
          simp only [Lexer.run_cons, Lexer.step, if_true, Option.bind_some, if_neg hu] at hrun
          cases hrun
      | _ => cases hl
  | @unit digits rest hlen hdigits _ ih =>
      rintro ⟨tokens, mode⟩ l' hl hrun
      obtain ⟨d₁, digits, rfl⟩ := List.exists_cons_of_length_eq_add_one hlen
      obtain ⟨d₂, digits, rfl⟩ := List.exists_cons_of_length_eq_add_one (Nat.succ.inj hlen)
      obtain ⟨d₃, d₄, rfl⟩ := List.length_eq_two.mp (Nat.succ.inj (Nat.succ.inj hlen))
      have hafter : ∀ s high, (Lexer.mk tokens (.hex s high 0 4)).run
          (d₁ :: d₂ :: d₃ :: d₄ :: rest) = some l' →
          l'.tokens = tokens ∧ l'.mode.between = true ∧ s <+: l'.mode.sofar := by
        intro s high hhex
        rw [Lexer.run_hex] at hhex
        obtain ⟨x₁, -, hhex⟩ := Option.bind_eq_some_iff.mp hhex
        obtain ⟨x₂, -, hhex⟩ := Option.bind_eq_some_iff.mp hhex
        obtain ⟨x₃, -, hhex⟩ := Option.bind_eq_some_iff.mp hhex
        obtain ⟨x₄, -, hhex⟩ := Option.bind_eq_some_iff.mp hhex
        obtain ⟨mode, hmode, hrest⟩ := Option.bind_eq_some_iff.mp hhex
        obtain ⟨hbetween, hbefore⟩ := codeUnit_between hmode
        obtain ⟨htokens, hmode', hsofar⟩ := ih hbetween hrest
        exact ⟨htokens, hmode', hbefore.trans hsofar⟩
      cases mode with
      | string s => exact hafter s none hrun
      | low s high => exact hafter s (some high) hrun
      | _ => cases hl

theorem splitBody_quote (q : Bytes) : splitBody (34 :: q) = some ([], q) := by
  rw [splitBody.eq_def]
  exact if_pos rfl

theorem splitBody_unit {d₁ d₂ d₃ d₄ : UInt8} (q : Bytes) :
    splitBody (92 :: 117 :: d₁ :: d₂ :: d₃ :: d₄ :: q) =
      if [d₁, d₂, d₃, d₄].all fun d => (hexValue d).isSome then
        (splitBody q).map fun s => (92 :: 117 :: d₁ :: d₂ :: d₃ :: d₄ :: s.1, s.2)
      else none := by
  rw [splitBody.eq_def]
  rfl

theorem splitBody_short {q : Bytes} (h : ∀ d₁ d₂ d₃ d₄ rest, q ≠ d₁ :: d₂ :: d₃ :: d₄ :: rest) :
    splitBody (92 :: 117 :: q) = none := by
  rw [splitBody.eq_def]
  match q, h with
  | [], _ => rfl
  | [_], _ => rfl
  | [_, _], _ => rfl
  | [_, _, _], _ => rfl
  | a :: b :: c :: d :: rest, h => exact absurd rfl (h a b c d rest)

theorem splitBody_escape {e : UInt8} (q : Bytes) (hu : e ≠ 117) :
    splitBody (92 :: e :: q) =
      if (escape? e).isSome then (splitBody q).map fun s => (92 :: e :: s.1, s.2) else none := by
  rw [splitBody.eq_def]
  exact if_neg hu

theorem splitBody_plain {c : UInt8} (q : Bytes) (hquote : c ≠ 34) (hback : c ≠ 92) :
    splitBody (c :: q) =
      if c < 32 then none else (splitBody q).map fun s => (c :: s.1, s.2) := by
  rw [splitBody.eq_def]
  exact (if_neg hquote).trans (if_neg hback)

theorem splitBody_some {q body rest : Bytes} (h : splitBody q = some (body, rest)) :
    StringBody body ∧ q = body ++ 34 :: rest := by
  induction q using splitBody.induct generalizing body rest with
  | case1 => cases h
  | case2 q =>
      rw [splitBody_quote] at h
      cases h
      exact ⟨.nil, rfl⟩
  | case3 => cases h
  | case4 d₁ d₂ d₃ d₄ q hdigits _ ih =>
      rw [splitBody_unit, if_pos hdigits] at h
      obtain ⟨⟨body', rest'⟩, hsplit, heq⟩ := Option.map_eq_some_iff.mp h
      cases heq
      obtain ⟨hbody, rfl⟩ := ih hsplit
      have hunit : StringBody (92 :: 117 :: ([d₁, d₂, d₃, d₄] ++ body')) :=
        .unit rfl hdigits hbody
      exact ⟨hunit, rfl⟩
  | case5 d₁ d₂ d₃ d₄ q hdigits _ =>
      rw [splitBody_unit, if_neg hdigits] at h
      cases h
  | case6 q hshort _ =>
      rw [splitBody_short fun a b c d rest hq => hshort a b c d rest hq] at h
      cases h
  | case7 e q hu hescape _ ih =>
      rw [splitBody_escape q hu, if_pos hescape] at h
      obtain ⟨⟨body', rest'⟩, hsplit, heq⟩ := Option.map_eq_some_iff.mp h
      cases heq
      obtain ⟨hbody, rfl⟩ := ih hsplit
      exact ⟨.escape hescape hbody, rfl⟩
  | case8 e q hu hescape _ =>
      rw [splitBody_escape q hu, if_neg hescape] at h
      cases h
  | case9 c q hquote hback hcontrol =>
      rw [splitBody_plain q hquote hback, if_pos hcontrol] at h
      cases h
  | case10 c q hquote hback hcontrol ih =>
      rw [splitBody_plain q hquote hback, if_neg hcontrol] at h
      obtain ⟨⟨body', rest'⟩, hsplit, heq⟩ := Option.map_eq_some_iff.mp h
      cases heq
      obtain ⟨hbody, rfl⟩ := ih hsplit
      exact ⟨.plain hquote hback (UInt8.not_lt.mp hcontrol) hbody, rfl⟩

/-- Without a body and a quotation mark behind it the string never ends. -/
theorem Lexer.finish_splitBody {q : Bytes} (h : splitBody q = none) : ∀ {l : Lexer},
    l.mode.between = true → (l.run q).bind Lexer.finish = none := by
  induction q using splitBody.induct with
  | case1 =>
      rintro ⟨tokens, mode⟩ hl
      cases mode <;> first | rfl | cases hl
  | case2 q =>
      rw [splitBody_quote] at h
      cases h
  | case3 =>
      rintro ⟨tokens, mode⟩ hl
      cases mode <;> first | rfl | cases hl
  | case4 d₁ d₂ d₃ d₄ q hdigits _ ih =>
      rw [splitBody_unit, if_pos hdigits, Option.map_eq_none_iff] at h
      have hafter : ∀ tokens s high, ((Lexer.mk tokens (.hex s high 0 4)).run
          (d₁ :: d₂ :: d₃ :: d₄ :: q)).bind Lexer.finish = none := by
        intro tokens s high
        rw [Lexer.run_hex, Option.bind_eq_none_iff]
        intro l hl
        obtain ⟨x₁, -, hl⟩ := Option.bind_eq_some_iff.mp hl
        obtain ⟨x₂, -, hl⟩ := Option.bind_eq_some_iff.mp hl
        obtain ⟨x₃, -, hl⟩ := Option.bind_eq_some_iff.mp hl
        obtain ⟨x₄, -, hl⟩ := Option.bind_eq_some_iff.mp hl
        obtain ⟨mode, hmode, hl⟩ := Option.bind_eq_some_iff.mp hl
        have hnone := ih h (l := ⟨tokens, mode⟩) (codeUnit_between hmode).1
        rwa [hl, Option.bind_some] at hnone
      rintro ⟨tokens, mode⟩ hl
      cases mode with
      | string s => exact hafter tokens s none
      | low s high => exact hafter tokens s (some high)
      | _ => cases hl
  | case5 d₁ d₂ d₃ d₄ q hdigits _ =>
      have hafter : ∀ tokens s high, ((Lexer.mk tokens (.hex s high 0 4)).run
          (d₁ :: d₂ :: d₃ :: d₄ :: q)).bind Lexer.finish = none := by
        intro tokens s high
        rw [Lexer.run_hex, Option.bind_eq_none_iff]
        intro l hl
        obtain ⟨x₁, h₁, hl⟩ := Option.bind_eq_some_iff.mp hl
        obtain ⟨x₂, h₂, hl⟩ := Option.bind_eq_some_iff.mp hl
        obtain ⟨x₃, h₃, hl⟩ := Option.bind_eq_some_iff.mp hl
        obtain ⟨x₄, h₄, -⟩ := Option.bind_eq_some_iff.mp hl
        exact absurd (by simp [h₁, h₂, h₃, h₄]) hdigits
      rintro ⟨tokens, mode⟩ hl
      cases mode with
      | string s => exact hafter tokens s none
      | low s high => exact hafter tokens s (some high)
      | _ => cases hl
  | case6 q hshort _ =>
      rintro ⟨tokens, mode⟩ hl
      cases mode with
      | string s => exact Lexer.finish_hex tokens s none fun a b c d r hq => hshort a b c d r hq
      | low s high =>
          exact Lexer.finish_hex tokens s (some high) fun a b c d r hq => hshort a b c d r hq
      | _ => cases hl
  | case7 e q hu hescape _ ih =>
      rw [splitBody_escape q hu, if_pos hescape, Option.map_eq_none_iff] at h
      rintro ⟨tokens, mode⟩ hl
      cases mode with
      | string s =>
          obtain ⟨x, hx⟩ := Option.isSome_iff_exists.mp hescape
          simp only [Lexer.run_cons, Lexer.step, if_neg (show (92 : UInt8) ≠ 34 by decide), if_true,
            Option.bind_some, if_neg hu, hx, Option.map_some]
          exact ih h (l := ⟨tokens, .string (s ++ [x])⟩) rfl
      | low s high =>
          simp only [Lexer.run_cons, Lexer.step, if_true, Option.bind_some, if_neg hu,
            Option.bind_none]
      | _ => cases hl
  | case8 e q hu hescape _ =>
      rintro ⟨tokens, mode⟩ hl
      have hx : escape? e = none := Option.not_isSome_iff_eq_none.mp hescape
      cases mode with
      | string s =>
          simp only [Lexer.run_cons, Lexer.step, if_neg (show (92 : UInt8) ≠ 34 by decide), if_true,
            Option.bind_some, if_neg hu, hx, Option.map_none, Option.bind_none]
      | low s high =>
          simp only [Lexer.run_cons, Lexer.step, if_true, Option.bind_some, if_neg hu,
            Option.bind_none]
      | _ => cases hl
  | case9 c q hquote hback hcontrol =>
      rintro ⟨tokens, mode⟩ hl
      cases mode with
      | string s =>
          simp only [Lexer.run_cons, Lexer.step, hquote, hback, hcontrol, if_false, if_true,
            Option.bind_none]
      | low s high =>
          simp only [Lexer.run_cons, Lexer.step, if_neg hback, Option.bind_none]
      | _ => cases hl
  | case10 c q hquote hback hcontrol ih =>
      rw [splitBody_plain q hquote hback, if_neg hcontrol, Option.map_eq_none_iff] at h
      rintro ⟨tokens, mode⟩ hl
      cases mode with
      | string s =>
          simp only [Lexer.run_cons, Lexer.step, hquote, hback, hcontrol, if_false,
            Option.bind_some]
          exact ih h (l := ⟨tokens, .string (s ++ [c])⟩) rfl
      | low s high =>
          simp only [Lexer.run_cons, Lexer.step, if_neg hback, Option.bind_none]
      | _ => cases hl

theorem finish_string (q : Bytes) :
    ((Lexer.mk [] (.string [])).run q).bind Lexer.finish =
      (scanString q).bind fun s => (lex s.2).map (s.1 :: ·) := by
  rw [scanString]
  cases hsplit : splitBody q with
  | none => exact Lexer.finish_splitBody hsplit (by rfl)
  | some parts =>
      obtain ⟨body, rest⟩ := parts
      obtain ⟨hbody, rfl⟩ := splitBody_some hsplit
      rw [Lexer.run_append, Option.bind_some]
      dsimp only
      rw [decodeBody.eq_def]
      cases hrun : Lexer.run ⟨[], .string []⟩ body with
      | none => rfl
      | some l =>
          obtain ⟨tokens, mode⟩ := l
          obtain ⟨rfl, hmode, -⟩ := Lexer.run_body hbody (by rfl) hrun
          cases mode with
          | string s => exact lex_after [Token.string s] rest
          | low s high => rfl
          | _ => cases hmode

/-! ## Token by token -/

theorem Lexer.step_word (tokens : List Token) (w : Bytes) (c : UInt8) :
    (Lexer.mk tokens (.word w)).step c =
      if endsWord c then (literal? w).map fun t => .begin (tokens ++ [t]) c
      else some ⟨tokens, .word (w ++ [c])⟩ := by
  simp [Lexer.step, endsWord, or_assoc]

theorem finish_word (q : Bytes) : ∀ w : Bytes,
    ((Lexer.mk [] (.word w)).run q).bind Lexer.finish =
      (literal? (w ++ q.takeWhile fun c => !endsWord c)).bind fun t =>
        (lex (q.dropWhile fun c => !endsWord c)).map (t :: ·) := by
  induction q with
  | nil =>
      intro w
      rw [List.takeWhile_nil, List.append_nil, List.dropWhile_nil]
      cases hw : literal? w with
      | none => simp [Lexer.finish, hw]
      | some t => simp [Lexer.finish, hw, lex, Lexer.start]
  | cons c q ih =>
      intro w
      rw [Lexer.run_cons, Lexer.step_word]
      by_cases hc : endsWord c = true
      · rw [if_pos hc, List.takeWhile_cons_of_neg (by simpa using hc),
          List.dropWhile_cons_of_neg (by simpa using hc), List.append_nil]
        cases literal? w with
        | none => rfl
        | some t => exact lex_after [t] (c :: q)
      · rw [if_neg hc, List.takeWhile_cons_of_pos (by simpa using hc),
          List.dropWhile_cons_of_pos (by simpa using hc), Option.bind_some, ih, List.append_assoc,
          List.singleton_append]

theorem lex_dropWhile_blank (p : Bytes) : lex (p.dropWhile isBlank) = lex p := by
  induction p with
  | nil => rfl
  | cons c p ih =>
      by_cases hc : isBlank c = true
      · rw [List.dropWhile_cons_of_pos hc, ih, lex, lex, Lexer.start, Lexer.run_cons, Lexer.step,
          Lexer.begin, if_pos hc, Option.bind_some]
      · rw [List.dropWhile_cons_of_neg hc]

theorem isBlank_of_dropWhile {p q : Bytes} {c : UInt8} (h : p.dropWhile isBlank = c :: q) :
    isBlank c = false := by
  have hnot := List.head_dropWhile_not isBlank (l := p) (by rw [h]; exact List.cons_ne_nil c q)
  simpa [h] using hnot

/-! ### Literals -/

theorem literal?_some {w : Bytes} {t : Token} (h : literal? w = some t) :
    ∃ hw, t = .literal ⟨w, hw⟩ := by
  rw [literal?] at h
  split at h
  · next hw =>
      cases h
      exact ⟨hw, rfl⟩
  · cases h

theorem literal?_val (w : Literal) : literal? w.1 = some (.literal w) := by
  rw [literal?, dif_pos w.2]

theorem head_takeWhile {α : Type} (f : α → Bool) (p : List α) :
    (p.dropWhile f).head?.any f = false := by
  cases hp : p.dropWhile f with
  | nil => rfl
  | cons c q =>
      have hnot := List.head_dropWhile_not f (l := p) (by rw [hp]; exact List.cons_ne_nil c q)
      simpa [hp] using hnot

theorem dropWhile_append_of_head {α : Type} {f : α → Bool} {p q : List α}
    (hp : p.all f = true) (hq : q.head?.any f = false) :
    (p ++ q).dropWhile f = q ∧ (p ++ q).takeWhile f = p := by
  have hdrop : q.dropWhile f = q ∧ q.takeWhile f = [] := by
    cases q with
    | nil => exact ⟨rfl, rfl⟩
    | cons c q =>
        have hc : ¬f c = true := by simpa using hq
        exact ⟨List.dropWhile_cons_of_neg hc, List.takeWhile_cons_of_neg hc⟩
  have hall : ∀ c ∈ p, f c = true := List.all_eq_true.mp hp
  rw [List.dropWhile_append_of_pos hall, List.takeWhile_append_of_pos hall, hdrop.1, hdrop.2,
    List.append_nil]
  exact ⟨rfl, rfl⟩

/-- What is no part of a number cannot make it longer. -/
theorem head_of_ends {q : Bytes} (h : Ends q) {f : UInt8 → Bool}
    (hf : ∀ c, endsWord c = true → f c = false) : q.head?.any f = false := by
  cases q with
  | nil => rfl
  | cons c q => simpa using hf c (by simpa [Ends] using h)

theorem endsWord_cases {c : UInt8} (h : endsWord c = true) :
    c = 32 ∨ c = 9 ∨ c = 10 ∨ c = 13 ∨ c = 34 ∨ c = 123 ∨ c = 125 ∨ c = 91 ∨ c = 93 ∨ c = 58 ∨
      c = 44 := by
  simp only [endsWord, isBlank, structural?, Bool.or_eq_true, decide_eq_true_eq] at h
  split_ifs at h <;> simp_all [or_assoc]

theorem isNumberByte_endsWord {c : UInt8} (h : endsWord c = true) : isNumberByte c = false := by
  rcases endsWord_cases h with rfl | rfl | rfl | rfl | rfl | rfl | rfl | rfl | rfl | rfl | rfl <;>
    rfl

theorem isDigit_endsWord {c : UInt8} (h : endsWord c = true) : isDigit c = false := by
  rcases endsWord_cases h with rfl | rfl | rfl | rfl | rfl | rfl | rfl | rfl | rfl | rfl | rfl <;>
    rfl

theorem isLetter_endsWord {c : UInt8} (h : endsWord c = true) : isLetter c = false := by
  rcases endsWord_cases h with rfl | rfl | rfl | rfl | rfl | rfl | rfl | rfl | rfl | rfl | rfl <;>
    rfl

theorem digits_append {x q : Bytes} (hx : x.all isDigit = true) (hq : Ends q) :
    (x ++ q).dropWhile isDigit = q ∧ (x ++ q).takeWhile isDigit = x :=
  dropWhile_append_of_head hx (head_of_ends hq fun _ => isDigit_endsWord)

theorem exponentPart_append {x q : Bytes} (hx : isExponent x = true) (hq : Ends q) :
    exponentPart (x ++ q) = some (x, q) := by
  cases x with
  | nil =>
      cases q with
      | nil => rfl
      | cons c q =>
          have hc : ¬(c = 101 ∨ c = 69) := by
            have hbyte := isNumberByte_endsWord (c := c) (by simpa [Ends] using hq)
            rintro (rfl | rfl) <;> cases hbyte
          exact if_neg hc
  | cons e rest =>
      cases rest with
      | nil => simp [isExponent] at hx
      | cons sign digits =>
          simp only [isExponent, isDigits, Bool.and_eq_true, Bool.or_eq_true,
            decide_eq_true_eq] at hx
          obtain ⟨he, ⟨-, hall⟩ | ⟨hsign, hne, hall⟩⟩ := hx
          · have hdigit : isDigit sign = true := by
              rw [List.all_cons, Bool.and_eq_true] at hall
              exact hall.1
            have hunsigned : ¬(((sign :: digits) ++ q).head? = some 43 ∨
                ((sign :: digits) ++ q).head? = some 45) := by
              rintro (h | h)
              · obtain rfl := Option.some.inj h
                cases hdigit
              · obtain rfl := Option.some.inj h
                cases hdigit
            simp only [List.cons_append, exponentPart, if_pos he]
            rw [← List.cons_append, if_neg hunsigned, if_neg hunsigned,
              (digits_append hall hq).1, (digits_append hall hq).2, if_pos (by simpa using hdigit)]
            rfl
          · have hsigned : ((sign :: digits) ++ q).head? = some 43 ∨
                ((sign :: digits) ++ q).head? = some 45 := hsign.imp (congrArg some) (congrArg some)
            have hdigit : (digits ++ q).head?.any isDigit = true := by
              cases digits with
              | nil => cases hne
              | cons d digits =>
                  rw [List.all_cons, Bool.and_eq_true] at hall
                  simpa using hall.1
            simp only [List.cons_append, exponentPart, if_pos he]
            rw [← List.cons_append, if_pos hsigned, if_pos hsigned, List.cons_append,
              List.tail_cons, if_pos hdigit, (digits_append hall hq).1, (digits_append hall hq).2]
            rfl

/-- Digits that are there already go on with the exponent. -/
theorem digits_exponent {x q : Bytes} (hx : isExponent (x.dropWhile isDigit) = true) (hq : Ends q) :
    (x ++ q).takeWhile isDigit = x.takeWhile isDigit ∧
      exponentPart ((x ++ q).dropWhile isDigit) = some (x.dropWhile isDigit, q) := by
  have hdigits : (x.takeWhile isDigit).all isDigit = true :=
    List.all_eq_true.mpr fun c hc => List.mem_takeWhile_imp hc
  have hhead : (x.dropWhile isDigit ++ q).head?.any isDigit = false := by
    cases hrest : x.dropWhile isDigit with
    | nil => exact head_of_ends hq fun _ => isDigit_endsWord
    | cons e rest =>
        have hnot := head_takeWhile isDigit x
        rwa [hrest] at hnot
  have hsplit : x ++ q = x.takeWhile isDigit ++ (x.dropWhile isDigit ++ q) := by
    rw [← List.append_assoc, List.takeWhile_append_dropWhile]
  obtain ⟨hdrop, htake⟩ := dropWhile_append_of_head hdigits hhead
  rw [hsplit, htake, hdrop]
  exact ⟨rfl, exponentPart_append hx hq⟩

theorem fractionPart_append {x q : Bytes} (hx : isFraction x = true) (hq : Ends q) :
    fractionPart (x ++ q) = some (x, q) := by
  have hplain : ∀ y : Bytes, isExponent y = true → y.head? ≠ some 46 →
      fractionPart (y ++ q) = some (y, q) := by
    intro y hy hdot
    rw [fractionPart, if_neg, exponentPart_append hy hq]
    cases y with
    | nil =>
        intro h
        cases q with
        | nil => cases h
        | cons c q =>
            obtain rfl := Option.some.inj h
            exact absurd (isNumberByte_endsWord (c := 46) (by simpa [Ends] using hq)) (by decide)
    | cons e y => exact hdot
  unfold isFraction at hx
  split at hx
  · next d rest =>
      rw [Bool.and_eq_true] at hx
      have hdigits : isExponent ((d :: rest).dropWhile isDigit) = true := by
        rw [List.dropWhile_cons_of_pos hx.1]
        exact hx.2
      obtain ⟨htake, hexp⟩ := digits_exponent hdigits hq
      rw [List.cons_append, fractionPart, if_pos (by rfl), List.tail_cons,
        if_pos (by simpa using hx.1), htake, hexp, Option.map_some]
      simp only [List.takeWhile_append_dropWhile]
  · refine hplain x hx fun hdot => ?_
    cases x with
    | nil => cases hdot
    | cons e x =>
        obtain rfl := Option.some.inj hdot
        cases x <;> simp [isExponent] at hx

theorem unsignedPart_append {x q : Bytes} (hx : isNumber x = true) (hsign : x.head? ≠ some 45)
    (hq : Ends q) : unsignedPart (x ++ q) = some (x, q) := by
  unfold isNumber at hx
  rw [if_neg hsign] at hx
  cases x with
  | nil => cases hx
  | cons d rest =>
      simp only [List.cons_append, unsignedPart] at hx ⊢
      by_cases hd : d = 48
      · subst hd
        rw [if_pos rfl] at hx ⊢
        have hdigit : ¬(rest ++ q).head?.any isDigit = true := by
          cases rest with
          | nil =>
              rw [List.nil_append, head_of_ends hq fun _ => isDigit_endsWord]
              exact Bool.false_ne_true
          | cons e rest =>
              intro hdigit
              have hdigit : isDigit e = true := by simpa using hdigit
              unfold isFraction at hx
              split at hx
              · next hcons =>
                  obtain ⟨rfl, -⟩ := List.cons.inj hcons
                  cases hdigit
              · cases rest with
                | nil => simp [isExponent] at hx
                | cons a rest =>
                    simp only [isExponent, Bool.and_eq_true, Bool.or_eq_true,
                      decide_eq_true_eq] at hx
                    rcases hx.1 with rfl | rfl <;> cases hdigit
        rw [if_neg hdigit, fractionPart_append hx hq, Option.map_some]
      · rw [if_neg hd, Bool.and_eq_true] at hx
        rw [if_neg hd, if_pos hx.1]
        have hdigits : (rest.takeWhile isDigit).all isDigit = true :=
          List.all_eq_true.mpr fun c hc => List.mem_takeWhile_imp hc
        have hhead : (rest.dropWhile isDigit ++ q).head?.any isDigit = false := by
          cases hrest : rest.dropWhile isDigit with
          | nil => exact head_of_ends hq fun _ => isDigit_endsWord
          | cons e r =>
              have hnot := head_takeWhile isDigit rest
              rwa [hrest] at hnot
        have hsplit : rest ++ q = rest.takeWhile isDigit ++ (rest.dropWhile isDigit ++ q) := by
          rw [← List.append_assoc, List.takeWhile_append_dropWhile]
        obtain ⟨hdrop, htake⟩ := dropWhile_append_of_head hdigits hhead
        rw [hsplit, htake, hdrop, fractionPart_append hx.2 hq, Option.map_some]
        simp only [List.takeWhile_append_dropWhile]

theorem numberPart_append {x q : Bytes} (hx : isNumber x = true) (hq : Ends q) :
    numberPart (x ++ q) = some (x, q) := by
  cases x with
  | nil => cases hx
  | cons s rest =>
      by_cases hs : s = 45
      · subst hs
        have hrest : isNumber rest = true ∧ rest.head? ≠ some 45 := by
          unfold isNumber at hx
          rw [if_pos (by rfl), List.tail_cons] at hx
          cases rest with
          | nil => cases hx
          | cons d rest =>
              have hd : d ≠ 45 := by
                rintro rfl
                simp [isDigit] at hx
              have hsign : (d :: rest).head? ≠ some 45 := fun h => hd (Option.some.inj h)
              refine ⟨?_, hsign⟩
              unfold isNumber
              rw [if_neg hsign]
              exact hx
        rw [List.cons_append, numberPart, if_pos (by rfl), List.tail_cons,
          unsignedPart_append hrest.1 hrest.2 hq, Option.map_some]
      · have hsign : (s :: rest).head? ≠ some 45 := fun h => hs (Option.some.inj h)
        have happend : ¬(s :: rest ++ q).head? = some 45 := hsign
        rw [numberPart, if_neg happend, unsignedPart_append hx hsign hq]

/-! What a part takes off is what was there. -/

theorem exponentPart_some {p w q : Bytes} (h : exponentPart p = some (w, q)) : p = w ++ q := by
  unfold exponentPart at h
  split at h
  · cases h; rfl
  · next e r =>
      by_cases he : e = 101 ∨ e = 69
      · rw [if_pos he] at h
        by_cases hsign : r.head? = some 43 ∨ r.head? = some 45
        · simp only [if_pos hsign] at h
          split at h
          · cases h
            rw [List.cons_append, List.append_assoc, List.takeWhile_append_dropWhile]
            cases r with
            | nil => rcases hsign with hsign | hsign <;> cases hsign
            | cons s r => rfl
          · cases h
        · simp only [if_neg hsign] at h
          split at h
          · cases h
            rw [List.cons_append, List.nil_append, List.takeWhile_append_dropWhile]
          · cases h
      · rw [if_neg he] at h
        cases h
        rfl

theorem fractionPart_some {p w q : Bytes} (h : fractionPart p = some (w, q)) : p = w ++ q := by
  unfold fractionPart at h
  split at h
  · next hdot =>
      split at h
      · obtain ⟨⟨x, rest⟩, hexp, heq⟩ := Option.map_eq_some_iff.mp h
        cases heq
        cases p with
        | nil => cases hdot
        | cons c p =>
            obtain rfl := Option.some.inj hdot
            rw [List.cons_append, List.append_assoc, ← exponentPart_some hexp, List.tail_cons,
              List.takeWhile_append_dropWhile]
      · cases h
  · exact exponentPart_some h

theorem unsignedPart_some {p w q : Bytes} (h : unsignedPart p = some (w, q)) : p = w ++ q := by
  unfold unsignedPart at h
  split at h
  · cases h
  · next d r =>
      by_cases hd : d = 48
      · rw [if_pos hd] at h
        split at h
        · cases h
        · obtain ⟨⟨x, rest⟩, hfrac, heq⟩ := Option.map_eq_some_iff.mp h
          cases heq
          rw [fractionPart_some hfrac, hd]
          rfl
      · rw [if_neg hd] at h
        split at h
        · obtain ⟨⟨x, rest⟩, hfrac, heq⟩ := Option.map_eq_some_iff.mp h
          cases heq
          rw [List.cons_append, List.append_assoc, ← fractionPart_some hfrac,
            List.takeWhile_append_dropWhile]
        · cases h

theorem scanWord_some {p w q : Bytes} (h : scanWord p = some (w, q)) : p = w ++ q := by
  unfold scanWord at h
  split at h
  · unfold numberPart at h
    split at h
    · next hsign =>
        obtain ⟨⟨x, rest⟩, hpart, heq⟩ := Option.map_eq_some_iff.mp h
        cases heq
        cases p with
        | nil => cases hsign
        | cons c p =>
            obtain rfl := Option.some.inj hsign
            exact congrArg (45 :: ·) (unsignedPart_some hpart)
    · exact unsignedPart_some h
  · split at h
    · cases h
      exact List.takeWhile_append_dropWhile.symm
    · cases h

/-! And it is what the grammar calls so. -/

theorem isDigits_takeWhile {r : Bytes} (h : r.head?.any isDigit = true) :
    isDigits (r.takeWhile isDigit) = true := by
  cases r with
  | nil => cases h
  | cons d r =>
      have hd : isDigit d = true := by simpa using h
      rw [isDigits, Bool.and_eq_true, List.takeWhile_cons_of_pos hd]
      refine ⟨rfl, List.all_eq_true.mpr fun c hc => ?_⟩
      rcases List.mem_cons.mp hc with rfl | hc
      · exact hd
      · exact List.mem_takeWhile_imp hc

theorem exponentPart_isExponent {p w q : Bytes} (h : exponentPart p = some (w, q)) :
    isExponent w = true := by
  unfold exponentPart at h
  split at h
  · cases h; rfl
  · next e r =>
      have hone : ∀ digits : Bytes, (e = 101 ∨ e = 69) → isDigits digits = true →
          isExponent (e :: digits) = true ∧ ∀ s, s = 43 ∨ s = 45 → isExponent (e :: s :: digits) = true := by
        intro digits he hdigits
        refine ⟨?_, fun s hs => ?_⟩
        · cases digits with
          | nil => cases hdigits
          | cons d digits => simp [isExponent, he, hdigits]
        · simp [isExponent, he, hdigits, hs]
      by_cases he : e = 101 ∨ e = 69
      · rw [if_pos he] at h
        by_cases hsign : r.head? = some 43 ∨ r.head? = some 45
        · simp only [if_pos hsign] at h
          split at h
          · next hdigit =>
              cases h
              cases r with
              | nil => rcases hsign with hsign | hsign <;> cases hsign
              | cons s r =>
                  exact (hone _ he (isDigits_takeWhile hdigit)).2 s
                    (hsign.imp Option.some.inj Option.some.inj)
          · cases h
        · simp only [if_neg hsign] at h
          split at h
          · next hdigit =>
              cases h
              exact (hone _ he (isDigits_takeWhile hdigit)).1
          · cases h
      · rw [if_neg he] at h
        cases h
        rfl

theorem exponent_head {x : Bytes} (hx : isExponent x = true) : x.head?.any isDigit = false := by
  cases x with
  | nil => rfl
  | cons e rest =>
      cases rest with
      | nil => simp [isExponent] at hx
      | cons a rest =>
          simp only [isExponent, Bool.and_eq_true, Bool.or_eq_true, decide_eq_true_eq] at hx
          rcases hx.1 with rfl | rfl <;> rfl

theorem fractionPart_isFraction {p w q : Bytes} (h : fractionPart p = some (w, q)) :
    isFraction w = true := by
  have hexponent : ∀ x : Bytes, isExponent x = true → isFraction x = true := by
    intro x hx
    unfold isFraction
    split
    · cases hx
    · exact hx
  unfold fractionPart at h
  split at h
  · split at h
    · next hdigit =>
        obtain ⟨⟨x, rest⟩, hexp, heq⟩ := Option.map_eq_some_iff.mp h
        cases heq
        have hx := exponentPart_isExponent hexp
        cases hr : p.tail with
        | nil =>
            rw [hr] at hdigit
            cases hdigit
        | cons d r =>
            have hd : isDigit d = true := by simpa [hr] using hdigit
            have hall : (r.takeWhile isDigit).all isDigit = true :=
              List.all_eq_true.mpr fun c hc => List.mem_takeWhile_imp hc
            rw [List.takeWhile_cons_of_pos hd, List.cons_append, isFraction, hd,
              (dropWhile_append_of_head hall (exponent_head hx)).1, hx]
            rfl
    · cases h
  · exact hexponent w (exponentPart_isExponent h)

theorem fraction_head {x : Bytes} (hx : isFraction x = true) : x.head?.any isDigit = false := by
  unfold isFraction at hx
  split at hx
  · rfl
  · exact exponent_head hx

theorem unsignedPart_isNumber {p w q : Bytes} (h : unsignedPart p = some (w, q)) :
    isNumber w = true ∧ ∃ d t, w = d :: t ∧ isDigit d = true := by
  unfold unsignedPart at h
  split at h
  · cases h
  · next d r =>
      by_cases hd : d = 48
      · rw [if_pos hd] at h
        split at h
        · cases h
        · obtain ⟨⟨x, rest⟩, hfrac, heq⟩ := Option.map_eq_some_iff.mp h
          cases heq
          exact ⟨fractionPart_isFraction hfrac, 48, x, rfl, by rfl⟩
      · rw [if_neg hd] at h
        split at h
        · next hdigit =>
            obtain ⟨⟨x, rest⟩, hfrac, heq⟩ := Option.map_eq_some_iff.mp h
            cases heq
            refine ⟨?_, d, _, rfl, hdigit⟩
            have hx := fractionPart_isFraction hfrac
            have hall : (r.takeWhile isDigit).all isDigit = true :=
              List.all_eq_true.mpr fun c hc => List.mem_takeWhile_imp hc
            have hsign : (d :: (r.takeWhile isDigit ++ x)).head? ≠ some 45 := by
              intro hsign
              obtain rfl := Option.some.inj hsign
              cases hdigit
            unfold isNumber
            rw [if_neg hsign]
            simp only [if_neg hd, hdigit, Bool.true_and]
            rw [(dropWhile_append_of_head hall (fraction_head hx)).1]
            exact hx
        · cases h

theorem numberPart_isNumber {p w q : Bytes} (h : numberPart p = some (w, q)) :
    isNumber w = true := by
  unfold numberPart at h
  split at h
  · obtain ⟨⟨x, rest⟩, hpart, heq⟩ := Option.map_eq_some_iff.mp h
    cases heq
    obtain ⟨hx, d, t, rfl, hd⟩ := unsignedPart_isNumber hpart
    have hsign : (d :: t).head? ≠ some 45 := by
      intro hsign
      obtain rfl := Option.some.inj hsign
      cases hd
    unfold isNumber at hx ⊢
    rw [if_neg hsign] at hx
    rw [if_pos (by rfl), List.tail_cons]
    exact hx
  · exact (unsignedPart_isNumber h).1

theorem isLiteral_cases {w : Bytes} (h : isLiteral w = true) :
    (w = ascii "true" ∨ w = ascii "false" ∨ w = ascii "null") ∨ isNumber w = true := by
  simpa [isLiteral, or_assoc] using h

theorem letters_of_name {w : Bytes}
    (h : w = ascii "true" ∨ w = ascii "false" ∨ w = ascii "null") :
    w.all isLetter = true ∧ (w.head?.any fun c => isDigit c || c = 45) = false ∧
      w.head?.any isLetter = true := by
  rcases h with rfl | rfl | rfl <;> decide

theorem scanWord_append {w q : Bytes} (hw : isLiteral w = true) (hq : Ends q) :
    scanWord (w ++ q) = some (w, q) := by
  rcases isLiteral_cases hw with hname | hnumber
  · obtain ⟨hall, hdigit, hletter⟩ := letters_of_name hname
    have hhead : (w ++ q).head? = w.head? := by
      rcases hname with rfl | rfl | rfl <;> rfl
    obtain ⟨hdrop, htake⟩ :=
      dropWhile_append_of_head hall (head_of_ends hq fun _ => isLetter_endsWord)
    rw [scanWord, hhead, if_neg (by rw [hdigit]; exact Bool.false_ne_true), if_pos hletter, hdrop,
      htake]
  · obtain ⟨d, t, hform, hd, -⟩ := isNumber_cases hnumber
    have hhead : ((w ++ q).head?.any fun c => isDigit c || c = 45) = true := by
      rcases hform with rfl | rfl
      · simp [hd]
      · rfl
    rw [scanWord, if_pos hhead, numberPart_append hnumber hq]

/-- No literal contains what ends a word. -/
theorem not_endsWord_of_literal {w : Bytes} (hw : isLiteral w = true) :
    w.all (fun c => !endsWord c) = true := by
  refine List.all_eq_true.mpr fun c hc => ?_
  rw [Bool.not_eq_true']
  by_contra hend
  have hend : endsWord c = true := by simpa using hend
  rcases isLiteral_cases hw with hname | hnumber
  · have hletter := List.all_eq_true.mp (letters_of_name hname).1 c hc
    rw [isLetter_endsWord hend] at hletter
    cases hletter
  · have hbyte : isNumberByte c = true := by
      obtain ⟨d, t, hform, hd, ht⟩ := isNumber_cases hnumber
      have ht := List.all_eq_true.mp ht
      rcases hform with rfl | rfl
      · rcases List.mem_cons.mp hc with rfl | hc
        · exact isNumberByte_of_isDigit hd
        · exact ht c hc
      · rcases List.mem_cons.mp hc with rfl | hc
        · rfl
        · rcases List.mem_cons.mp hc with rfl | hc
          · exact isNumberByte_of_isDigit hd
          · exact ht c hc
    rw [isNumberByte_endsWord hend] at hbyte
    cases hbyte

/-- No literal contains a zero byte. -/
theorem zero_not_mem_literal {w : Bytes} (hw : isLiteral w = true) : 0 ∉ w := by
  intro hzero
  rcases isLiteral_cases hw with hname | hnumber
  · have hletter := List.all_eq_true.mp (letters_of_name hname).1 0 hzero
    exact absurd hletter (by decide)
  · obtain ⟨d, t, hform, hd, ht⟩ := isNumber_cases hnumber
    have hfirst : (0 : UInt8) ≠ d := by
      intro heq
      rw [← heq] at hd
      exact absurd hd (by decide)
    have hrest : (0 : UInt8) ∉ t := fun hmem =>
      absurd (List.all_eq_true.mp ht 0 hmem) (by decide)
    rcases hform with rfl | rfl
    · exact (List.mem_cons.mp hzero).elim hfirst hrest
    · rcases List.mem_cons.mp hzero with hsign | hzero
      · exact absurd hsign (by decide)
      · exact (List.mem_cons.mp hzero).elim hfirst hrest

/-- A word that has taken a zero byte does not end. -/
theorem finish_word_zero {w : Bytes} (h : 0 ∈ w) (q : Bytes) :
    ((Lexer.mk [] (.word w)).run q).bind Lexer.finish = none := by
  rw [finish_word]
  cases hlit : literal? (w ++ q.takeWhile fun c => !endsWord c) with
  | none => rfl
  | some t =>
      obtain ⟨hw, -⟩ := literal?_some hlit
      exact absurd (List.mem_append_left _ h) (zero_not_mem_literal hw)

/-- No text of the grammar contains a zero byte. -/
theorem zero_not_mem_of_lex {text : Bytes} {ts : List Token} (h : lex text = some ts) :
    0 ∉ text := by
  intro hzero
  obtain ⟨p, q, rfl⟩ := List.append_of_mem hzero
  rw [lex, Lexer.run_append] at h
  obtain ⟨l', hrun, hfinish⟩ := Option.bind_eq_some_iff.mp h
  obtain ⟨⟨tokens, mode⟩, -, hrun⟩ := Option.bind_eq_some_iff.mp hrun
  rw [Lexer.run_cons] at hrun
  obtain ⟨l, hstep, hrun⟩ := Option.bind_eq_some_iff.mp hrun
  have hword : ∀ w, 0 ∈ w → l ≠ ⟨tokens, .word w⟩ := by
    rintro w hw rfl
    have hsplit := Lexer.run_before tokens q [] (.word w)
    have hnone := finish_word_zero hw q
    rw [List.append_nil] at hsplit
    rw [hsplit] at hrun
    obtain ⟨l₁, hrun₁, rfl⟩ := Option.map_eq_some_iff.mp hrun
    rw [hrun₁, Option.bind_some] at hnone
    have hlater := Lexer.finish_before tokens l₁
    rw [hnone] at hlater
    rw [hlater] at hfinish
    cases hfinish
  cases mode with
  | blank =>
      cases hstep
      exact hword [0] List.mem_cons_self rfl
  | word w =>
      rw [Lexer.step_word, if_neg (by decide)] at hstep
      cases hstep
      exact hword (w ++ [0]) (List.mem_append_right w List.mem_cons_self) rfl
  | _ => cases hstep

theorem ends_dropWhile (p : Bytes) : Ends (p.dropWhile fun c => !endsWord c) := by
  have h := head_takeWhile (fun c => !endsWord c) p
  unfold Ends
  cases hp : p.dropWhile fun c => !endsWord c with
  | nil => rfl
  | cons c q => simpa [hp] using h

/-- A text with tokens begins with the first of them. -/
theorem lex_cons {p : Bytes} {t : Token} {ts : List Token} :
    lex p = some (t :: ts) ↔
      ∃ q, scan p = some (t, q) ∧ ((∃ w, t = .literal w) → Ends q) ∧ lex q = some ts := by
  rw [← lex_dropWhile_blank p, scan]
  cases hp : p.dropWhile isBlank with
  | nil =>
      constructor
      · intro h
        cases h
      · rintro ⟨q, h, -⟩
        cases h
  | cons c q =>
      have hblank : ¬isBlank c = true := by simp [isBlank_of_dropWhile hp]
      have hstart : lex (c :: q) = ((Lexer.begin [] c).run q).bind Lexer.finish := rfl
      rw [hstart, Lexer.begin, if_neg hblank]
      dsimp only
      by_cases hquote : c = 34
      · subst hquote
        have hmark : structural? 34 = none := rfl
        rw [if_pos rfl, finish_string, hmark]
        dsimp only
        rw [if_pos rfl]
        cases hscan : scanString q with
        | none => simp
        | some found =>
            obtain ⟨u, rest⟩ := found
            have hu : ∀ w, u ≠ .literal w := by
              rw [scanString] at hscan
              obtain ⟨parts, -, hscan⟩ := Option.bind_eq_some_iff.mp hscan
              obtain ⟨s, -, heq⟩ := Option.map_eq_some_iff.mp hscan
              cases heq
              exact fun w => nofun
            rw [Option.bind_some]
            constructor
            · intro h
              obtain ⟨us, hus, heq⟩ := Option.map_eq_some_iff.mp h
              obtain ⟨rfl, rfl⟩ := List.cons.inj heq
              exact ⟨rest, rfl, fun ⟨w, hw⟩ => absurd hw (hu w), hus⟩
            · rintro ⟨q', heq, -, hq'⟩
              obtain ⟨rfl, rfl⟩ : u = t ∧ rest = q' := by simpa using heq
              rw [hq', Option.map_some]
      · rw [if_neg hquote]
        cases hmark : structural? c with
        | some u =>
            have hu : ∀ w, u ≠ .literal w := by
              intro w
              rw [structural?] at hmark
              split_ifs at hmark <;> cases hmark <;> exact nofun
            dsimp only
            rw [List.nil_append, lex_after]
            constructor
            · intro h
              obtain ⟨us, hus, heq⟩ := Option.map_eq_some_iff.mp h
              obtain ⟨rfl, rfl⟩ := List.cons.inj heq
              exact ⟨q, rfl, fun ⟨w, hw⟩ => absurd hw (hu w), hus⟩
            · rintro ⟨q', heq, -, hq'⟩
              obtain ⟨rfl, rfl⟩ : u = t ∧ q = q' := by simpa using heq
              rw [hq', Option.map_some]
              rfl
        | none =>
            have hend : (!endsWord c) = true := by simp [endsWord, hblank, hquote, hmark]
            dsimp only
            rw [if_neg hquote, finish_word]
            constructor
            · intro h
              obtain ⟨u, hu, h⟩ := Option.bind_eq_some_iff.mp h
              obtain ⟨us, hus, heq⟩ := Option.map_eq_some_iff.mp h
              obtain ⟨rfl, rfl⟩ := List.cons.inj heq
              obtain ⟨hw, rfl⟩ := literal?_some hu
              have hsplit : c :: q = ([c] ++ q.takeWhile fun c => !endsWord c) ++
                  q.dropWhile fun c => !endsWord c := by
                rw [List.append_assoc, List.takeWhile_append_dropWhile]
                rfl
              refine ⟨_, ?_, fun _ => ends_dropWhile q, hus⟩
              rw [hsplit, scanWord_append hw (ends_dropWhile q), Option.bind_some, hu,
                Option.map_some]
            · rintro ⟨rest, hscan, hends, hrest⟩
              obtain ⟨⟨w, rest'⟩, hword, hscan⟩ := Option.bind_eq_some_iff.mp hscan
              dsimp only at hscan
              obtain ⟨u, hu, heq⟩ := Option.map_eq_some_iff.mp hscan
              obtain ⟨rfl, rfl⟩ : u = t ∧ rest' = rest := by simpa using heq
              obtain ⟨hw, rfl⟩ := literal?_some hu
              have hsplit := scanWord_some hword
              have hhead : rest'.head?.any (fun c => !endsWord c) = false := by
                have hends : rest'.head?.all endsWord = true := hends ⟨_, rfl⟩
                cases rest' with
                | nil => rfl
                | cons d rest' => simpa using hends
              obtain ⟨hdrop, htake⟩ :=
                dropWhile_append_of_head (not_endsWord_of_literal hw) hhead
              rw [← hsplit, List.dropWhile_cons_of_pos (p := fun c => !endsWord c) hend] at hdrop
              rw [← hsplit, List.takeWhile_cons_of_pos (p := fun c => !endsWord c) hend] at htake
              rw [List.singleton_append, htake, hdrop, hu, Option.bind_some, hrest, Option.map_some]

theorem lex_nil {p : Bytes} : lex p = some [] ↔ p.dropWhile isBlank = [] := by
  constructor
  · intro h
    by_contra hne
    rw [← lex_dropWhile_blank p] at h
    cases hp : p.dropWhile isBlank with
    | nil => exact hne hp
    | cons c q =>
        have hblank : ¬isBlank c = true := by simp [isBlank_of_dropWhile hp]
        have hstart : lex (c :: q) = ((Lexer.begin [] c).run q).bind Lexer.finish := rfl
        rw [hp, hstart, Lexer.begin, if_neg hblank] at h
        by_cases hquote : c = 34
        · rw [if_pos hquote, finish_string] at h
          obtain ⟨u, -, h⟩ := Option.bind_eq_some_iff.mp h
          obtain ⟨us, -, heq⟩ := Option.map_eq_some_iff.mp h
          cases heq
        · rw [if_neg hquote] at h
          cases hmark : structural? c with
          | some u =>
              rw [hmark] at h
              dsimp only at h
              rw [lex_after] at h
              obtain ⟨us, -, heq⟩ := Option.map_eq_some_iff.mp h
              cases heq
          | none =>
              rw [hmark] at h
              dsimp only at h
              rw [finish_word] at h
              obtain ⟨u, -, h⟩ := Option.bind_eq_some_iff.mp h
              obtain ⟨us, -, heq⟩ := Option.map_eq_some_iff.mp h
              cases heq
  · intro h
    rw [← lex_dropWhile_blank p, h]
    rfl

/-! ## Whole texts -/

theorem runs_of_lex {p : Bytes} {ts : List Token} (h : lex p = some ts) :
    ∃ q, Runs p ts q ∧ q.dropWhile isBlank = [] := by
  induction ts generalizing p with
  | nil => exact ⟨p, rfl, lex_nil.mp h⟩
  | cons t ts ih =>
      obtain ⟨q, hscan, -, hq⟩ := lex_cons.mp h
      obtain ⟨rest, hruns, hrest⟩ := ih hq
      exact ⟨rest, ⟨q, hscan, hruns⟩, hrest⟩

theorem ends_of_mark {p q : Bytes} {t : Token} (h : scan p = some (t, q)) (ht : t.isMark = true) :
    Ends p := by
  cases p with
  | nil => rfl
  | cons c p =>
      by_cases hblank : isBlank c = true
      · simp [Ends, endsWord, hblank]
      · rw [scan, List.dropWhile_cons_of_neg hblank] at h
        dsimp only at h
        cases hmark : structural? c with
        | some u => simp [Ends, endsWord, hmark]
        | none =>
            rw [hmark] at h
            dsimp only at h
            split at h
            · obtain ⟨parts, -, h⟩ := Option.bind_eq_some_iff.mp h
              obtain ⟨s, -, heq⟩ := Option.map_eq_some_iff.mp h
              cases heq
              cases ht
            · obtain ⟨parts, -, h⟩ := Option.bind_eq_some_iff.mp h
              obtain ⟨u, hu, heq⟩ := Option.map_eq_some_iff.mp h
              cases heq
              obtain ⟨hw, rfl⟩ := literal?_some hu
              cases ht

theorem lex_of_runs {p q : Bytes} {ts : List Token} (hruns : Runs p ts q) (hts : Settled ts)
    (hq : q.dropWhile isBlank = []) : lex p = some ts := by
  induction ts generalizing p with
  | nil =>
      obtain rfl : p = q := hruns
      exact lex_nil.mpr hq
  | cons t ts ih =>
      obtain ⟨r, hscan, hrest⟩ := hruns
      refine lex_cons.mpr ⟨r, hscan, ?_, ih hrest (settled_tail hts)⟩
      rintro ⟨w, rfl⟩
      obtain ⟨u, us, rfl, hu⟩ := hts.1
      obtain ⟨r', hnext, -⟩ := hrest
      exact ends_of_mark hnext hu

/-- A token takes at least a byte. -/
theorem scan_length {p q : Bytes} {t : Token} (h : scan p = some (t, q)) : q.length < p.length := by
  have hdrop := (List.dropWhile_sublist isBlank (l := p)).length_le
  rw [scan] at h
  cases hp : p.dropWhile isBlank with
  | nil =>
      rw [hp] at h
      cases h
  | cons c r =>
      rw [hp] at h hdrop
      rw [List.length_cons] at hdrop
      dsimp only at h
      cases hmark : structural? c with
      | some u =>
          rw [hmark] at h
          cases h
          exact hdrop
      | none =>
          rw [hmark] at h
          dsimp only at h
          split at h
          · obtain ⟨⟨body, rest⟩, hsplit, h⟩ := Option.bind_eq_some_iff.mp h
            obtain ⟨s, -, heq⟩ := Option.map_eq_some_iff.mp h
            cases heq
            obtain ⟨-, rfl⟩ := splitBody_some hsplit
            rw [List.length_append, List.length_cons] at hdrop
            omega
          · obtain ⟨⟨w, rest⟩, hword, h⟩ := Option.bind_eq_some_iff.mp h
            obtain ⟨u, hu, heq⟩ := Option.map_eq_some_iff.mp h
            cases heq
            obtain ⟨hw, -⟩ := literal?_some hu
            have hlength := congrArg List.length (scanWord_some hword)
            rw [List.length_cons, List.length_append] at hlength
            have hpos : 0 < w.length := by
              cases w with
              | nil => cases hw
              | cons a w => exact Nat.succ_pos _
            dsimp only
            omega

theorem runs_length {p q : Bytes} {ts : List Token} (h : Runs p ts q) :
    ts.length + q.length ≤ p.length := by
  induction ts generalizing p with
  | nil =>
      obtain rfl : p = q := h
      rw [List.length_nil, Nat.zero_add]
  | cons t ts ih =>
      obtain ⟨r, hscan, hrest⟩ := h
      have hlt := scan_length hscan
      have hle := ih hrest
      rw [List.length_cons]
      omega

end AlphaMiner.Lib.JsonText
