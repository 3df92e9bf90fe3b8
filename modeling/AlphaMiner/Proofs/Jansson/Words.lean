import AlphaMiner.Lib.JsonScan
import AlphaMiner.Proofs.Jansson.Stream
import AlphaMiner.Proofs.JsonNumbers

/-!
# The lexer reads a word

Numbers and names are taken off the text as far as their grammar goes (`numberPart`),
and then something is made of them: an integer has to fit in an `int`, and a real must
not overflow (`wordTok`). What cannot be made anything of is `TOKEN_INVALID`.

`errno` takes part in that. It is not reset before `strtod`, so once it is `ERANGE`
every real but zero overflows.
-/

namespace AlphaMiner.Jansson

open Lib Lib.JsonText

/-! ## What a token is worth -/

/-- The number that a word without a fraction and an exponent spells. -/
def integerOf (w : Bytes) : Option Int :=
  (integer? w).map fun n : Nat => if w.head? = some 45 then -(n : Int) else (n : Int)

section
variable (long : LongWidth) (strtod : Bytes → Rat × Bool)

/-- A `long` of 32 bits also has to tell its limits from an overflow. -/
def fitsInt (erange : Bool) (i : Int) : Bool :=
  decide (-intMax - 1 ≤ i ∧ i ≤ intMax) &&
    !(erange && (decide (i = long.max) || decide (i = -long.max - 1)))

def realTok (erange : Bool) (w : Bytes) : Option (Tok × Bool) :=
  let erange := erange || (strtod w).2
  if erange ∧ (strtod w).1 ≠ 0 then none else some (.real (strtod w).1, erange)

/-- With what `errno` is afterwards. -/
def wordTok (erange : Bool) (w : Bytes) : Option (Tok × Bool) :=
  if w = ascii "true" then some (.true, erange)
  else if w = ascii "false" then some (.false, erange)
  else if w = ascii "null" then some (.null, erange)
  else
    match integerOf w with
    | some i => if fitsInt long erange i then some (.integer i, erange) else none
    | none => realTok strtod erange w

/-- The lexer has found this token and stands at `rest`. -/
def Reads (lex : Lex) (rest : Bytes) (done : Bool) : Option (Tok × Bool) → Prop
  | none => lex.token = .invalid
  | some (tok, erange) => lex.token = tok ∧ lex.erange = erange ∧ Holds lex.stream rest done

/-! ## Numbers -/

theorem isDigits_iff {w : Bytes} : isDigits w = true ↔ w ≠ [] ∧ w.all isDigit = true := by
  rw [isDigits, Bool.and_eq_true, Bool.not_eq_true', List.isEmpty_eq_false_iff]

theorem digit_plain {d : UInt8} (h : isDigit d = true) : isSpace d = false ∧ d ≠ 45 ∧ d ≠ 43 := by
  have hrange := isDigit_iff.mp h
  refine ⟨?_, ?_, ?_⟩
  · simp [isSpace, ← UInt8.toNat_inj, UInt8.le_iff_toNat_le]
    omega
  · rintro rfl
    exact absurd h (by decide)
  · rintro rfl
    exact absurd h (by decide)

/-- `strtol` on a word that is an integer. -/
theorem strtol_integer {w : Bytes} {i : Int} (h : integerOf w = some i) :
    strtol long w =
      if long.max < i then ⟨long.max, true, []⟩
      else if i < -long.max - 1 then ⟨-long.max - 1, true, []⟩ else ⟨i, false, []⟩ := by
  obtain ⟨n, hn, hi⟩ := Option.map_eq_some_iff.mp h
  rw [integer?] at hn
  obtain ⟨hdigits, hn⟩ := Option.ite_none_right_eq_some.mp hn
  obtain ⟨hne, hall⟩ := isDigits_iff.mp hdigits
  rw [← digitsValue_of_isDigits hall] at hn
  obtain rfl := Option.some.inj hn
  have hdrop : ∀ s : Bytes, s.all isDigit = true → s.dropWhile isdigit = [] := fun s hs =>
    List.dropWhile_eq_nil_iff.mpr (List.all_eq_true.mp hs)
  cases w with
  | nil => exact absurd rfl hne
  | cons c t =>
      by_cases hsign : c = 45
      · subst hsign
        have hhead : t.head?.any isdigit = true := by
          cases t with
          | nil => exact absurd rfl hne
          | cons d t => simpa [isdigit_eq] using (List.all_eq_true.mp hall) d List.mem_cons_self
        have hspace : List.dropWhile isSpace ((45 : UInt8) :: t) = 45 :: t := by
          rw [List.dropWhile_cons_of_neg (by decide)]
        simp only [List.head?_cons, if_true, List.tail_cons] at hi hall
        rw [strtol, hspace]
        simp only [List.head?_cons, if_true, List.tail_cons, true_or, hhead, Bool.true_eq_false,
          if_false, hdrop t hall, hi]
      · have hsigned : (c :: t).head? ≠ some 45 := fun h => hsign (Option.some.inj h)
        rw [if_neg hsigned] at hall
        rw [if_neg hsigned, if_neg hsigned] at hi
        have hc := List.all_eq_true.mp hall c List.mem_cons_self
        obtain ⟨hspace, -, hplus⟩ := digit_plain hc
        have hplain : ¬((c :: t).head? = some 45 ∨ (c :: t).head? = some 43) := by
          rintro (h | h)
          · exact hsigned h
          · exact hplus (Option.some.inj h)
        have hhead : (c :: t).head?.any isdigit = true := hc
        have hkeep : List.dropWhile isSpace (c :: t) = c :: t := by
          rw [List.dropWhile_cons_of_neg (by simp [hspace])]
        rw [strtol, hkeep]
        simp only [if_neg hplain, if_neg hsigned, hhead, Bool.true_eq_false, if_false,
          hdrop _ hall, hi]

/-- The lexer at the end of an integer. -/
theorem scanInteger_at {lex : Lex} {p w : Bytes} {x : UInt8} {done : Bool}
    (hat : At lex.stream p done) (hsaved : lex.savedText = w ++ [x])
    (htoken : lex.token = .invalid) {i : Int} (hi : integerOf w = some i) :
    Reads (scanInteger long lex) p done
      (if fitsInt long lex.erange i then some (.integer i, lex.erange) else none) := by
  obtain ⟨hholds, hw, hkept⟩ := unget_at hat hsaved
  have hmax : intMax ≤ long.max := by cases long <;> decide
  have hzero : 0 ≤ intMax := by decide
  rw [scanInteger]
  simp only [hw, strtol_integer long hi, hkept.erange]
  by_cases hbig : long.max < i
  · simp only [if_pos hbig, Bool.or_true, and_true, true_or, if_true]
    rw [if_neg]
    · exact (errorSet_token _ _).trans (hkept.token.trans htoken)
    · rw [fitsInt, Bool.and_eq_true, decide_eq_true_iff]
      rintro ⟨hfits, -⟩
      omega
  · by_cases hsmall : i < -long.max - 1
    · simp only [if_neg hbig, if_pos hsmall, Bool.or_true, and_true, true_or, if_true]
      rw [if_neg (show ¬(-long.max - 1 = long.max ∨ -long.max - 1 > intMax) by omega), if_neg]
      · exact (errorSet_token _ _).trans (hkept.token.trans htoken)
      · rw [fitsInt, Bool.and_eq_true, decide_eq_true_iff]
        rintro ⟨hfits, -⟩
        omega
    · simp only [if_neg hbig, if_neg hsmall, Bool.or_false]
      by_cases hover : i = long.max ∧ lex.erange = true ∨ i > intMax
      · rw [if_pos hover, if_neg]
        · exact (errorSet_token _ _).trans (hkept.token.trans htoken)
        · rw [fitsInt]
          rcases hover with ⟨rfl, herange⟩ | hover
          · simp [herange]
          · simp only [Bool.and_eq_true, decide_eq_true_iff]
            rintro ⟨hfits, -⟩
            omega
      · rw [if_neg hover]
        by_cases hunder : i = -long.max - 1 ∧ lex.erange = true ∨ i < -intMax - 1
        · rw [if_pos hunder, if_neg]
          · exact (errorSet_token _ _).trans (hkept.token.trans htoken)
          · rw [fitsInt]
            rcases hunder with ⟨rfl, herange⟩ | hunder
            · simp [herange]
            · simp only [Bool.and_eq_true, decide_eq_true_iff]
              rintro ⟨hfits, -⟩
              omega
        · rw [if_neg hunder, if_pos]
          · exact ⟨rfl, rfl, hholds⟩
          · rw [fitsInt, Bool.and_eq_true, decide_eq_true_iff, Bool.not_eq_true', ← Bool.not_eq_true,
              Bool.and_eq_true, Bool.or_eq_true, decide_eq_true_iff, decide_eq_true_iff]
            refine ⟨by omega, ?_⟩
            rintro ⟨herange, rfl | rfl⟩
            · exact hover (.inl ⟨rfl, herange⟩)
            · exact hunder (.inl ⟨rfl, herange⟩)

theorem scanReal_at {lex : Lex} {p w : Bytes} {x : UInt8} {done : Bool}
    (hat : At lex.stream p done) (hsaved : lex.savedText = w ++ [x])
    (htoken : lex.token = .invalid) :
    Reads (scanReal strtod lex) p done (realTok strtod lex.erange w) := by
  obtain ⟨hholds, hw, hkept⟩ := unget_at hat hsaved
  rw [scanReal, realTok]
  simp only [hw, hkept.erange]
  split
  · exact (errorSet_token _ _).trans (hkept.token.trans htoken)
  · exact ⟨rfl, rfl, hholds⟩

/-- What has been taken off is worth this, if anything could be taken off. -/
def Takes (lex : Lex) (done : Bool) (part : Option (Bytes × Bytes))
    (worth : Bytes → Option (Tok × Bool)) : Prop :=
  match part with
  | none => lex.token = .invalid
  | some (x, rest) => Reads lex rest done (worth x)

theorem takes_map {lex : Lex} {done : Bool} {part : Option (Bytes × Bytes)}
    {worth : Bytes → Option (Tok × Bool)} {f : Bytes → Bytes}
    (h : Takes lex done part fun x => worth (f x)) :
    Takes lex done (part.map fun (x, rest) => (f x, rest)) worth := by
  cases part with
  | none => exact h
  | some s => exact h

/-- A digit and the digits behind it. -/
theorem digits_at {lex : Lex} {d : UInt8} {r pre : Bytes} {done : Bool}
    (hat : At lex.stream (d :: r) done) (hd : isDigit d = true)
    (hsaved : lex.savedText = pre ++ [d]) :
    ∃ c₁ lex₁ lex', lexGetSave lex = (c₁, lex₁) ∧
      saveWhile isdigit (lex₁.unread + 2) c₁ lex₁ =
        (((d :: r).dropWhile isDigit).headD eof, lex') ∧
      At lex'.stream ((d :: r).dropWhile isDigit) done ∧
      lex'.savedText =
        pre ++ (d :: r).takeWhile isDigit ++ [((d :: r).dropWhile isDigit).headD eof] ∧
      Kept lex lex' := by
  obtain ⟨lex₁, hget, hat₁, hsaved₁, hkept₁⟩ := lexGetSave_at (hat.on d r rfl)
  rw [hsaved] at hsaved₁
  obtain ⟨lex', hwhile, hat', hsaved', hkept'⟩ :=
    saveWhile_at (f := isdigit) (by decide) hat₁ hsaved₁ hat₁.length_lt
  rw [List.dropWhile_cons_of_pos hd, List.takeWhile_cons_of_pos hd]
  refine ⟨_, lex₁, lex', hget, hwhile, hat', ?_, hkept₁.trans hkept'⟩
  rw [hsaved', List.append_assoc pre [d]]
  rfl

theorem isdigit_headD (p : Bytes) : isdigit (p.headD eof) = p.head?.any isDigit := by
  cases p with
  | nil => decide
  | cons c p => rfl

theorem headD_eq_iff (p : Bytes) {c : UInt8} (hc : c ≠ eof) : p.headD eof = c ↔ p.head? = some c := by
  cases p with
  | nil => exact iff_of_false hc.symm nofun
  | cons d p => simp

theorem scanExponent_at {lex : Lex} {p pre : Bytes} {done : Bool} (hat : At lex.stream p done)
    (hsaved : lex.savedText = pre ++ [p.headD eof]) (htoken : lex.token = .invalid) :
    Takes (scanExponent strtod (p.headD eof) lex) done (exponentPart p) fun x =>
      realTok strtod lex.erange (pre ++ x) := by
  have hreal : Takes (scanReal strtod lex) done (some ([], p)) fun x =>
      realTok strtod lex.erange (pre ++ x) := by
    have h := scanReal_at strtod hat hsaved htoken
    show Reads _ p done (realTok strtod lex.erange (pre ++ []))
    rwa [List.append_nil]
  cases p with
  | nil => exact hreal
  | cons e q =>
      rw [scanExponent, exponentPart, List.headD_cons]
      by_cases he : e = 101 ∨ e = 69
      · rw [if_pos he.symm, if_pos he]
        obtain ⟨lex₁, hget₁, hat₁, hsaved₁, hkept₁⟩ := lexGetSave_at (hat.on e q rfl)
        rw [hsaved, List.headD_cons] at hsaved₁
        -- from the first digit on, whatever sign has been saved
        have hdigits : ∀ (lex₂ : Lex) (r sign : Bytes), At lex₂.stream r done →
            lex₂.savedText = pre ++ [e] ++ sign ++ [r.headD eof] → Kept lex lex₂ →
            Takes (if !isdigit (r.headD eof) then lexUngetUnsave lex₂
              else scanReal strtod (saveWhile isdigit ((lexGetSave lex₂).2.unread + 2)
                (lexGetSave lex₂).1 (lexGetSave lex₂).2).2) done
              (if r.head?.any isDigit then
                some (e :: (sign ++ r.takeWhile isDigit), r.dropWhile isDigit) else none)
              fun x => realTok strtod lex.erange (pre ++ x) := by
          intro lex₂ r sign hat₂ hsaved₂ hkept₂
          rw [isdigit_headD]
          by_cases hd : r.head?.any isDigit = true
          · rw [hd, if_pos rfl, if_neg (by decide)]
            cases r with
            | nil => cases hd
            | cons d r =>
                obtain ⟨c₁, lex₃, lex', hget, hwhile, hat', hsaved', hkept'⟩ :=
                  digits_at hat₂ (by simpa using hd) hsaved₂
                rw [hget, hwhile]
                have h := scanReal_at strtod hat' hsaved'
                  ((hkept₂.trans hkept').token.trans htoken)
                rw [(hkept₂.trans hkept').erange, List.append_assoc (pre ++ [e]),
                  List.append_assoc pre [e]] at h
                exact h
          · rw [if_neg hd, Bool.not_eq_true _ |>.mp hd, if_pos (by rfl)]
            exact (unget_at hat₂ hsaved₂).2.2.token.trans (hkept₂.token.trans htoken)
        rw [hget₁]
        have hplus := headD_eq_iff q (c := 43) (by decide)
        have hminus := headD_eq_iff q (c := 45) (by decide)
        by_cases hsign : q.head? = some 43 ∨ q.head? = some 45
        · have hsign' : q.headD eof = 43 ∨ q.headD eof = 45 := hsign.imp hplus.mpr hminus.mpr
          simp only [if_pos hsign, if_pos hsign']
          cases q with
          | nil => rcases hsign with hsign | hsign <;> cases hsign
          | cons s r =>
              obtain ⟨lex₂, hget₂, hat₂, hsaved₂, hkept₂⟩ := lexGetSave_at (hat₁.on s r rfl)
              rw [hsaved₁, List.headD_cons] at hsaved₂
              rw [hget₂]
              exact hdigits lex₂ r [s] hat₂ hsaved₂ (hkept₁.trans hkept₂)
        · have hsign' : ¬(q.headD eof = 43 ∨ q.headD eof = 45) :=
            fun h => hsign (h.imp hplus.mp hminus.mp)
          simp only [if_neg hsign, if_neg hsign']
          exact hdigits lex₁ q [] hat₁ (by rw [hsaved₁, List.append_nil]) hkept₁
      · rw [if_neg (fun h => he h.symm), if_neg he]
        exact hreal

theorem scanFraction_at {lex : Lex} {p pre : Bytes} {done : Bool} (hat : At lex.stream p done)
    (hsaved : lex.savedText = pre ++ [p.headD eof]) (htoken : lex.token = .invalid) :
    Takes (scanFraction strtod (p.headD eof) lex) done (fractionPart p) fun x =>
      realTok strtod lex.erange (pre ++ x) := by
  have hdot := headD_eq_iff p (c := 46) (by decide)
  rw [scanFraction, fractionPart]
  by_cases hp : p.head? = some 46
  · rw [if_pos hp, if_pos (hdot.mpr hp)]
    cases p with
    | nil => cases hp
    | cons e q =>
        obtain rfl := Option.some.inj hp
        obtain ⟨lex₁, hget₁, hat₁, hsaved₁, hkept₁⟩ := streamGet_at (hat.on 46 q rfl)
        rw [hget₁, List.tail_cons]
        dsimp only
        rw [isdigit_headD]
        by_cases hd : q.head?.any isDigit = true
        · rw [hd, if_pos rfl, if_neg (by decide)]
          cases q with
          | nil => cases hd
          | cons d r =>
              have hatSave : At (lexSave lex₁ d).stream (d :: r) done := hat₁
              have hsave : (lexSave lex₁ d).savedText = pre ++ [46] ++ [d] := by
                rw [lexSave, hsaved₁, hsaved]
                rfl
              obtain ⟨c₁, lex₂, lex', hget, hwhile, hat', hsaved', hkept'⟩ :=
                digits_at hatSave (by simpa using hd) hsave
              have hkept : Kept lex lex' := hkept₁.trans ⟨hkept'.token, hkept'.erange⟩
              have h := scanExponent_at strtod hat' hsaved' (hkept.token.trans htoken)
              rw [List.headD_cons, hget]
              dsimp only
              rw [hwhile]
              refine takes_map (f := fun x => 46 :: ((d :: r).takeWhile isDigit ++ x)) ?_
              rw [hkept.erange, List.append_assoc pre [46]] at h
              simpa only [List.append_assoc, List.singleton_append, List.cons_append, List.nil_append]
                using h
        · rw [if_neg hd, Bool.not_eq_true _ |>.mp hd, if_pos (by rfl)]
          exact hkept₁.token.trans htoken
  · rw [if_neg hp, if_neg (fun h => hp (hdot.mp h))]
    exact scanExponent_at strtod hat hsaved htoken

/-! ### The integer part -/

theorem integerOf_cases {w : Bytes} {i : Int} (h : integerOf w = some i) :
    ∃ d t, (w = d :: t ∨ w = 45 :: d :: t) ∧ (d :: t).all isDigit = true := by
  obtain ⟨n, hn, -⟩ := Option.map_eq_some_iff.mp h
  rw [integer?] at hn
  obtain ⟨hdigits, -⟩ := Option.ite_none_right_eq_some.mp hn
  obtain ⟨hne, hall⟩ := isDigits_iff.mp hdigits
  by_cases hsign : w.head? = some 45
  · rw [if_pos hsign] at hne hall
    cases ht : w.tail with
    | nil => exact absurd ht hne
    | cons d t =>
        rw [ht] at hall
        refine ⟨d, t, .inr ?_, hall⟩
        rw [← List.cons_head?_tail hsign, ht]
  · rw [if_neg hsign] at hne hall
    cases w with
    | nil => exact absurd rfl hne
    | cons d t => exact ⟨d, t, .inl rfl, hall⟩

theorem integerOf_digits {sign s : Bytes} (hsign : sign = [] ∨ sign = [45]) (hne : s ≠ [])
    (hs : s.all isDigit = true) : ∃ i, integerOf (sign ++ s) = some i := by
  have hdigits : isDigits s = true := isDigits_iff.mpr ⟨hne, hs⟩
  rcases hsign with rfl | rfl
  · have hplain : s.head? ≠ some 45 := by
      intro h
      cases s with
      | nil => cases h
      | cons d s =>
          obtain rfl := Option.some.inj h
          exact absurd (List.all_eq_true.mp hs 45 List.mem_cons_self) (by decide)
    rw [integerOf, integer?, List.nil_append]
    simp only [if_neg hplain, if_pos hdigits]
    exact ⟨_, rfl⟩
  · rw [integerOf, integer?]
    simp only [List.singleton_append, List.head?_cons, if_true, List.tail_cons, if_pos hdigits]
    exact ⟨_, rfl⟩

/-- A point or an exponent makes a number a real. -/
theorem integerOf_append {w x : Bytes} {i : Int} (hw : integerOf w = some i)
    (hx : x.head?.any (fun c => !isDigit c) = true) : integerOf (w ++ x) = none := by
  obtain ⟨d, t, hform, hall⟩ := integerOf_cases hw
  rw [integerOf, Option.map_eq_none_iff, integer?]
  refine if_neg fun hdigits => ?_
  have hd : d ≠ 45 := by
    rintro rfl
    exact absurd (List.all_eq_true.mp hall 45 List.mem_cons_self) (by decide)
  have hrest : isDigits (d :: t ++ x) = true := by
    rcases hform with rfl | rfl
    · rwa [if_neg (show (d :: t ++ x).head? ≠ some 45 from fun h => hd (Option.some.inj h))]
        at hdigits
    · exact hdigits
  cases x with
  | nil => cases hx
  | cons c x =>
      have hc := List.all_eq_true.mp (isDigits_iff.mp hrest).2 c
        (List.mem_append_right _ List.mem_cons_self)
      rw [List.head?_cons, Option.any_some, hc] at hx
      cases hx

theorem ne_name {w x : Bytes} {i : Int} (hw : integerOf w = some i) :
    w ++ x ≠ ascii "true" ∧ w ++ x ≠ ascii "false" ∧ w ++ x ≠ ascii "null" := by
  obtain ⟨d, t, hform, hall⟩ := integerOf_cases hw
  have hd := List.all_eq_true.mp hall d List.mem_cons_self
  have hhead : (w ++ x).head?.any (fun c => isDigit c || c = 45) = true := by
    rcases hform with rfl | rfl
    · simp [hd]
    · rfl
  refine ⟨?_, ?_, ?_⟩
  all_goals
    intro h
    rw [h] at hhead
    exact absurd hhead (by decide)

theorem fractionPart_none {p : Bytes}
    (h : p.headD eof ≠ 46 ∧ p.headD eof ≠ 69 ∧ p.headD eof ≠ 101) :
    fractionPart p = some ([], p) := by
  cases p with
  | nil => rfl
  | cons e q =>
      have hdot : (e :: q).head? ≠ some 46 := fun heq => h.1 (Option.some.inj heq)
      rw [fractionPart, if_neg hdot, exponentPart]
      exact if_neg fun he => he.elim h.2.2 h.2.1

theorem fractionPart_head {p x rest : Bytes}
    (h : ¬(p.headD eof ≠ 46 ∧ p.headD eof ≠ 69 ∧ p.headD eof ≠ 101))
    (hpart : fractionPart p = some (x, rest)) : x.head?.any (fun c => !isDigit c) = true := by
  cases p with
  | nil => exact absurd ⟨by decide, by decide, by decide⟩ h
  | cons e q =>
      rw [List.headD_cons] at h
      rw [fractionPart] at hpart
      split at hpart
      · split at hpart
        · obtain ⟨s, -, heq⟩ := Option.map_eq_some_iff.mp hpart
          cases heq
          rfl
        · cases hpart
      · next hdot =>
          have he : e = 101 ∨ e = 69 := by
            by_contra hno
            exact h ⟨fun h => hdot (congrArg some h), fun h => hno (.inr h), fun h => hno (.inl h)⟩
          rw [exponentPart, if_pos he] at hpart
          obtain ⟨-, heq⟩ := Option.ite_none_right_eq_some.mp hpart
          cases heq
          rcases he with rfl | rfl <;> rfl

theorem afterInteger_at {lex : Lex} {p w : Bytes} {done : Bool} {i : Int}
    (hat : At lex.stream p done) (hsaved : lex.savedText = w ++ [p.headD eof])
    (htoken : lex.token = .invalid) (hi : integerOf w = some i) :
    Takes (afterInteger long strtod (p.headD eof) lex) done (fractionPart p) fun x =>
      wordTok long strtod lex.erange (w ++ x) := by
  rw [afterInteger]
  by_cases hc : p.headD eof ≠ 46 ∧ p.headD eof ≠ 69 ∧ p.headD eof ≠ 101
  · rw [if_pos hc, fractionPart_none hc]
    show Reads _ p done (wordTok long strtod lex.erange (w ++ []))
    obtain ⟨htrue, hfalse, hnull⟩ := ne_name (x := []) hi
    rw [wordTok, if_neg htrue, if_neg hfalse, if_neg hnull, List.append_nil, hi]
    exact scanInteger_at long hat hsaved htoken hi
  · rw [if_neg hc]
    have h := scanFraction_at strtod hat hsaved htoken
    cases hpart : fractionPart p with
    | none =>
        rw [hpart] at h
        exact h
    | some s =>
        obtain ⟨x, rest⟩ := s
        rw [hpart] at h
        show Reads _ rest done (wordTok long strtod lex.erange (w ++ x))
        obtain ⟨htrue, hfalse, hnull⟩ := ne_name (x := x) hi
        rw [wordTok, if_neg htrue, if_neg hfalse, if_neg hnull,
          integerOf_append hi (fractionPart_head hc hpart)]
        exact h

theorem unsigned_at {lex : Lex} {p sign : Bytes} {done : Bool} (hat : At lex.stream p done)
    (hsign : sign = [] ∨ sign = [45]) (hsaved : lex.savedText = sign ++ [p.headD eof])
    (htoken : lex.token = .invalid) :
    Takes (if p.headD eof = 48 then
        if isdigit (lexGetSave lex).1 then lexUngetUnsave (lexGetSave lex).2
        else afterInteger long strtod (lexGetSave lex).1 (lexGetSave lex).2
      else if isdigit (p.headD eof) then
        afterInteger long strtod
          (saveWhile isdigit ((lexGetSave lex).2.unread + 2) (lexGetSave lex).1 (lexGetSave lex).2).1
          (saveWhile isdigit ((lexGetSave lex).2.unread + 2) (lexGetSave lex).1 (lexGetSave lex).2).2
      else lexUngetUnsave lex) done (unsignedPart p)
      fun x => wordTok long strtod lex.erange (sign ++ x) := by
  have hback : (lexUngetUnsave lex).token = .invalid := (unget_at hat hsaved).2.2.token.trans htoken
  cases p with
  | nil => exact hback
  | cons d r =>
      rw [List.headD_cons] at hsaved ⊢
      rw [unsignedPart]
      by_cases hd : d = 48
      · subst hd
        obtain ⟨lex₁, hget₁, hat₁, hsaved₁, hkept₁⟩ := lexGetSave_at (hat.on 48 r rfl)
        rw [if_pos rfl, if_pos rfl, hget₁]
        dsimp only
        rw [isdigit_headD]
        rw [hsaved] at hsaved₁
        by_cases hr : r.head?.any isDigit = true
        · rw [if_pos hr, if_pos hr]
          exact (unget_at hat₁ hsaved₁).2.2.token.trans (hkept₁.token.trans htoken)
        · rw [if_neg hr, if_neg hr]
          obtain ⟨i, hi⟩ := integerOf_digits hsign (s := [48]) (by simp) (by decide)
          have h := afterInteger_at long strtod hat₁ hsaved₁
            (hkept₁.token.trans htoken) hi
          refine takes_map (f := fun x => 48 :: x) ?_
          simpa only [hkept₁.erange, List.append_assoc, List.singleton_append] using h
      · rw [if_neg hd, if_neg hd]
        by_cases hdigit : isDigit d = true
        · obtain ⟨c₁, lex₁, lex', hget, hwhile, hat', hsaved', hkept'⟩ :=
            digits_at hat hdigit hsaved
          rw [if_pos hdigit, if_pos (show isdigit d = true from hdigit), hget]
          dsimp only
          rw [hwhile]
          have hall : ((d :: r).takeWhile isDigit).all isDigit = true :=
            List.all_eq_true.mpr fun c hc => List.mem_takeWhile_imp hc
          have hne : (d :: r).takeWhile isDigit ≠ [] := by
            rw [List.takeWhile_cons_of_pos hdigit]
            exact List.cons_ne_nil _ _
          obtain ⟨i, hi⟩ := integerOf_digits hsign hne hall
          have h := afterInteger_at long strtod hat' hsaved'
            (hkept'.token.trans htoken) hi
          refine takes_map (f := fun x => d :: (r.takeWhile isDigit ++ x)) ?_
          rw [List.dropWhile_cons_of_pos hdigit, List.takeWhile_cons_of_pos hdigit] at h
          simpa only [List.dropWhile_cons_of_pos hdigit, hkept'.erange, List.append_assoc,
            List.cons_append] using h
        · rw [if_neg hdigit, if_neg (show ¬isdigit d = true from hdigit)]
          exact hback

theorem lexScanNumber_at {lex : Lex} {c : UInt8} {q : Bytes} {done : Bool}
    (hat : At lex.stream (c :: q) done) (hsaved : lex.savedText = [c]) :
    Takes (lexScanNumber long strtod c lex) done (numberPart (c :: q))
      (wordTok long strtod lex.erange) := by
  rw [lexScanNumber, numberPart]
  by_cases hc : c = 45
  · subst hc
    have hholds : Holds ({ lex with token := .invalid } : Lex).stream q done := hat.on 45 q rfl
    obtain ⟨lex₁, hget₁, hat₁, hsaved₁, hkept₁⟩ := lexGetSave_at hholds
    rw [if_pos (by rfl)]
    simp only [hget₁, List.tail_cons]
    refine takes_map (f := fun x => 45 :: x) ?_
    have hsave : lex₁.savedText = [45] ++ [q.headD eof] := by rw [hsaved₁, hsaved]
    have h := unsigned_at long strtod hat₁ (.inr rfl) hsave hkept₁.token
    rw [hkept₁.erange] at h
    exact h
  · rw [if_neg (show (c :: q).head? ≠ some 45 from fun h => hc (Option.some.inj h))]
    simp only [if_neg hc]
    have hat' : At ({ lex with token := .invalid } : Lex).stream (c :: q) done := hat
    have hsave : lex.savedText = [] ++ [(c :: q).headD eof] := hsaved
    exact unsigned_at long strtod hat' (.inl rfl) hsave rfl

/-! ## Names -/

theorem isLetter_eof : isLetter eof = false := by decide

theorem lexScanName_at {lex : Lex} {c : UInt8} {q : Bytes} {done : Bool}
    (hat : At lex.stream (c :: q) done) (hsaved : lex.savedText = [c])
    (hc : Lib.JsonText.isLetter c = true) :
    Reads (lexScanName lex) ((c :: q).dropWhile Lib.JsonText.isLetter) done
      ((literal? ((c :: q).takeWhile Lib.JsonText.isLetter)).bind fun _ =>
        wordTok long strtod lex.erange ((c :: q).takeWhile Lib.JsonText.isLetter)) := by
  obtain ⟨lex₁, hget₁, hat₁, hsaved₁, hkept₁⟩ := lexGetSave_at (hat.on c q rfl)
  rw [hsaved] at hsaved₁
  obtain ⟨lex₂, hwhile, hat₂, hsaved₂, hkept₂⟩ :=
    saveWhile_at (f := isLetter) isLetter_eof hat₁ hsaved₁ hat₁.length_lt
  obtain ⟨hholds, hw, hkept₃⟩ := unget_at hat₂ hsaved₂
  have hkept := (hkept₁.trans hkept₂).trans hkept₃
  have hletter : isLetter = Lib.JsonText.isLetter := rfl
  rw [hletter] at hwhile hholds hw
  rw [List.dropWhile_cons_of_pos hc, List.takeWhile_cons_of_pos hc, lexScanName, hget₁]
  dsimp only
  rw [hletter, hwhile]
  dsimp only
  rw [hw]
  generalize hword : c :: q.takeWhile Lib.JsonText.isLetter = w
  have hw' : [c] ++ q.takeWhile Lib.JsonText.isLetter = w := hword
  rw [hw']
  -- a word of letters is no number
  have hnumber : isNumber w = false := by
    by_contra h
    obtain ⟨d, t, hform, hd, -⟩ := isNumber_cases (by simpa using h)
    rcases hform with h | h
    · rw [h] at hword
      obtain ⟨rfl, -⟩ := List.cons.inj hword
      rw [Lib.JsonText.isLetter] at hc
      have hrange := isDigit_iff.mp hd
      simp only [Bool.or_eq_true, Bool.and_eq_true, decide_eq_true_iff, UInt8.le_iff_toNat_le,
        UInt8.reduceToNat] at hc
      omega
    · rw [h] at hword
      obtain ⟨rfl, -⟩ := List.cons.inj hword
      cases hc
  by_cases htrue : w = ascii "true"
  · rw [if_pos htrue, literal?, dif_pos (by rw [htrue]; decide), Option.bind_some, wordTok,
      if_pos htrue]
    exact ⟨rfl, hkept.erange, hholds⟩
  · by_cases hfalse : w = ascii "false"
    · rw [if_neg htrue, if_pos hfalse, literal?, dif_pos (by rw [hfalse]; decide), Option.bind_some,
        wordTok, if_neg htrue, if_pos hfalse]
      exact ⟨rfl, hkept.erange, hholds⟩
    · by_cases hnull : w = ascii "null"
      · rw [if_neg htrue, if_neg hfalse, if_pos hnull, literal?, dif_pos (by rw [hnull]; decide),
          Option.bind_some, wordTok, if_neg htrue, if_neg hfalse, if_pos hnull]
        exact ⟨rfl, hkept.erange, hholds⟩
      · rw [if_neg htrue, if_neg hfalse, if_neg hnull, literal?, dif_neg]
        · rfl
        · simp [isLiteral, htrue, hfalse, hnull, hnumber]

end

end AlphaMiner.Jansson
