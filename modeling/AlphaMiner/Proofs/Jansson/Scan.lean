import AlphaMiner.Proofs.Jansson.Strings
import AlphaMiner.Proofs.Jansson.Words

/-!
# The lexer takes the next token

`lex_scan` takes off the text what `scan` takes off it, and makes of it what it is worth
(`tokenTok`). At the end it is `TOKEN_EOF`, or `TOKEN_INVALID` if the text came to a stop
before. Everything else is `TOKEN_INVALID`.
-/

namespace AlphaMiner.Jansson

open Lib Lib.JsonText

section
variable (long : LongWidth) (strtod : Bytes → Rat × Bool)

def tokenTok (erange : Bool) : Token → Option (Tok × Bool)
  | .beginObject => some (.char 123, erange)
  | .endObject => some (.char 125, erange)
  | .beginArray => some (.char 91, erange)
  | .endArray => some (.char 93, erange)
  | .nameSeparator => some (.char 58, erange)
  | .valueSeparator => some (.char 44, erange)
  | .string s => if 0 ∈ s then none else some (.string s, erange)
  | .literal w => wordTok long strtod erange w.1

/-- What the lexer makes of `p`. -/
def scanTok (erange : Bool) (p : Bytes) (done : Bool) (lex : Lex) : Prop :=
  match scan p with
  | some (t, q) => Reads lex q done (tokenTok long strtod erange t)
  | none => lex.token = if p.dropWhile isBlank = [] ∧ done = true then .eof else .invalid

theorem skipBlanks_at {done : Bool} : ∀ {fuel : Nat} {lex : Lex} {p : Bytes},
    At lex.stream p done → p.length < fuel →
    ∃ lex', skipBlanks fuel (p.headD eof) lex = ((p.dropWhile isBlank).headD eof, lex') ∧
      At lex'.stream (p.dropWhile isBlank) done ∧ lex'.savedText = lex.savedText ∧
      lex'.erange = lex.erange := by
  intro fuel
  induction fuel with
  | zero => exact fun _ h => absurd h (Nat.not_lt_zero _)
  | succ fuel ih =>
      intro lex p hat hfuel
      rw [skipBlanks]
      cases p with
      | nil =>
          rw [List.headD_nil, if_neg (by decide)]
          exact ⟨lex, rfl, hat, rfl, rfl⟩
      | cons c q =>
          rw [List.headD_cons]
          have hblank : isBlankChar c = isBlank c := rfl
          by_cases hc : isBlank c = true
          · have hat' : Holds (if c = 10 then { lex with line := lex.line + 1 } else lex).stream q
                done := by
              split
              · exact hat.on c q rfl
              · exact hat.on c q rfl
            obtain ⟨lex₁, hget, hat₁, hsaved₁, hkept₁⟩ := streamGet_at hat'
            obtain ⟨lex₂, hrest, hat₂, hsaved₂, herange₂⟩ :=
              ih hat₁ (Nat.lt_of_succ_lt_succ hfuel)
            rw [hblank, if_pos hc, hget, List.dropWhile_cons_of_pos hc]
            refine ⟨lex₂, hrest, hat₂, ?_, ?_⟩
            · rw [hsaved₂, hsaved₁]
              split <;> rfl
            · rw [herange₂, hkept₁.erange]
              split <;> rfl
          · rw [hblank, if_neg hc, List.dropWhile_cons_of_neg hc]
            exact ⟨lex, rfl, hat, rfl, rfl⟩

theorem structural?_some {c : UInt8} {t : Token} (h : structural? c = some t) (erange : Bool) :
    (c = 123 ∨ c = 125 ∨ c = 91 ∨ c = 93 ∨ c = 58 ∨ c = 44) ∧
      tokenTok long strtod erange t = some (.char c, erange) := by
  rw [structural?] at h
  split_ifs at h with h₁ h₂ h₃ h₄ h₅ h₆
  all_goals
    obtain rfl := Option.some.inj h
    subst c
    exact ⟨by decide, rfl⟩

theorem structural?_none {c : UInt8} (h : structural? c = none) :
    ¬(c = 123 ∨ c = 125 ∨ c = 91 ∨ c = 93 ∨ c = 58 ∨ c = 44) := by
  rintro (rfl | rfl | rfl | rfl | rfl | rfl) <;> cases h

theorem lexScan_at {lex : Lex} {p : Bytes} {done : Bool} (hholds : Holds lex.stream p done) :
    scanTok long strtod lex.erange p done (lexScan long strtod lex) := by
  have hclear : Holds ({ lex with savedText := [] } : Lex).stream p done := hholds
  obtain ⟨lex₁, hget₁, hat₁, hsaved₁, hkept₁⟩ := streamGet_at hclear
  obtain ⟨lex₂, hskip, hat₂, hsaved₂, herange₂⟩ := skipBlanks_at hat₁ hat₁.length_lt
  have hsaved : lex₂.savedText = [] := hsaved₂.trans hsaved₁
  have herange : lex₂.erange = lex.erange := herange₂.trans hkept₁.erange
  rw [lexScan, hget₁]
  dsimp only
  rw [hskip]
  dsimp only
  rw [scanTok, scan]
  cases hp : p.dropWhile isBlank with
  | nil =>
      rw [hp] at hat₂
      rw [List.headD_nil, if_pos rfl]
      dsimp only
      rw [lexEof, hat₂.atEnd rfl]
      by_cases hdone : done = true
      · rw [if_pos hdone, if_pos ⟨rfl, hdone⟩]
      · rw [if_neg hdone, if_neg fun h => hdone h.2]
  | cons c q =>
      rw [hp] at hat₂
      rw [List.headD_cons, if_neg (hat₂.back.ne List.mem_cons_self).2]
      dsimp only
      have hsave : (lexSave lex₂ c).savedText = [c] := by rw [lexSave, hsaved]; rfl
      have hsaveErange : (lexSave lex₂ c).erange = lex.erange := herange
      have hatSave : At (lexSave lex₂ c).stream (c :: q) done := hat₂
      cases hmark : structural? c with
      | some t =>
          obtain ⟨hc, htok⟩ := structural?_some long strtod hmark lex.erange
          rw [if_pos hc]
          dsimp only
          rw [htok]
          exact ⟨rfl, herange, hat₂.on c q rfl⟩
      | none =>
          rw [if_neg (structural?_none hmark)]
          dsimp only
          by_cases hquote : c = 34
          · subst hquote
            rw [if_pos rfl, if_pos rfl]
            have h := lexScanString_at (hatSave.on 34 q rfl) hsave
            rw [hsaveErange] at h
            cases hscan : scanString q with
            | none =>
                rw [hscan] at h
                rw [if_neg fun h => List.cons_ne_nil _ _ h.1]
                exact h
            | some s =>
                obtain ⟨t, rest⟩ := s
                rw [hscan] at h
                rw [scanString] at hscan
                obtain ⟨parts, -, hscan⟩ := Option.bind_eq_some_iff.mp hscan
                obtain ⟨u, -, heq⟩ := Option.map_eq_some_iff.mp hscan
                cases heq
                dsimp only at h ⊢
                rw [tokenTok]
                by_cases hzero : 0 ∈ u
                · rw [if_pos hzero] at h ⊢
                  exact h
                · rw [if_neg hzero] at h ⊢
                  exact h
          · rw [if_neg hquote, if_neg hquote, scanWord]
            by_cases hdigit : isDigit c = true ∨ c = 45
            · have hstart : (c :: q).head?.any (fun c => isDigit c || c = 45) = true := by
                simpa using hdigit
              have h := lexScanNumber_at long strtod hatSave hsave
              rw [hsaveErange] at h
              rw [if_pos (show isdigit c = true ∨ c = 45 from hdigit), if_pos hstart]
              cases hpart : numberPart (c :: q) with
              | none =>
                  rw [hpart] at h
                  rw [Option.bind_none, if_neg fun h => List.cons_ne_nil _ _ h.1]
                  exact h
              | some s =>
                  obtain ⟨w, rest⟩ := s
                  rw [hpart] at h
                  have hw : isLiteral w = true := by simp [isLiteral, numberPart_isNumber hpart]
                  rw [Option.bind_some]
                  dsimp only
                  rw [literal?, dif_pos hw, Option.map_some]
                  exact h
            · have hstart : ¬(c :: q).head?.any (fun c => isDigit c || c = 45) = true := by
                simpa using hdigit
              rw [if_neg (show ¬(isdigit c = true ∨ c = 45) from hdigit), if_neg hstart]
              by_cases hletter : Lib.JsonText.isLetter c = true
              · have h := lexScanName_at long strtod hatSave hsave hletter
                rw [hsaveErange] at h
                rw [if_pos (show isLetter c = true from hletter),
                  if_pos (show (c :: q).head?.any Lib.JsonText.isLetter = true from hletter),
                  Option.bind_some]
                dsimp only
                cases hw : literal? ((c :: q).takeWhile Lib.JsonText.isLetter) with
                | none =>
                    rw [hw] at h
                    rw [Option.map_none, if_neg fun h => List.cons_ne_nil _ _ h.1]
                    exact h
                | some t =>
                    obtain ⟨hliteral, rfl⟩ := literal?_some hw
                    rw [hw] at h
                    exact h
              · rw [if_neg (show ¬isLetter c = true from hletter),
                  if_neg (show ¬(c :: q).head?.any Lib.JsonText.isLetter = true from hletter),
                  Option.bind_none, if_neg fun h => List.cons_ne_nil _ _ h.1]

end

end AlphaMiner.Jansson
