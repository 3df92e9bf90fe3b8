import AlphaMiner.Proofs.Jansson.Scan

/-!
# What `json_loads` accepts

The parser asks for a token at a time, and the tokens it has asked for by the time it
returns a value are the tokens of a value of the grammar, whose reading is what it
returns (`parseValue_sound`). The induction is on the rounds that are left. The other
way round, in front of the tokens of a value the parser returns the reading of the value
(`parseValue_complete`), by induction on the value; a token costs at most three rounds.

So `json_loads` accepts the texts of the grammar with an array or an object at the top,
whose strings have no zero byte and whose numbers fit. And it accepts one thing more:
such a text with one sequence behind it that cannot be decoded, if nothing follows that
(`jsonLoads_iff`). The lexer is told `EOF` there, and asks whether the text is over when
the sequence has been read.
-/

namespace AlphaMiner.Jansson

open Lib Lib.JsonText

/-! ## What a value is read as -/

def jsonOf : Tok → Option JsonT
  | .integer i => some (.integer i)
  | .real r => some (.real r)
  | .true => some .true
  | .false => some .false
  | .null => some .null
  | _ => none

section
variable (long : LongWidth) (strtod : Bytes → Rat × Bool)

mutual

/-- With `errno`, which goes through the numbers in their order. -/
def readValue (erange : Bool) : Value → Option (JsonT × Bool)
  | .literal w =>
      (wordTok long strtod erange w.1).bind fun (tok, erange) =>
        (jsonOf tok).map fun j => (j, erange)
  | .string s => if 0 ∈ s then none else some (.string s, erange)
  | .array elems =>
      (readElements erange elems).map fun (js, erange) => (.array js, erange)
  | .object members => readMembers erange jsonObject members

def readElements (erange : Bool) : List Value → Option (List JsonT × Bool)
  | [] => some ([], erange)
  | v :: elems =>
      (readValue erange v).bind fun (j, erange) =>
        (readElements erange elems).map fun (js, erange) => (j :: js, erange)

/-- The members are set one after the other. -/
def readMembers (erange : Bool) (object : JsonT) : List (Bytes × Value) → Option (JsonT × Bool)
  | [] => some (object, erange)
  | (key, v) :: members =>
      if 0 ∈ key then none
      else
        (readValue erange v).bind fun (j, erange) =>
          (jsonObjectSetNewNocheck object key j).bind fun object =>
            readMembers erange object members

end

/-! ## The token in hand -/

theorem scanTok_cases {erange : Bool} {p : Bytes} {done : Bool} {lex : Lex}
    (h : scanTok long strtod erange p done lex) :
    lex.token = .invalid ∨ lex.token = .eof ∨ ∃ t q, scan p = some (t, q) ∧
      tokenTok long strtod erange t = some (lex.token, lex.erange) ∧ Holds lex.stream q done := by
  rw [scanTok] at h
  cases hscan : scan p with
  | none =>
      rw [hscan] at h
      dsimp only at h
      rw [h]
      split
      · exact .inr (.inl rfl)
      · exact .inl rfl
  | some s =>
      obtain ⟨t, q⟩ := s
      rw [hscan] at h
      dsimp only at h
      cases htok : tokenTok long strtod erange t with
      | none =>
          rw [htok] at h
          exact .inl h
      | some found =>
          obtain ⟨tok, erange'⟩ := found
          rw [htok] at h
          obtain ⟨rfl, rfl, hholds⟩ := h
          exact .inr (.inr ⟨t, q, rfl, htok, hholds⟩)

/-- A word is worth a number or a name. -/
theorem wordTok_json {erange erange' : Bool} {w : Bytes} {tok : Tok}
    (h : wordTok long strtod erange w = some (tok, erange')) : ∃ j, jsonOf tok = some j := by
  rw [wordTok] at h
  split at h
  · cases h
    exact ⟨_, rfl⟩
  · split at h
    · cases h
      exact ⟨_, rfl⟩
    · split at h
      · cases h
        exact ⟨_, rfl⟩
      · split at h
        · obtain ⟨-, heq⟩ := Option.ite_none_right_eq_some.mp h
          cases heq
          exact ⟨_, rfl⟩
        · rw [realTok] at h
          obtain ⟨-, heq⟩ := Option.ite_none_left_eq_some.mp h
          cases heq
          exact ⟨_, rfl⟩

theorem tokenTok_char {erange erange' : Bool} {t : Token} {c : UInt8}
    (h : tokenTok long strtod erange t = some (.char c, erange')) :
    structural? c = some t ∧ erange' = erange := by
  cases t with
  | string s =>
      rw [tokenTok] at h
      obtain ⟨-, heq⟩ := Option.ite_none_left_eq_some.mp h
      cases heq
  | literal w =>
      obtain ⟨j, hj⟩ := wordTok_json long strtod h
      cases hj
  | _ =>
      cases h
      exact ⟨rfl, rfl⟩

theorem tokenTok_string {erange erange' : Bool} {t : Token} {s : Bytes}
    (h : tokenTok long strtod erange t = some (.string s, erange')) :
    t = .string s ∧ 0 ∉ s ∧ erange' = erange := by
  cases t with
  | string u =>
      rw [tokenTok] at h
      obtain ⟨hzero, heq⟩ := Option.ite_none_left_eq_some.mp h
      cases heq
      exact ⟨rfl, hzero, rfl⟩
  | literal w =>
      obtain ⟨j, hj⟩ := wordTok_json long strtod h
      cases hj
  | _ => cases h

theorem tokenTok_literal {erange erange' : Bool} {t : Token} {tok : Tok} {j : JsonT}
    (h : tokenTok long strtod erange t = some (tok, erange')) (hj : jsonOf tok = some j) :
    ∃ w, t = .literal w ∧ readValue long strtod erange (.literal w) = some (j, erange') := by
  cases t with
  | literal w =>
      have hword : wordTok long strtod erange w.1 = some (tok, erange') := h
      refine ⟨w, rfl, ?_⟩
      rw [readValue, hword, Option.bind_some]
      dsimp only
      rw [hj, Option.map_some]
  | string s =>
      rw [tokenTok] at h
      obtain ⟨-, heq⟩ := Option.ite_none_left_eq_some.mp h
      cases heq
      cases hj
  | _ =>
      cases h
      cases hj

variable {long strtod}

/-- The token in hand is a mark. -/
theorem mark_of_token {erange : Bool} {p : Bytes} {done : Bool} {lex : Lex} {c : UInt8}
    (h : scanTok long strtod erange p done lex) (hc : lex.token = .char c) :
    ∃ t q, structural? c = some t ∧ scan p = some (t, q) ∧ lex.erange = erange ∧
      Holds lex.stream q done := by
  rcases scanTok_cases long strtod h with hinvalid | heof | ⟨t, q, hscan, htok, hholds⟩
  · rw [hc] at hinvalid
    cases hinvalid
  · rw [hc] at heof
    cases heof
  · rw [hc] at htok
    obtain ⟨hmark, herange⟩ := tokenTok_char long strtod htok
    exact ⟨t, q, hmark, hscan, herange, hholds⟩

theorem string_of_token {erange : Bool} {p : Bytes} {done : Bool} {lex : Lex} {s : Bytes}
    (h : scanTok long strtod erange p done lex) (hs : lex.token = .string s) :
    ∃ q, scan p = some (.string s, q) ∧ 0 ∉ s ∧ lex.erange = erange ∧ Holds lex.stream q done := by
  rcases scanTok_cases long strtod h with hinvalid | heof | ⟨t, q, hscan, htok, hholds⟩
  · rw [hs] at hinvalid
    cases hinvalid
  · rw [hs] at heof
    cases heof
  · rw [hs] at htok
    obtain ⟨rfl, hzero, herange⟩ := tokenTok_string long strtod htok
    exact ⟨q, hscan, hzero, herange, hholds⟩

theorem literal_of_token {erange : Bool} {p : Bytes} {done : Bool} {lex : Lex} {j : JsonT}
    (h : scanTok long strtod erange p done lex) (hj : jsonOf lex.token = some j) :
    ∃ w q, scan p = some (.literal w, q) ∧
      readValue long strtod erange (.literal w) = some (j, lex.erange) ∧ Holds lex.stream q done := by
  rcases scanTok_cases long strtod h with hinvalid | heof | ⟨t, q, hscan, htok, hholds⟩
  · rw [hinvalid] at hj
    cases hj
  · rw [heof] at hj
    cases hj
  · obtain ⟨w, rfl, hread⟩ := tokenTok_literal long strtod htok hj
    exact ⟨w, q, hscan, hread, hholds⟩

/-! ## Soundness -/

theorem tokens_ne_nil (v : Value) : v.tokens ≠ [] := by
  cases v <;> simp [Value.tokens]

theorem separated_of_ne {tokens : List Token} (h : tokens ≠ []) :
    separated tokens = .valueSeparator :: tokens := by
  cases tokens with
  | nil => exact absurd rfl h
  | cons t tokens => rfl

theorem separated_elements {elems : List Value} (h : elems ≠ []) :
    separated (elementTokens elems) = .valueSeparator :: elementTokens elems := by
  cases elems with
  | nil => exact absurd rfl h
  | cons v elems =>
      refine separated_of_ne fun hnil => ?_
      rw [elementTokens] at hnil
      exact tokens_ne_nil v (List.append_eq_nil_iff.mp hnil).1

theorem separated_members {members : List (Bytes × Value)} (h : members ≠ []) :
    separated (memberTokens members) = .valueSeparator :: memberTokens members := by
  cases members with
  | nil => exact absurd rfl h
  | cons m members => exact separated_of_ne (by simp [memberTokens])

/-- The token behind a mark. -/
theorem runs_cons {p q rest : Bytes} {t : Token} {ts : List Token} (h : scan p = some (t, q))
    (hrest : Runs q ts rest) : Runs p (t :: ts) rest := ⟨q, h, hrest⟩

section
variable (long strtod)

def ValueSound (parse : Lex → Option JsonT × Lex) : Prop :=
  ∀ {erange : Bool} {p : Bytes} {done : Bool} {lex lex' : Lex} {j : JsonT},
    scanTok long strtod erange p done lex → parse lex = (some j, lex') →
    ∃ v q, Runs p v.tokens q ∧ readValue long strtod erange v = some (j, lex'.erange) ∧
      Holds lex'.stream q done

def ObjectSound (parse : Lex → Option JsonT × Lex) : Prop :=
  ∀ {p : Bytes} {done : Bool} {lex lex' : Lex} {j : JsonT},
    Holds lex.stream p done → parse lex = (some j, lex') →
    ∃ members q, Runs p (memberTokens members ++ [Token.endObject]) q ∧
      readMembers long strtod lex.erange jsonObject members = some (j, lex'.erange) ∧
      Holds lex'.stream q done

def MembersSound (parse : JsonT → Lex → Option JsonT × Lex) : Prop :=
  ∀ {erange : Bool} {p : Bytes} {done : Bool} {object : JsonT} {lex lex' : Lex} {j : JsonT},
    scanTok long strtod erange p done lex → parse object lex = (some j, lex') →
    ∃ members q, members ≠ [] ∧ Runs p (memberTokens members ++ [Token.endObject]) q ∧
      readMembers long strtod erange object members = some (j, lex'.erange) ∧
      Holds lex'.stream q done

def ArraySound (parse : Lex → Option JsonT × Lex) : Prop :=
  ∀ {p : Bytes} {done : Bool} {lex lex' : Lex} {j : JsonT},
    Holds lex.stream p done → parse lex = (some j, lex') →
    ∃ elems js q, Runs p (elementTokens elems ++ [Token.endArray]) q ∧
      readElements long strtod lex.erange elems = some (js, lex'.erange) ∧ j = .array js ∧
      Holds lex'.stream q done

def ElementsSound (parse : JsonT → Lex → Option JsonT × Lex) : Prop :=
  ∀ {erange : Bool} {p : Bytes} {done : Bool} {front : List JsonT} {lex lex' : Lex} {j : JsonT},
    scanTok long strtod erange p done lex → parse (.array front) lex = (some j, lex') →
    ∃ elems js q, elems ≠ [] ∧ Runs p (elementTokens elems ++ [Token.endArray]) q ∧
      readElements long strtod erange elems = some (js, lex'.erange) ∧ j = .array (front ++ js) ∧
      Holds lex'.stream q done

end

theorem parseObject_sound {fuel : Nat}
    (hmembers : MembersSound long strtod (parseMembers long strtod fuel)) :
    ObjectSound long strtod (parseObject long strtod (fuel + 1)) := by
  intro p done lex lex' j hholds h
  have hscan := lexScan_at long strtod hholds
  rw [parseObject] at h
  split at h
  · next hclose =>
      cases h
      obtain ⟨t, q, hmark, ht, herange, hq⟩ := mark_of_token hscan hclose
      cases hmark
      refine ⟨[], q, runs_cons ht rfl, ?_, hq⟩
      rw [readMembers, herange]
  · obtain ⟨members, q, -, hrun, hread, hq⟩ := hmembers hscan h
    exact ⟨members, q, hrun, hread, hq⟩

theorem parseArray_sound {fuel : Nat}
    (helements : ElementsSound long strtod (parseElements long strtod fuel)) :
    ArraySound long strtod (parseArray long strtod (fuel + 1)) := by
  intro p done lex lex' j hholds h
  have hscan := lexScan_at long strtod hholds
  rw [parseArray] at h
  split at h
  · next hclose =>
      cases h
      obtain ⟨t, q, hmark, ht, herange, hq⟩ := mark_of_token hscan hclose
      cases hmark
      refine ⟨[], [], q, runs_cons ht rfl, ?_, rfl, hq⟩
      rw [readElements, herange]
  · obtain ⟨elems, js, q, -, hrun, hread, hj, hq⟩ := helements hscan h
    exact ⟨elems, js, q, hrun, hread, hj, hq⟩

theorem parseMembers_sound {fuel : Nat}
    (hvalue : ValueSound long strtod (parseValue long strtod fuel))
    (hmembers : MembersSound long strtod (parseMembers long strtod fuel)) :
    MembersSound long strtod (parseMembers long strtod (fuel + 1)) := by
  intro erange p done object lex lex' j hscan h
  rw [parseMembers] at h
  cases htoken : lex.token with
  | string key =>
      rw [htoken] at h
      dsimp only at h
      obtain ⟨q₁, ht₁, hzero, herange₁, hq₁⟩ := string_of_token hscan htoken
      have hscan₂ := lexScan_at long strtod hq₁
      split at h
      · cases h
      · next hcolon =>
          obtain ⟨t₂, q₂, hmark₂, ht₂, herange₂, hq₂⟩ :=
            mark_of_token hscan₂ (not_not.mp hcolon)
          cases hmark₂
          have hscan₃ := lexScan_at long strtod hq₂
          cases hparse : parseValue long strtod fuel
              (lexScan long strtod (lexScan long strtod lex)) with
          | mk value? lex₃ =>
              rw [hparse] at h
              cases value? with
              | none => cases h
              | some value =>
                  dsimp only at h
                  obtain ⟨v, q₃, hrun₃, hread₃, hq₃⟩ := hvalue hscan₃ hparse
                  rw [herange₂, herange₁] at hread₃
                  cases hset : jsonObjectSetNewNocheck object key value with
                  | none =>
                      rw [hset] at h
                      cases h
                  | some object' =>
                      rw [hset] at h
                      dsimp only at h
                      have hscan₄ := lexScan_at long strtod hq₃
                      -- reading the member
                      have hread : ∀ members, readMembers long strtod erange object
                          ((key, v) :: members) =
                          readMembers long strtod lex₃.erange object' members := by
                        intro members
                        rw [readMembers, if_neg hzero, hread₃, Option.bind_some]
                        dsimp only
                        rw [hset, Option.bind_some]
                      split at h
                      · next hcomma =>
                          obtain ⟨t₄, q₄, hmark₄, ht₄, herange₄, hq₄⟩ :=
                            mark_of_token hscan₄ hcomma
                          cases hmark₄
                          have hscan₅ := lexScan_at long strtod hq₄
                          obtain ⟨members, q, hne, hrun, hreads, hq⟩ := hmembers hscan₅ h
                          rw [herange₄] at hreads
                          refine ⟨(key, v) :: members, q, List.cons_ne_nil _ _, ?_,
                            (hread members).trans hreads, hq⟩
                          rw [memberTokens, separated_members hne, List.cons_append,
                            List.cons_append, List.append_assoc]
                          exact runs_cons ht₁ (runs_cons ht₂
                            ((runs_append _ _).mpr ⟨q₃, hrun₃, runs_cons ht₄ hrun⟩))
                      · split at h
                        · next hclose =>
                            cases h
                            obtain ⟨t₄, q₄, hmark₄, ht₄, herange₄, hq₄⟩ :=
                              mark_of_token hscan₄ hclose
                            cases hmark₄
                            refine ⟨[(key, v)], q₄, List.cons_ne_nil _ _, ?_, ?_, hq₄⟩
                            · rw [memberTokens, memberTokens, separated, List.append_nil]
                              exact runs_cons ht₁ (runs_cons ht₂
                                ((runs_append _ _).mpr ⟨q₃, hrun₃, runs_cons ht₄ rfl⟩))
                            · rw [hread, readMembers, herange₄]
                        · cases h
  | _ =>
      rw [htoken] at h
      cases h

theorem parseElements_sound {fuel : Nat}
    (hvalue : ValueSound long strtod (parseValue long strtod fuel))
    (helements : ElementsSound long strtod (parseElements long strtod fuel)) :
    ElementsSound long strtod (parseElements long strtod (fuel + 1)) := by
  intro erange p done front lex lex' j hscan h
  rw [parseElements] at h
  split at h
  · cases h
  · cases hparse : parseValue long strtod fuel lex with
    | mk elem? lex₁ =>
        rw [hparse] at h
        cases elem? with
        | none => cases h
        | some elem =>
            dsimp only [jsonArrayAppendNew] at h
            obtain ⟨v, q₁, hrun₁, hread₁, hq₁⟩ := hvalue hscan hparse
            have hscan₂ := lexScan_at long strtod hq₁
            split at h
            · next hcomma =>
                obtain ⟨t₂, q₂, hmark₂, ht₂, herange₂, hq₂⟩ := mark_of_token hscan₂ hcomma
                cases hmark₂
                have hscan₃ := lexScan_at long strtod hq₂
                obtain ⟨elems, js, q, hne, hrun, hreads, hj, hq⟩ := helements hscan₃ h
                rw [herange₂] at hreads
                refine ⟨v :: elems, elem :: js, q, List.cons_ne_nil _ _, ?_, ?_, ?_, hq⟩
                · rw [elementTokens, separated_elements hne, List.append_assoc]
                  exact (runs_append _ _).mpr ⟨q₁, hrun₁, runs_cons ht₂ hrun⟩
                · rw [readElements, hread₁, Option.bind_some]
                  dsimp only
                  rw [hreads, Option.map_some]
                · rw [hj, List.append_assoc]
                  rfl
            · split at h
              · next hclose =>
                  cases h
                  obtain ⟨t₂, q₂, hmark₂, ht₂, herange₂, hq₂⟩ := mark_of_token hscan₂ hclose
                  cases hmark₂
                  refine ⟨[v], [elem], q₂, List.cons_ne_nil _ _, ?_, ?_, rfl, hq₂⟩
                  · rw [elementTokens, elementTokens, separated, List.append_nil]
                    exact (runs_append _ _).mpr ⟨q₁, hrun₁, runs_cons ht₂ rfl⟩
                  · rw [readElements, hread₁, Option.bind_some]
                    dsimp only
                    rw [readElements, Option.map_some, herange₂]
              · cases h

/-- One round of `parse_value`. -/
theorem parseValue_round {fuel : Nat}
    (hobject : ObjectSound long strtod (parseObject long strtod fuel))
    (harray : ArraySound long strtod (parseArray long strtod fuel)) :
    ValueSound long strtod (parseValue long strtod (fuel + 1)) := by
  intro erange p done lex lex' j hscan h
  have hliteral : ∀ j', jsonOf lex.token = some j' → (some j', lex) = (some j, lex') →
      ∃ v q, Runs p v.tokens q ∧ readValue long strtod erange v = some (j, lex'.erange) ∧
        Holds lex'.stream q done := by
    intro j' hj heq
    cases heq
    obtain ⟨w, q, ht, hread, hq⟩ := literal_of_token hscan hj
    exact ⟨.literal w, q, runs_cons ht rfl, hread, hq⟩
  rw [parseValue] at h
  cases htoken : lex.token with
  | string s =>
      rw [htoken] at h
      cases h
      obtain ⟨q, ht, hzero, herange, hq⟩ := string_of_token hscan htoken
      refine ⟨.string s, q, runs_cons ht rfl, ?_, hq⟩
      rw [readValue, if_neg hzero, herange]
  | char c =>
      rw [htoken] at h
      dsimp only at h
      obtain ⟨t, q, hmark, ht, herange, hq⟩ := mark_of_token hscan htoken
      split at h
      · next hopen =>
          subst hopen
          cases hmark
          obtain ⟨members, q', hrun, hread, hq'⟩ := hobject hq h
          rw [herange] at hread
          refine ⟨.object members, q', ?_, hread, hq'⟩
          rw [Value.tokens]
          exact runs_cons ht hrun
      · split at h
        · next hopen =>
            subst hopen
            cases hmark
            obtain ⟨elems, js, q', hrun, hread, rfl, hq'⟩ := harray hq h
            rw [herange] at hread
            refine ⟨.array elems, q', ?_, ?_, hq'⟩
            · rw [Value.tokens]
              exact runs_cons ht hrun
            · rw [readValue, hread, Option.map_some]
        · cases h
  | integer i =>
      rw [htoken] at h
      exact hliteral _ (by rw [htoken, jsonOf]) h
  | real r =>
      rw [htoken] at h
      exact hliteral _ (by rw [htoken, jsonOf]) h
  | true =>
      rw [htoken] at h
      exact hliteral _ (by rw [htoken, jsonOf]) h
  | false =>
      rw [htoken] at h
      exact hliteral _ (by rw [htoken, jsonOf]) h
  | null =>
      rw [htoken] at h
      exact hliteral _ (by rw [htoken, jsonOf]) h
  | invalid =>
      rw [htoken] at h
      cases h
  | eof =>
      rw [htoken] at h
      cases h

theorem parse_sound (fuel : Nat) :
    ValueSound long strtod (parseValue long strtod fuel) ∧
    ObjectSound long strtod (parseObject long strtod fuel) ∧
    MembersSound long strtod (parseMembers long strtod fuel) ∧
    ArraySound long strtod (parseArray long strtod fuel) ∧
    ElementsSound long strtod (parseElements long strtod fuel) := by
  induction fuel with
  | zero =>
      refine ⟨?_, ?_, ?_, ?_, ?_⟩
      · intro _ _ _ _ _ _ _ h
        rw [parseValue] at h
        cases h
      · intro _ _ _ _ _ _ h
        rw [parseObject] at h
        cases h
      · intro _ _ _ _ _ _ _ _ h
        rw [parseMembers] at h
        cases h
      · intro _ _ _ _ _ _ h
        rw [parseArray] at h
        cases h
      · intro _ _ _ _ _ _ _ _ h
        rw [parseElements] at h
        cases h
  | succ fuel ih =>
      obtain ⟨hvalue, hobject, hmembers, harray, helements⟩ := ih
      exact ⟨parseValue_round hobject harray, parseObject_sound hmembers,
        parseMembers_sound hvalue hmembers, parseArray_sound helements,
        parseElements_sound hvalue helements⟩

/-! ## Completeness -/

theorem token_of_scan {erange erange' : Bool} {p q : Bytes} {done : Bool} {lex : Lex} {t : Token}
    {tok : Tok} (h : scanTok long strtod erange p done lex) (ht : scan p = some (t, q))
    (htok : tokenTok long strtod erange t = some (tok, erange')) :
    lex.token = tok ∧ lex.erange = erange' ∧ Holds lex.stream q done := by
  rw [scanTok, ht] at h
  dsimp only at h
  rw [htok] at h
  exact h

theorem token_of_mark {erange : Bool} {p q : Bytes} {done : Bool} {lex : Lex} {t : Token} {c : UInt8}
    (h : scanTok long strtod erange p done lex) (ht : scan p = some (t, q))
    (hc : structural? c = some t) :
    lex.token = .char c ∧ lex.erange = erange ∧ Holds lex.stream q done :=
  token_of_scan h ht (structural?_some long strtod hc erange).2

/-- Where a value begins the text is not over. -/
theorem token_ne_eof {erange : Bool} {p q : Bytes} {done : Bool} {lex : Lex} {t : Token}
    (h : scanTok long strtod erange p done lex) (ht : scan p = some (t, q)) : lex.token ≠ .eof := by
  rw [scanTok, ht] at h
  dsimp only at h
  cases htok : tokenTok long strtod erange t with
  | none =>
      rw [htok] at h
      rw [show lex.token = .invalid from h]
      intro heof
      cases heof
  | some found =>
      obtain ⟨tok, erange'⟩ := found
      rw [htok] at h
      obtain ⟨rfl, -, -⟩ := h
      intro heof
      rw [heof] at htok
      cases t with
      | literal w =>
          obtain ⟨j, hj⟩ := wordTok_json long strtod htok
          cases hj
      | string s =>
          rw [tokenTok] at htok
          obtain ⟨-, heq⟩ := Option.ite_none_left_eq_some.mp htok
          cases heq
      | _ => cases htok

theorem parseValue_literal {fuel : Nat} {lex : Lex} {j : JsonT} (h : jsonOf lex.token = some j) :
    parseValue long strtod (fuel + 1) lex = (some j, lex) := by
  rw [parseValue]
  cases htoken : lex.token with
  | string s =>
      rw [htoken] at h
      cases h
  | char c =>
      rw [htoken] at h
      cases h
  | invalid =>
      rw [htoken] at h
      cases h
  | eof =>
      rw [htoken] at h
      cases h
  | _ =>
      rw [htoken] at h
      cases h
      rfl

section
variable (long strtod)

def ValueComplete (fuel : Nat) : Prop :=
  ∀ {v : Value} {erange erange' : Bool} {p q : Bytes} {done : Bool} {lex : Lex} {j : JsonT},
    3 * v.tokens.length ≤ fuel → scanTok long strtod erange p done lex → Runs p v.tokens q →
    readValue long strtod erange v = some (j, erange') →
    ∃ lex', parseValue long strtod fuel lex = (some j, lex') ∧ lex'.erange = erange' ∧
      Holds lex'.stream q done

def ObjectComplete (fuel : Nat) : Prop :=
  ∀ {members : List (Bytes × Value)} {erange' : Bool} {p q : Bytes} {done : Bool} {lex : Lex}
    {j : JsonT}, 3 * (memberTokens members).length + 5 ≤ fuel → Holds lex.stream p done →
    Runs p (memberTokens members ++ [Token.endObject]) q →
    readMembers long strtod lex.erange jsonObject members = some (j, erange') →
    ∃ lex', parseObject long strtod fuel lex = (some j, lex') ∧ lex'.erange = erange' ∧
      Holds lex'.stream q done

def MembersComplete (fuel : Nat) : Prop :=
  ∀ {m : Bytes × Value} {members : List (Bytes × Value)} {erange erange' : Bool} {p q : Bytes}
    {done : Bool} {lex : Lex} {object j : JsonT},
    3 * (memberTokens (m :: members)).length + 1 ≤ fuel →
    scanTok long strtod erange p done lex →
    Runs p (memberTokens (m :: members) ++ [Token.endObject]) q →
    readMembers long strtod erange object (m :: members) = some (j, erange') →
    ∃ lex', parseMembers long strtod fuel object lex = (some j, lex') ∧ lex'.erange = erange' ∧
      Holds lex'.stream q done

def ArrayComplete (fuel : Nat) : Prop :=
  ∀ {elems : List Value} {erange' : Bool} {p q : Bytes} {done : Bool} {lex : Lex}
    {js : List JsonT}, 3 * (elementTokens elems).length + 5 ≤ fuel → Holds lex.stream p done →
    Runs p (elementTokens elems ++ [Token.endArray]) q →
    readElements long strtod lex.erange elems = some (js, erange') →
    ∃ lex', parseArray long strtod fuel lex = (some (.array js), lex') ∧ lex'.erange = erange' ∧
      Holds lex'.stream q done

def ElementsComplete (fuel : Nat) : Prop :=
  ∀ (front : List JsonT) {v : Value} {elems : List Value} {erange erange' : Bool} {p q : Bytes}
    {done : Bool} {lex : Lex} {js : List JsonT}, 3 * (elementTokens (v :: elems)).length + 1 ≤ fuel →
    scanTok long strtod erange p done lex →
    Runs p (elementTokens (v :: elems) ++ [Token.endArray]) q →
    readElements long strtod erange (v :: elems) = some (js, erange') →
    ∃ lex', parseElements long strtod fuel (.array front) lex = (some (.array (front ++ js)), lex') ∧
      lex'.erange = erange' ∧ Holds lex'.stream q done

end

theorem parseValue_complete {fuel : Nat} (hobject : ObjectComplete long strtod fuel)
    (harray : ArrayComplete long strtod fuel) : ValueComplete long strtod (fuel + 1) := by
  intro v erange erange' p q done lex j hfuel hscan hrun hread
  cases v with
  | literal w =>
      rw [Value.tokens] at hrun
      obtain ⟨r, ht, rfl⟩ := hrun
      rw [readValue] at hread
      obtain ⟨⟨tok, e⟩, hword, hread⟩ := Option.bind_eq_some_iff.mp hread
      obtain ⟨j', hj, heq⟩ := Option.map_eq_some_iff.mp hread
      cases heq
      obtain ⟨rfl, rfl, hq⟩ := token_of_scan hscan ht hword
      exact ⟨lex, parseValue_literal hj, rfl, hq⟩
  | string s =>
      rw [Value.tokens] at hrun
      obtain ⟨r, ht, rfl⟩ := hrun
      rw [readValue] at hread
      obtain ⟨hzero, heq⟩ := Option.ite_none_left_eq_some.mp hread
      cases heq
      obtain ⟨htoken, rfl, hq⟩ := token_of_scan hscan ht (by rw [tokenTok, if_neg hzero])
      refine ⟨lex, ?_, rfl, hq⟩
      rw [parseValue, htoken]
  | array elems =>
      rw [Value.tokens] at hrun hfuel
      obtain ⟨r, ht, hrun⟩ := hrun
      rw [readValue] at hread
      obtain ⟨⟨js, e⟩, hreads, heq⟩ := Option.map_eq_some_iff.mp hread
      cases heq
      obtain ⟨htoken, rfl, hr⟩ := token_of_mark hscan ht (c := 91) rfl
      rw [List.length_cons, List.length_append, List.length_singleton] at hfuel
      rw [parseValue, htoken]
      exact harray (by omega) hr hrun hreads
  | object members =>
      rw [Value.tokens] at hrun hfuel
      obtain ⟨r, ht, hrun⟩ := hrun
      rw [readValue] at hread
      obtain ⟨htoken, rfl, hr⟩ := token_of_mark hscan ht (c := 123) rfl
      rw [List.length_cons, List.length_append, List.length_singleton] at hfuel
      rw [parseValue, htoken]
      exact hobject (by omega) hr hrun hread

theorem parseArray_complete {fuel : Nat} (helements : ElementsComplete long strtod fuel) :
    ArrayComplete long strtod (fuel + 1) := by
  intro elems erange' p q done lex js hfuel hholds hrun hread
  have hscan := lexScan_at long strtod hholds
  rw [parseArray]
  cases elems with
  | nil =>
      obtain ⟨r, ht, rfl⟩ := hrun
      obtain ⟨htoken, herange, hq⟩ := token_of_mark hscan ht (c := 93) rfl
      rw [readElements] at hread
      cases hread
      rw [if_pos htoken]
      exact ⟨_, rfl, herange, hq⟩
  | cons v elems =>
      obtain ⟨t, ts, htokens⟩ := List.exists_cons_of_ne_nil (tokens_ne_nil v)
      have hclose : (lexScan long strtod lex).token ≠ .char 93 := by
        intro hclose
        obtain ⟨t', q', hmark, ht', -, -⟩ := mark_of_token hscan hclose
        cases hmark
        rw [elementTokens, htokens] at hrun
        obtain ⟨r, ht, -⟩ := hrun
        rw [ht] at ht'
        obtain ⟨rfl, -⟩ := Prod.mk.inj (Option.some.inj ht')
        cases v <;> simp [Value.tokens] at htokens
      rw [if_neg hclose]
      have hshort : 3 * (elementTokens (v :: elems)).length + 1 ≤ fuel := by omega
      exact helements [] hshort hscan hrun hread

theorem parseObject_complete {fuel : Nat} (hmembers : MembersComplete long strtod fuel) :
    ObjectComplete long strtod (fuel + 1) := by
  intro members erange' p q done lex j hfuel hholds hrun hread
  have hscan := lexScan_at long strtod hholds
  rw [parseObject]
  cases members with
  | nil =>
      obtain ⟨r, ht, rfl⟩ := hrun
      obtain ⟨htoken, herange, hq⟩ := token_of_mark hscan ht (c := 125) rfl
      rw [readMembers] at hread
      cases hread
      rw [if_pos htoken]
      exact ⟨_, rfl, herange, hq⟩
  | cons m members =>
      have hclose : (lexScan long strtod lex).token ≠ .char 125 := by
        intro hclose
        obtain ⟨t', q', hmark, ht', -, -⟩ := mark_of_token hscan hclose
        cases hmark
        rw [memberTokens] at hrun
        obtain ⟨r, ht, -⟩ := hrun
        rw [ht] at ht'
        cases ht'
      rw [if_neg hclose]
      have hshort : 3 * (memberTokens (m :: members)).length + 1 ≤ fuel := by omega
      exact hmembers hshort hscan hrun hread

theorem parseElements_complete {fuel : Nat} (hvalue : ValueComplete long strtod fuel)
    (helements : ElementsComplete long strtod fuel) : ElementsComplete long strtod (fuel + 1) := by
  intro front v elems erange erange' p q done lex js hfuel hscan hrun hread
  obtain ⟨t, ts, htokens⟩ := List.exists_cons_of_ne_nil (tokens_ne_nil v)
  have hstart : lex.token ≠ .eof := by
    rw [elementTokens, htokens] at hrun
    obtain ⟨r, ht, -⟩ := hrun
    exact token_ne_eof hscan ht
  rw [elementTokens, List.append_assoc] at hrun
  obtain ⟨q₁, hrun₁, hrest⟩ := (runs_append _ _).mp hrun
  rw [readElements] at hread
  obtain ⟨⟨j, e⟩, hread₁, hread⟩ := Option.bind_eq_some_iff.mp hread
  obtain ⟨⟨js', e'⟩, hreads, heq⟩ := Option.map_eq_some_iff.mp hread
  cases heq
  rw [elementTokens, List.length_append] at hfuel
  have hshort : 3 * v.tokens.length ≤ fuel := by omega
  obtain ⟨lex₁, hparse₁, rfl, hq₁⟩ := hvalue hshort hscan hrun₁ hread₁
  have hscan₂ := lexScan_at long strtod hq₁
  rw [parseElements, if_neg hstart, hparse₁]
  dsimp only [jsonArrayAppendNew]
  cases elems with
  | nil =>
      obtain ⟨q₂, ht₂, rfl⟩ := hrest
      obtain ⟨htoken₂, herange₂, hq₂⟩ := token_of_mark hscan₂ ht₂ (c := 93) rfl
      rw [readElements] at hreads
      cases hreads
      rw [if_neg (by rw [htoken₂]; decide), if_pos htoken₂]
      exact ⟨_, rfl, herange₂, hq₂⟩
  | cons v' elems =>
      rw [separated_elements (List.cons_ne_nil _ _)] at hrest hfuel
      obtain ⟨q₂, ht₂, hrest⟩ := hrest
      obtain ⟨htoken₂, herange₂, hq₂⟩ := token_of_mark hscan₂ ht₂ (c := 44) rfl
      have hscan₃ := lexScan_at long strtod hq₂
      rw [herange₂] at hscan₃
      rw [if_pos htoken₂]
      rw [List.length_cons] at hfuel
      have hrestShort : 3 * (elementTokens (v' :: elems)).length + 1 ≤ fuel := by omega
      obtain ⟨lex', hparse, herange, hq⟩ :=
        helements (front ++ [j]) hrestShort hscan₃ hrest hreads
      refine ⟨lex', ?_, herange, hq⟩
      rw [hparse, List.append_assoc]
      rfl

theorem parseMembers_complete {fuel : Nat} (hvalue : ValueComplete long strtod fuel)
    (hmembers : MembersComplete long strtod fuel) : MembersComplete long strtod (fuel + 1) := by
  intro m members erange erange' p q done lex object j hfuel hscan hrun hread
  obtain ⟨key, v⟩ := m
  rw [memberTokens, List.cons_append, List.cons_append, List.append_assoc] at hrun
  obtain ⟨q₁, ht₁, q₂, ht₂, hrun⟩ := hrun
  obtain ⟨q₃, hrun₃, hrest⟩ := (runs_append _ _).mp hrun
  rw [readMembers] at hread
  obtain ⟨hzero, hread⟩ := Option.ite_none_left_eq_some.mp hread
  obtain ⟨⟨value, e⟩, hread₃, hread⟩ := Option.bind_eq_some_iff.mp hread
  obtain ⟨object', hset, hreads⟩ := Option.bind_eq_some_iff.mp hread
  obtain ⟨htoken₁, herange₁, hq₁⟩ := token_of_scan hscan ht₁ (by rw [tokenTok, if_neg hzero])
  have hscan₂ := lexScan_at long strtod hq₁
  obtain ⟨htoken₂, herange₂, hq₂⟩ := token_of_mark hscan₂ ht₂ (c := 58) rfl
  have hscan₃ := lexScan_at long strtod hq₂
  rw [herange₂, herange₁] at hscan₃
  rw [memberTokens, List.length_cons, List.length_cons, List.length_append] at hfuel
  have hshort : 3 * v.tokens.length ≤ fuel := by omega
  obtain ⟨lex₃, hparse₃, rfl, hq₃⟩ := hvalue hshort hscan₃ hrun₃ hread₃
  have hscan₄ := lexScan_at long strtod hq₃
  rw [parseMembers, htoken₁]
  dsimp only
  rw [if_neg (not_not_intro htoken₂), hparse₃]
  dsimp only at hset ⊢
  rw [hset]
  dsimp only
  cases members with
  | nil =>
      obtain ⟨q₄, ht₄, rfl⟩ := hrest
      obtain ⟨htoken₄, herange₄, hq₄⟩ := token_of_mark hscan₄ ht₄ (c := 125) rfl
      rw [readMembers] at hreads
      cases hreads
      rw [if_neg (by rw [htoken₄]; decide), if_pos htoken₄]
      exact ⟨_, rfl, herange₄, hq₄⟩
  | cons m members =>
      rw [separated_members (List.cons_ne_nil _ _)] at hrest hfuel
      obtain ⟨q₄, ht₄, hrest⟩ := hrest
      obtain ⟨htoken₄, herange₄, hq₄⟩ := token_of_mark hscan₄ ht₄ (c := 44) rfl
      have hscan₅ := lexScan_at long strtod hq₄
      rw [herange₄] at hscan₅
      rw [if_pos htoken₄]
      rw [List.length_cons] at hfuel
      have hrestShort : 3 * (memberTokens (m :: members)).length + 1 ≤ fuel := by omega
      exact hmembers hrestShort hscan₅ hrest hreads

theorem parse_complete (fuel : Nat) :
    ValueComplete long strtod fuel ∧ ObjectComplete long strtod fuel ∧
    MembersComplete long strtod fuel ∧ ArrayComplete long strtod fuel ∧
    ElementsComplete long strtod fuel := by
  induction fuel with
  | zero =>
      refine ⟨?_, ?_, ?_, ?_, ?_⟩
      · intro v _ _ _ _ _ _ _ hfuel
        have hpos := List.length_pos_of_ne_nil (tokens_ne_nil v)
        omega
      · intro _ _ _ _ _ _ _ hfuel
        omega
      · intro _ _ _ _ _ _ _ _ _ _ hfuel
        omega
      · intro _ _ _ _ _ _ _ hfuel
        omega
      · intro _ _ _ _ _ _ _ _ _ _ hfuel
        omega
  | succ fuel ih =>
      obtain ⟨hvalue, hobject, hmembers, harray, helements⟩ := ih
      exact ⟨parseValue_complete hobject harray, parseObject_complete hmembers,
        parseMembers_complete hvalue hmembers, parseArray_complete helements,
        parseElements_complete hvalue helements⟩

/-! ## Whole texts -/

theorem holds_start {text p junk : Bytes} {done : Bool} (htext : text = p ++ junk)
    (hzero : 0 ∉ text) (hp : Utf8 p) (hstops : Stops junk done) :
    Holds ⟨text, [], 0, 0⟩ p done := by
  subst htext
  refine .text p junk rfl rfl hp (fun c hc => ⟨?_, utf8_ne_eof hp hc⟩) ?_ hstops
  · rintro rfl
    exact hzero (List.mem_append_left _ hc)
  · exact fun h => hzero (List.mem_append_right _ h)

variable (long strtod) in
/-- The first token. -/
theorem scan_start {text : CString} {p junk : Bytes} {done : Bool} (erange : Bool)
    (htext : text.1 = p ++ junk) (hp : Utf8 p) (hstops : Stops junk done) :
    scanTok long strtod erange p done (lexScan long strtod
      ⟨⟨text.1, [], 0, 0⟩, [], .invalid, 1, ⟨[], -1⟩, erange⟩) := by
  have hholds : Holds (Lex.mk ⟨text.1, [], 0, 0⟩ [] .invalid 1 ⟨[], -1⟩ erange).stream p done :=
    holds_start htext text.2 hp hstops
  exact lexScan_at long strtod hholds

theorem scan_none_of_blank {p : Bytes} (h : p.dropWhile isBlank = []) : scan p = none := by
  rw [scan, h]

theorem jsonLoads_sound {erange : Bool} {text : CString} {j : JsonT}
    (h : (jsonLoads long strtod erange text).1 = some j) :
    ∃ doc junk v e, text.1 = doc ++ junk ∧ Dangling junk ∧ Says doc v ∧ v.isContainer = true ∧
      readValue long strtod erange v = some (j, e) := by
  obtain ⟨p, junk, done, htext, hp, hstops⟩ := exists_stops text.1
  have hscan := scan_start long strtod erange htext hp hstops
  rw [jsonLoads, parseJson] at h
  generalize 4 * text.1.length + 4 = fuel at h
  generalize Lex.mk ⟨text.1, [], 0, 0⟩ [] .invalid 1 ⟨[], -1⟩ erange = start at h hscan
  by_cases hroot : (lexScan long strtod start).token ≠ .char 91 ∧
      (lexScan long strtod start).token ≠ .char 123
  · rw [if_pos hroot] at h
    cases h
  · rw [if_neg hroot] at h
    cases hparse : parseValue long strtod fuel (lexScan long strtod start) with
    | mk result lex₁ =>
        rw [hparse] at h
        cases result with
        | none => cases h
        | some j' =>
            rw [loadsEnd] at h
            obtain ⟨v, q, hrun, hread, hq⟩ := (parse_sound _).1 hscan hparse
            have hscan₂ := lexScan_at long strtod hq
            split at h
            · cases h
            · next heof =>
                cases h
                have heof := not_not.mp heof
                rw [scanTok] at hscan₂
                cases hnext : scan q with
                | some s =>
                    exact absurd heof (token_ne_eof (lexScan_at long strtod hq)
                      hnext)
                | none =>
                    rw [hnext] at hscan₂
                    dsimp only at hscan₂
                    rw [heof] at hscan₂
                    have hend : q.dropWhile isBlank = [] ∧ done = true := by
                      by_contra hno
                      rw [if_neg hno] at hscan₂
                      cases hscan₂
                    have hcontainer : v.isContainer = true := by
                      have hopen : ∃ c, (lexScan long strtod start).token =
                          .char c ∧ (c = 91 ∨ c = 123) := by
                        by_cases hbracket :
                            (lexScan long strtod start).token = .char 91
                        · exact ⟨91, hbracket, .inl rfl⟩
                        · exact ⟨123, by_contra fun hbrace => hroot ⟨hbracket, hbrace⟩, .inr rfl⟩
                      obtain ⟨c, htoken, hc⟩ := hopen
                      obtain ⟨t, r, hmark, ht, -, -⟩ := mark_of_token hscan htoken
                      cases v with
                      | array elems => rfl
                      | object members => rfl
                      | literal w =>
                          rw [Value.tokens] at hrun
                          obtain ⟨r', ht', -⟩ := hrun
                          rw [ht] at ht'
                          cases ht'
                          rcases hc with rfl | rfl <;> cases hmark
                      | string s =>
                          rw [Value.tokens] at hrun
                          obtain ⟨r', ht', -⟩ := hrun
                          rw [ht] at ht'
                          cases ht'
                          rcases hc with rfl | rfl <;> cases hmark
                    exact ⟨p, junk, v, _, htext, stops_iff_dangling.mp (hend.2 ▸ hstops),
                      ⟨hp, lex_of_runs hrun (Value.settled_root hcontainer) hend.1⟩, hcontainer, hread⟩

theorem jsonLoads_complete {erange e : Bool} {text : CString} {j : JsonT} {doc junk : Bytes}
    {v : Value} (htext : text.1 = doc ++ junk) (hjunk : Dangling junk) (hdoc : Says doc v)
    (hv : v.isContainer = true) (hread : readValue long strtod erange v = some (j, e)) :
    (jsonLoads long strtod erange text).1 = some j := by
  have hscan := scan_start long strtod erange htext hdoc.1 (stops_iff_dangling.mpr hjunk)
  obtain ⟨q, hrun, hblank⟩ := runs_of_lex hdoc.2
  have hlength := runs_length hrun
  have hdoc : doc.length ≤ text.1.length := by
    rw [htext, List.length_append]
    exact Nat.le_add_right _ _
  obtain ⟨fuel, hfuelEq⟩ : ∃ fuel, 4 * text.1.length + 4 = fuel := ⟨_, rfl⟩
  have hfuel : 3 * v.tokens.length ≤ fuel := by omega
  rw [jsonLoads, parseJson, hfuelEq]
  generalize Lex.mk ⟨text.1, [], 0, 0⟩ [] .invalid 1 ⟨[], -1⟩ erange = start at hscan ⊢
  obtain ⟨lex', hparse, -, hq⟩ := (parse_complete _).1 hfuel hscan hrun hread
  have hroot : (lexScan long strtod start).token = .char 91 ∨
      (lexScan long strtod start).token = .char 123 := by
    cases v with
    | array elems =>
        rw [Value.tokens] at hrun
        obtain ⟨r, ht, -⟩ := hrun
        exact .inl (token_of_mark hscan ht rfl).1
    | object members =>
        rw [Value.tokens] at hrun
        obtain ⟨r, ht, -⟩ := hrun
        exact .inr (token_of_mark hscan ht rfl).1
    | literal w => cases hv
    | string s => cases hv
  have heof : (lexScan long strtod lex').token = .eof := by
    have hscan₂ := lexScan_at long strtod hq
    rw [scanTok, scan_none_of_blank hblank] at hscan₂
    dsimp only at hscan₂
    rw [if_pos ⟨hblank, rfl⟩] at hscan₂
    exact hscan₂
  rw [if_neg fun h => hroot.elim h.1 h.2, hparse, loadsEnd]
  rw [if_neg (not_not_intro heof)]

end

/-- The texts that `json_loads` reads and what it reads them as: a text of the grammar with
an array or an object at the top, whose strings have no zero byte and whose numbers fit,
and behind it at most one sequence that cannot be decoded. For texts of less than 2^31
bytes, whose positions and lengths are the `int`s of the source. -/
theorem jsonLoads_iff (long : LongWidth) (strtod : Bytes → Rat × Bool) (erange : Bool)
    (text : CString) (j : JsonT) :
    (jsonLoads long strtod erange text).1 = some j ↔
      ∃ doc junk v e, text.1 = doc ++ junk ∧ Dangling junk ∧ Says doc v ∧ v.isContainer = true ∧
        readValue long strtod erange v = some (j, e) := by
  constructor
  · exact jsonLoads_sound
  · rintro ⟨doc, junk, v, e, htext, hjunk, hsays, hv, hread⟩
    exact jsonLoads_complete htext hjunk hsays hv hread

end AlphaMiner.Jansson
