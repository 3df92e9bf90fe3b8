import AlphaMiner.Proofs.Jansson.DumpText
import AlphaMiner.Proofs.Jansson.Objects

/-!
# What is written out is read back

Whatever the flags are, `json_dumps` writes a text of the grammar that says what the
value is (`doDump_spells`), and that text is read as a value that `json_equal` finds
equal (`jsonLoads_jsonDumps`). The order of the members is the only thing that is lost,
and it is nothing that `json_equal` looks at.

For that every string has to be UTF-8 without a zero byte, no object may have two
members of one name, and each real has to survive `%.17g` and `strtod` (`Writable`).
And `errno` must not be `ERANGE` when the text is read.
-/

namespace AlphaMiner.Jansson

open Lib Lib.JsonText

/-! ## Texts in front of a text -/

theorem lex_mark {c : UInt8} {t : Token} (hc : structural? c = some t) {q : Bytes}
    {ts : List Token} (hq : lex q = some ts) : lex (c :: q) = some (t :: ts) := by
  have hmark : c = 123 ∨ c = 125 ∨ c = 91 ∨ c = 93 ∨ c = 58 ∨ c = 44 := by
    simp only [structural?] at hc
    split_ifs at hc <;> simp_all
  have hscan : scan (c :: q) = some (t, q) := by
    have hblank : isBlank c = false := by
      rcases hmark with rfl | rfl | rfl | rfl | rfl | rfl <;> rfl
    rw [scan, List.dropWhile_cons_of_neg (by rw [hblank]; exact Bool.false_ne_true)]
    dsimp only
    rw [hc]
  refine lex_cons.mpr ⟨q, hscan, fun hlit => ?_, hq⟩
  obtain ⟨w, rfl⟩ := hlit
  rcases hmark with rfl | rfl | rfl | rfl | rfl | rfl <;> cases hc

theorem lex_blanks {blanks : Bytes} (h : blanks.all isBlank = true) (q : Bytes) :
    lex (blanks ++ q) = lex q := by
  rw [← lex_dropWhile_blank (blanks ++ q), ← lex_dropWhile_blank q,
    List.dropWhile_append_of_pos (List.all_eq_true.mp h)]

theorem ends_blanks {blanks q : Bytes} (h : blanks.all isBlank = true) (hq : Ends q) :
    Ends (blanks ++ q) := by
  cases blanks with
  | nil => exact hq
  | cons c blanks =>
      rw [List.all_cons, Bool.and_eq_true] at h
      simp [Ends, endsWord, h.1]

theorem lex_literal (w : Literal) {q : Bytes} {ts : List Token} (hq : Ends q)
    (hts : lex q = some ts) : lex (w.1 ++ q) = some (.literal w :: ts) := by
  refine lex_cons.mpr ⟨q, ?_, fun _ => hq, hts⟩
  have hword := scanWord_append w.2 hq
  have hall := not_endsWord_of_literal w.2
  obtain ⟨c, rest, hw⟩ : ∃ c rest, w.1 = c :: rest := by
    cases hw : w.1 with
    | nil =>
        have hlit := w.2
        rw [hw] at hlit
        cases hlit
    | cons c rest => exact ⟨c, rest, rfl⟩
  have hc : endsWord c = false := by
    have hfirst := List.all_eq_true.mp hall c (by rw [hw]; exact List.mem_cons_self)
    simpa using hfirst
  simp only [endsWord, Bool.or_eq_false_iff, decide_eq_false_iff_not] at hc
  obtain ⟨⟨hblank, hquote⟩, hmark⟩ := hc
  have hstructural : structural? c = none := by simpa using hmark
  rw [hw, List.cons_append] at hword ⊢
  rw [scan, List.dropWhile_cons_of_neg (by rw [hblank]; exact Bool.false_ne_true)]
  dsimp only
  rw [hstructural]
  dsimp only
  rw [if_neg hquote, hword]
  dsimp only [Option.bind_some]
  rw [← hw, literal?_val]
  rfl

theorem lex_dumped (ascii : Bool) (cs : List Char) {q : Bytes} {ts : List Token}
    (hq : lex q = some ts) :
    lex (34 :: (cs.flatMap (piece ascii) ++ 34 :: q)) =
      some (.string (cs.flatMap String.utf8EncodeChar) :: ts) := by
  have hrun : Lexer.start.run (34 :: (cs.flatMap (piece ascii) ++ 34 :: q)) =
      (Lexer.mk [.string (cs.flatMap String.utf8EncodeChar)] .blank).run q := by
    have hopen : Lexer.start.step 34 = some ⟨[], .string []⟩ := rfl
    have hclose : ∀ s, (Lexer.mk [] (.string s)).step 34 = some ⟨[.string s], .blank⟩ :=
      fun _ => rfl
    rw [Lexer.run_cons, hopen, Option.bind_some, Lexer.run_append, run_pieces, Option.bind_some,
      Lexer.run_cons, hclose, List.nil_append, Option.bind_some]
  rw [lex, hrun, lex_after, hq]
  rfl

/-! ## Indentation -/

theorem dumpIndent_blank (flags depth : Nat) (space : Bool) :
    (dumpIndent flags depth space).all isBlank = true := by
  rw [dumpIndent]
  split
  · rw [List.all_cons, Bool.and_eq_true]
    refine ⟨rfl, List.all_eq_true.mpr fun c hc => ?_⟩
    obtain ⟨l, hl, hc⟩ := List.mem_flatten.mp hc
    rw [List.eq_of_mem_replicate hl] at hc
    rw [List.eq_of_mem_replicate hc]
    rfl
  · split <;> rfl

theorem utf8_blanks {blanks : Bytes} (h : blanks.all isBlank = true) : Utf8 blanks := by
  refine utf8_of_ascii (List.all_eq_true.mpr fun c hc => ?_)
  have hblank := List.all_eq_true.mp h c hc
  simp only [isBlank, Bool.or_eq_true, decide_eq_true_eq] at hblank
  rcases hblank with ((rfl | rfl) | rfl) | rfl <;> decide

/-! ## Items with separators -/

/-- A text in front of whatever may stand behind a word. -/
structure Spells (text : Bytes) (tokens : List Token) : Prop where
  utf8 : Utf8 text
  lexed : ∀ q ts, Ends q → lex q = some ts → lex (text ++ q) = some (tokens ++ ts)

def joinTokens : List (List Token) → List Token
  | [] => []
  | tokens :: rest => tokens ++ separated (joinTokens rest)

theorem elementTokens_join (elems : List Value) :
    elementTokens elems = joinTokens (elems.map Value.tokens) := by
  induction elems with
  | nil => rfl
  | cons v elems ih => rw [elementTokens, ih, List.map_cons, joinTokens]

theorem memberTokens_join (members : List (Bytes × Value)) :
    memberTokens members =
      joinTokens (members.map fun m => .string m.1 :: .nameSeparator :: m.2.tokens) := by
  induction members with
  | nil => rfl
  | cons m members ih =>
      obtain ⟨name, v⟩ := m
      rw [memberTokens, ih, List.map_cons, joinTokens]
      rfl

theorem joinTokens_ne_nil {tokens : List Token} (h : tokens ≠ []) (rest : List (List Token)) :
    joinTokens (tokens :: rest) ≠ [] := fun hnil => h (List.append_eq_nil_iff.mp hnil).1

/-- The items one after the other, each with what comes behind it. -/
theorem join_spells (flags depth : Nat) {items : List (Bytes × List Token)}
    (h : ∀ it ∈ items, Spells it.1 it.2 ∧ it.2 ≠ []) :
    Utf8 (joinDumped flags depth (items.map Prod.fst)) ∧ ∀ q ts, Ends q → lex q = some ts →
      lex (joinDumped flags depth (items.map Prod.fst) ++ q) =
        some (joinTokens (items.map Prod.snd) ++ ts) := by
  induction items with
  | nil => exact ⟨⟨[], rfl⟩, fun q ts _ hts => hts⟩
  | cons it items ih =>
      obtain ⟨hspells, hne⟩ := h it List.mem_cons_self
      cases items with
      | nil =>
          have hblank := dumpIndent_blank flags depth false
          refine ⟨hspells.utf8.append (utf8_blanks hblank), fun q ts hq hts => ?_⟩
          rw [List.map_singleton, joinDumped, List.append_assoc,
            hspells.lexed _ ts (ends_blanks hblank hq) ((lex_blanks hblank q).trans hts)]
          simp [joinTokens, separated]
      | cons next items =>
          obtain ⟨hutf8, hrest⟩ := ih fun it' hit' => h it' (List.mem_cons_of_mem it hit')
          have hblank := dumpIndent_blank flags (depth + 1) true
          have hjoin : joinDumped flags depth ((it :: next :: items).map Prod.fst) =
              it.1 ++ (44 :: (dumpIndent flags (depth + 1) true ++
                joinDumped flags depth ((next :: items).map Prod.fst))) := by
            rw [List.map_cons, List.map_cons, joinDumped]
            · rw [List.append_assoc, List.cons_append]
            · exact List.cons_ne_nil _ _
          have htokens : joinTokens ((it :: next :: items).map Prod.snd) =
              it.2 ++ .valueSeparator :: joinTokens ((next :: items).map Prod.snd) := by
            rw [List.map_cons, joinTokens]
            have hnext := joinTokens_ne_nil (h next (by simp)).2 (items.map Prod.snd)
            rw [List.map_cons]
            obtain ⟨t, tokens, heq⟩ := List.exists_cons_of_ne_nil hnext
            rw [heq, separated]
          refine ⟨?_, fun q ts hq hts => ?_⟩
          · rw [hjoin]
            refine hspells.utf8.append (Utf8.append (s := [44]) (utf8_singleton (by decide)) ?_)
            exact (utf8_blanks hblank).append hutf8
          · rw [hjoin, List.append_assoc, List.cons_append, List.append_assoc, htokens,
              List.append_assoc, List.cons_append]
            refine hspells.lexed _ _ rfl (lex_mark rfl ?_)
            exact (lex_blanks hblank _).trans (hrest q ts hq hts)

/-- The brackets around the items, of which there are some. -/
theorem enclosed_spells (flags depth : Nat) {start stop : UInt8} {first last : Token}
    (hstart : structural? start = some first) (hstop : structural? stop = some last)
    {texts : List Bytes} {tokens : List (List Token)}
    (h : List.Forall₂ (fun text ts => Spells text ts ∧ ts ≠ []) texts tokens) :
    Spells (start :: (dumpIndent flags (depth + 1) false ++
        joinDumped flags depth texts ++ [stop])) (first :: (joinTokens tokens ++ [last])) := by
  obtain ⟨hlength, hzip⟩ := List.forall₂_iff_zip.mp h
  have hitems := join_spells flags depth fun it (hit : it ∈ texts.zip tokens) => hzip hit
  rw [List.map_fst_zip (Nat.le_of_eq hlength), List.map_snd_zip (Nat.le_of_eq hlength.symm)] at hitems
  obtain ⟨hutf8, hjoin⟩ := hitems
  have hascii : ∀ {c : UInt8} {t : Token}, structural? c = some t → c < 128 := by
    intro c t hc
    simp only [structural?] at hc
    split_ifs at hc <;> simp_all
  have hblank := dumpIndent_blank flags (depth + 1) false
  refine ⟨?_, fun q ts hq hts => ?_⟩
  · refine Utf8.append (s := [start]) (utf8_singleton (hascii hstart)) ?_
    exact ((utf8_blanks hblank).append hutf8).append (utf8_singleton (hascii hstop))
  · have hends : Ends (stop :: q) := by simp [Ends, endsWord, hstop]
    rw [List.cons_append, List.append_assoc, List.append_assoc, List.singleton_append,
      List.cons_append, List.append_assoc, List.singleton_append]
    refine lex_mark hstart ((lex_blanks hblank _).trans ?_)
    exact hjoin (stop :: q) (last :: ts) hends (lex_mark hstop hts)

/-! ## What can be written -/

section
variable (printReal : Rat → Bytes) (long : LongWidth) (strtod : Bytes → Rat × Bool)

/-- A value whose text is read as the value again. -/
inductive Writable : JsonT → Prop
  | null : Writable .null
  | true : Writable .true
  | false : Writable .false
  | integer {i : Int} : -intMax - 1 ≤ i → i ≤ intMax → Writable (.integer i)
  | real {r : Rat} : Printed (printReal r) →
      (∀ text, dumpReal (printReal r) = some text → strtod text = (r, .false)) →
      Writable (.real r)
  | string {s : Bytes} : Utf8 s → 0 ∉ s → Writable (.string s)
  | array {elems : List JsonT} : (∀ j ∈ elems, Writable j) → Writable (.array elems)
  | object {serial numBuckets : Nat} {pairs : List (ObjectKey × JsonT)} :
      Table.Distinct keyEqual pairs → (∀ p ∈ pairs, Utf8 p.1.key ∧ 0 ∉ p.1.key) →
      (∀ p ∈ pairs, Writable p.2) → Writable (.object serial numBuckets pairs)

/-- The text of a value, which is read as something equal to the value. -/
def WritesAs (j : JsonT) (text : Bytes) : Prop :=
  ∃ v j', Spells text v.tokens ∧ readValue long strtod false v = some (j', false) ∧
    jsonEqual j j' = true

variable {printReal long strtod}

/-! ## Words and strings -/

theorem spells_literal (w : Literal) : Spells w.1 (Value.literal w).tokens where
  utf8 := by
    rcases isLiteral_cases w.2 with (h | h | h) | h
    · rw [h]
      exact utf8_of_ascii (by decide)
    · rw [h]
      exact utf8_of_ascii (by decide)
    · rw [h]
      exact utf8_of_ascii (by decide)
    · exact utf8_number h
  lexed _ _ hq hts := by
    rw [Value.tokens]
    exact lex_literal w hq hts

theorem spells_string (ascii : Bool) {s : Bytes} (hs : Utf8 s) (hzero : 0 ∉ s) :
    (dumpString s ascii).2 = true ∧ Spells (dumpString s ascii).1 (Value.string s).tokens := by
  obtain ⟨cs, rfl⟩ := hs
  rw [dumpString_eq ascii hzero, Value.tokens]
  refine ⟨rfl, ?_, fun q ts _ hts => ?_⟩
  · refine Utf8.append (s := [34]) (utf8_singleton (by decide)) ?_
    exact (utf8_pieces ascii cs).append (utf8_singleton (by decide))
  · rw [List.cons_append, List.append_assoc, List.singleton_append]
    exact lex_dumped ascii cs hts

theorem integerOf_name {w : Bytes} {i : Int} (h : integerOf w = some i) :
    w ≠ ascii "true" ∧ w ≠ ascii "false" ∧ w ≠ ascii "null" := by
  refine ⟨?_, ?_, ?_⟩ <;> rintro rfl <;> cases h

theorem writes_integer {i : Int} (hlow : -intMax - 1 ≤ i) (hhigh : i ≤ intMax) :
    WritesAs long strtod (.integer i) (dumpInteger i) := by
  have hlit : isLiteral (dumpInteger i) = true := by simp [isLiteral, isNumber_dumpInteger]
  obtain ⟨htrue, hfalse, hnull⟩ := integerOf_name (integerOf_dump i)
  have hfits : fitsInt long false i = true := by
    rw [fitsInt, Bool.false_and, Bool.not_false, Bool.and_true]
    exact decide_eq_true ⟨hlow, hhigh⟩
  refine ⟨.literal ⟨_, hlit⟩, .integer i, spells_literal ⟨_, hlit⟩, ?_, ?_⟩
  · rw [readValue, wordTok, if_neg htrue, if_neg hfalse, if_neg hnull, integerOf_dump]
    dsimp only
    rw [if_pos hfits]
    rfl
  · rw [jsonEqual]
    exact decide_eq_true rfl

theorem number_name {w : Bytes} (h : isNumber w = true) :
    w ≠ ascii "true" ∧ w ≠ ascii "false" ∧ w ≠ ascii "null" := by
  refine ⟨?_, ?_, ?_⟩ <;> rintro rfl <;> exact absurd h (by decide)

theorem writes_real {r : Rat} (hprinted : Printed (printReal r))
    (hread : ∀ text, dumpReal (printReal r) = some text → strtod text = (r, false)) :
    ∃ text, dumpReal (printReal r) = some text ∧ WritesAs long strtod (.real r) text := by
  obtain ⟨text, hdump, hnumber, hreal⟩ := dumpReal_spec hprinted
  have hlit : isLiteral text = true := by simp [isLiteral, hnumber]
  obtain ⟨htrue, hfalse, hnull⟩ := number_name hnumber
  refine ⟨text, hdump, .literal ⟨text, hlit⟩, .real r, spells_literal ⟨text, hlit⟩, ?_, ?_⟩
  · rw [readValue, wordTok, if_neg htrue, if_neg hfalse, if_neg hnull, hreal]
    dsimp only
    rw [realTok, hread text hdump]
    rfl
  · rw [jsonEqual]
    exact decide_eq_true rfl

/-! ## Arrays -/

theorem spells_empty {start stop : UInt8} {first last : Token}
    (hstart : structural? start = some first) (hstop : structural? stop = some last)
    (hascii : Utf8 [start, stop]) : Spells [start, stop] [first, last] where
  utf8 := hascii
  lexed _ _ _ hts := lex_mark hstart (lex_mark hstop hts)

theorem dumpElements_writes {flags depth : Nat} {elems : List JsonT}
    (h : ∀ j ∈ elems, ∃ text, doDump printReal flags depth j = some text ∧
      WritesAs long strtod j text) :
    ∃ texts, dumpElements printReal flags depth elems = some texts ∧
      List.Forall₂ (WritesAs long strtod) elems texts := by
  induction elems with
  | nil =>
      rw [dumpElements]
      exact ⟨[], rfl, .nil⟩
  | cons j elems ih =>
      obtain ⟨text, hdump, hwrites⟩ := h j List.mem_cons_self
      obtain ⟨texts, hdumps, hall⟩ := ih fun k hk => h k (List.mem_cons_of_mem j hk)
      rw [dumpElements, hdump, hdumps]
      exact ⟨text :: texts, rfl, .cons hwrites hall⟩

theorem elements_read {elems : List JsonT} {texts : List Bytes}
    (h : List.Forall₂ (WritesAs long strtod) elems texts) :
    ∃ vs js, List.Forall₂ (fun text v => Spells text v.tokens) texts vs ∧
      readElements long strtod false vs = some (js, false) ∧ elems.length = js.length ∧
      elementsEqual elems js = true := by
  induction h with
  | nil =>
      refine ⟨[], [], .nil, ?_, rfl, ?_⟩
      · rw [readElements]
      · rw [elementsEqual]
        exact fun _ _ _ _ hnil => absurd hnil (List.cons_ne_nil _ _).symm
  | cons hwrites _ ih =>
      obtain ⟨v, j', hspells, hread, hequal⟩ := hwrites
      obtain ⟨vs, js, hall, hreads, hlength, hequals⟩ := ih
      refine ⟨v :: vs, j' :: js, .cons hspells hall, ?_, congrArg Nat.succ hlength, ?_⟩
      · rw [readElements, hread, Option.bind_some]
        dsimp only
        rw [hreads, Option.map_some]
      · rw [elementsEqual, hequal, hequals]
        rfl

theorem writes_array {flags depth : Nat} {elems : List JsonT}
    (h : ∀ j ∈ elems, ∃ text, doDump printReal flags (depth + 1) j = some text ∧
      WritesAs long strtod j text) :
    ∃ text, doDump printReal flags depth (.array elems) = some text ∧
      WritesAs long strtod (.array elems) text := by
  obtain ⟨texts, hdumps, hall⟩ := dumpElements_writes h
  obtain ⟨vs, js, hspells, hreads, hlength, hequals⟩ := elements_read hall
  rw [doDump, hdumps, Option.map_some]
  refine ⟨_, rfl, .array vs, .array js, ?_, ?_, ?_⟩
  · rw [Value.tokens, elementTokens_join]
    by_cases hnil : texts = []
    · rw [if_pos hnil]
      subst hnil
      cases hspells
      exact spells_empty rfl rfl (utf8_of_ascii (by decide))
    · rw [if_neg hnil, List.cons_append, List.cons_append]
      refine enclosed_spells flags depth rfl rfl (List.forall₂_map_right_iff.mpr ?_)
      exact hspells.imp fun text v hv => ⟨hv, tokens_ne_nil v⟩
  · rw [readValue, hreads, Option.map_some]
  · rw [jsonEqual, hequals, Bool.and_true]
    exact decide_eq_true hlength

/-! ## Objects -/

theorem dumpOrder_perm (flags : Nat) (keys : List ObjectKey) :
    (dumpOrder flags keys).Perm keys := by
  rw [dumpOrder]
  split
  · exact List.mergeSort_perm _ _
  · split
    · exact List.mergeSort_perm _ _
    · exact .refl _

/-- A member, with a space behind the colon or without. -/
def memberText (flags : Nat) (key text : Bytes) : Bytes :=
  (dumpString key (jsonEnsureAscii flags)).1 ++
    (if jsonCompact flags then [58] else [58, 32]) ++ text

theorem spells_member (flags : Nat) {key text : Bytes} {v : Value} (hkey : Utf8 key)
    (hzero : 0 ∉ key) (h : Spells text v.tokens) :
    Spells (memberText flags key text) (.string key :: .nameSeparator :: v.tokens) := by
  obtain ⟨-, hname⟩ := spells_string (jsonEnsureAscii flags) hkey hzero
  have hcolon : ∃ blanks : Bytes, blanks.all isBlank = true ∧
      (if jsonCompact flags then [58] else [58, 32] : Bytes) = 58 :: blanks := by
    split
    · exact ⟨[], rfl, rfl⟩
    · exact ⟨[32], rfl, rfl⟩
  obtain ⟨blanks, hblank, hcolon⟩ := hcolon
  rw [memberText, hcolon]
  refine ⟨?_, fun q ts hq hts => ?_⟩
  · refine (hname.utf8.append ?_).append h.utf8
    exact Utf8.append (s := [58]) (utf8_singleton (by decide)) (utf8_blanks hblank)
  · rw [List.append_assoc, List.append_assoc, List.cons_append]
    have hrest : lex (58 :: (blanks ++ (text ++ q))) =
        some (.nameSeparator :: (v.tokens ++ ts)) :=
      lex_mark rfl ((lex_blanks hblank _).trans (h.lexed q ts hq hts))
    have hends : Ends (58 :: (blanks ++ (text ++ q))) := rfl
    have hwhole := hname.lexed _ _ hends hrest
    rw [Value.tokens] at hwhole
    exact hwhole

theorem dumpMembers_writes {flags depth : Nat} {pairs : List (ObjectKey × JsonT)}
    (h : ∀ p ∈ pairs, ∃ text, doDump printReal flags depth p.2 = some text ∧
      WritesAs long strtod p.2 text) :
    ∃ values, dumpMembers printReal flags depth pairs = some values ∧
      List.Forall₂ (fun q p => q.1 = p.1 ∧ WritesAs long strtod p.2 q.2) values pairs := by
  induction pairs with
  | nil =>
      rw [dumpMembers]
      exact ⟨[], rfl, .nil⟩
  | cons p pairs ih =>
      obtain ⟨key, json⟩ := p
      obtain ⟨text, hdump, hwrites⟩ := h (key, json) List.mem_cons_self
      obtain ⟨values, hdumps, hall⟩ := ih fun q hq => h q (List.mem_cons_of_mem _ hq)
      dsimp only at hdump
      rw [dumpMembers, hdump, hdumps]
      exact ⟨(key, text) :: values, rfl, .cons ⟨rfl, hwrites⟩ hall⟩

theorem map_fst_of_forall₂ {values : List (ObjectKey × Bytes)} {pairs : List (ObjectKey × JsonT)}
    (h : List.Forall₂ (fun q p => q.1 = p.1 ∧ WritesAs long strtod p.2 q.2) values pairs) :
    values.map Prod.fst = pairs.map Prod.fst := by
  induction h with
  | nil => rfl
  | cons hkey _ ih => rw [List.map_cons, List.map_cons, hkey.1, ih]

/-- The text of each key is found again. -/
theorem text_of_key (numBuckets : Nat) {values : List (ObjectKey × Bytes)}
    (h : Table.Distinct keyEqual values) : ∀ q ∈ values,
    (Table.get hashKey keyEqual ⟨numBuckets, values⟩ q.1).getD [] = q.2 := by
  intro q hq
  rw [Table.get, Table.find?_of_mem object_laws h hq (decide_eq_true rfl)]
  rfl

/-- In the order in which they are written, the members of the object again. -/
theorem ordered_members (flags numBuckets : Nat) {values : List (ObjectKey × Bytes)}
    {pairs : List (ObjectKey × JsonT)} (hdistinct : Table.Distinct keyEqual pairs)
    (h : List.Forall₂ (fun q p => q.1 = p.1 ∧ WritesAs long strtod p.2 q.2) values pairs) :
    ∃ pairs', pairs'.Perm pairs ∧ List.Forall₂ (fun k p => k = p.1 ∧ WritesAs long strtod p.2
        ((Table.get hashKey keyEqual ⟨numBuckets, values⟩ k).getD []))
      (dumpOrder flags (values.map Prod.fst)) pairs' := by
  have hvalues : Table.Distinct keyEqual values := by
    have hkeys : (pairs.map Prod.fst).Pairwise fun a b => keyEqual a b = false :=
      List.pairwise_map.mpr hdistinct
    rw [← map_fst_of_forall₂ h] at hkeys
    exact List.pairwise_map.mp hkeys
  have hwith := (List.forall₂_and_left values pairs).mpr
    ⟨text_of_key numBuckets hvalues, h⟩
  have hkeyed : List.Forall₂ (fun k p => k = p.1 ∧ WritesAs long strtod p.2
      ((Table.get hashKey keyEqual ⟨numBuckets, values⟩ k).getD []))
      (values.map Prod.fst) pairs := by
    refine List.forall₂_map_left_iff.mpr (hwith.imp fun q p hq => ⟨hq.2.1, ?_⟩)
    rw [hq.1]
    exact hq.2.2
  obtain ⟨pairs', hforall, hperm⟩ := List.perm_comp_forall₂ (dumpOrder_perm flags _) hkeyed
  exact ⟨pairs', hperm, hforall⟩

/-- A member of the document that is read as something equal to the member of an object. -/
def ReadsAs (long : LongWidth) (strtod : Bytes → Rat × Bool) (p : ObjectKey × JsonT)
    (m : Bytes × Value) : Prop :=
  p.1.key = m.1 ∧ ∃ j', readValue long strtod false m.2 = some (j', false) ∧
    jsonEqual p.2 j' = true

theorem members_spell (flags : Nat) {text : ObjectKey → Bytes} {keys : List ObjectKey}
    {pairs : List (ObjectKey × JsonT)}
    (h : List.Forall₂ (fun k p => k = p.1 ∧ WritesAs long strtod p.2 (text k)) keys pairs)
    (hkeys : ∀ p ∈ pairs, Utf8 p.1.key ∧ 0 ∉ p.1.key) :
    ∃ ms : List (Bytes × Value), List.Forall₂ (ReadsAs long strtod) pairs ms ∧
      List.Forall₂ (fun line m => Spells line (.string m.1 :: .nameSeparator :: m.2.tokens))
        (keys.map fun k => memberText flags k.key (text k)) ms := by
  induction h with
  | nil => exact ⟨[], .nil, .nil⟩
  | cons hmember _ ih =>
      obtain ⟨rfl, v, j', hspells, hread, hequal⟩ := hmember
      obtain ⟨hutf8, hzero⟩ := hkeys _ List.mem_cons_self
      obtain ⟨ms, hreads, hlines⟩ := ih fun q hq => hkeys q (List.mem_cons_of_mem _ hq)
      refine ⟨(_, v) :: ms, .cons ⟨rfl, j', hread, hequal⟩ hreads, .cons ?_ hlines⟩
      exact spells_member flags hutf8 hzero hspells

/-- Member by member the object is set up again. -/
theorem members_read {pairs : List (ObjectKey × JsonT)} {ms : List (Bytes × Value)}
    (h : List.Forall₂ (ReadsAs long strtod) pairs ms) : ∀ {object : JsonT}, Keeps object →
    Table.Distinct keyEqual pairs → (∀ p ∈ pairs, 0 ∉ p.1.key) →
    ∃ object', readMembers long strtod false object ms = some (object', false) ∧
      Keeps object' ∧
      (∀ k, (∀ p ∈ pairs, p.1.key ≠ k) → jsonObjectGet object' k = jsonObjectGet object k) ∧
      ∀ p ∈ pairs, ∃ j', jsonObjectGet object' p.1.key = some j' ∧ jsonEqual p.2 j' = true := by
  induction h with
  | nil =>
      intro object hobject _ _
      refine ⟨object, ?_, hobject, fun k _ => rfl, fun p hp => by cases hp⟩
      rw [readMembers]
  | cons hmember hrest ih =>
      next p m pairs ms =>
      intro object hobject hdistinct hzero
      obtain ⟨name, v⟩ := m
      obtain ⟨rfl, j', hread, hequal⟩ := hmember
      obtain ⟨hp, hdistinct⟩ := List.pairwise_cons.mp hdistinct
      obtain ⟨set, hset, hkeeps, hget⟩ := set_spec hobject p.1.key j'
      obtain ⟨object', hreads, hkeeps', hother, hsame⟩ :=
        ih hkeeps hdistinct fun q hq => hzero q (List.mem_cons_of_mem p hq)
      have hfirst : ∀ q ∈ pairs, q.1.key ≠ p.1.key := fun q hq heq =>
        of_decide_eq_false (hp q hq) heq.symm
      refine ⟨object', ?_, hkeeps', fun k hk => ?_, fun q hq => ?_⟩
      · rw [readMembers, if_neg (hzero p List.mem_cons_self)]
        dsimp only at hread
        rw [hread, Option.bind_some]
        dsimp only
        rw [hset, Option.bind_some, hreads]
      · rw [hother k fun q hq => hk q (List.mem_cons_of_mem p hq), hget,
          if_neg (hk p List.mem_cons_self).symm]
      · rcases List.mem_cons.mp hq with rfl | hq
        · exact ⟨j', by rw [hother _ hfirst, hget, if_pos rfl], hequal⟩
        · exact hsame q hq

theorem membersEqual_of {pairs : List (ObjectKey × JsonT)} {object : JsonT}
    (h : ∀ p ∈ pairs, ∃ j', jsonObjectGet object p.1.key = some j' ∧ jsonEqual p.2 j' = true) :
    membersEqual pairs object = true := by
  induction pairs with
  | nil => rw [membersEqual]
  | cons p pairs ih =>
      obtain ⟨key, json⟩ := p
      obtain ⟨j', hget, hequal⟩ := h (key, json) List.mem_cons_self
      dsimp only at hget hequal
      rw [membersEqual, hget, ih fun q hq => h q (List.mem_cons_of_mem _ hq), Bool.and_true]
      exact hequal

/-- The same names, each once, so the same number of members. -/
theorem length_of_names {pairs : List (ObjectKey × JsonT)} {object : JsonT}
    (hdistinct : Table.Distinct keyEqual pairs) (hobject : Keeps object)
    (hsome : ∀ p ∈ pairs, (jsonObjectGet object p.1.key).isSome)
    (hnone : ∀ k, (∀ p ∈ pairs, p.1.key ≠ k) → jsonObjectGet object k = none) :
    pairs.length = (jsonObjectIter object).length := by
  obtain ⟨hnodup, hiter⟩ := iter_spec hobject
  have hnames : (pairs.map fun p => p.1.key).Nodup :=
    List.pairwise_map.mpr (hdistinct.imp fun hpq => of_decide_eq_false hpq)
  have hmem : ∀ k, k ∈ pairs.map (fun p => p.1.key) ↔ k ∈ (jsonObjectIter object).map Prod.fst := by
    intro k
    constructor
    · intro hk
      obtain ⟨p, hp, rfl⟩ := List.mem_map.mp hk
      obtain ⟨j, hj⟩ := Option.isSome_iff_exists.mp (hsome p hp)
      exact List.mem_map.mpr ⟨_, (hiter _ j).mpr hj, rfl⟩
    · intro hk
      obtain ⟨⟨k', j⟩, hkj, rfl⟩ := List.mem_map.mp hk
      by_contra hnot
      have habsent := hnone k' fun p hp heq => hnot (List.mem_map.mpr ⟨p, hp, heq⟩)
      rw [(hiter k' j).mp hkj] at habsent
      cases habsent
  have hlength := ((List.perm_ext_iff_of_nodup hnames hnodup).mpr hmem).length_eq
  rwa [List.length_map, List.length_map] at hlength

theorem writes_object {flags depth serial numBuckets : Nat} {pairs : List (ObjectKey × JsonT)}
    (hdistinct : Table.Distinct keyEqual pairs)
    (hkeys : ∀ p ∈ pairs, Utf8 p.1.key ∧ 0 ∉ p.1.key)
    (h : ∀ p ∈ pairs, ∃ text, doDump printReal flags (depth + 1) p.2 = some text ∧
      WritesAs long strtod p.2 text) :
    ∃ text, doDump printReal flags depth (.object serial numBuckets pairs) = some text ∧
      WritesAs long strtod (.object serial numBuckets pairs) text := by
  obtain ⟨values, hdumps, hall⟩ := dumpMembers_writes h
  obtain ⟨pairs', hperm, hordered⟩ := ordered_members flags numBuckets hdistinct hall
  obtain ⟨ms, hreads, hlines⟩ := members_spell flags hordered fun p hp =>
    hkeys p (hperm.mem_iff.mp hp)
  have hdistinct' := (Table.Distinct.perm object_laws hperm).mpr hdistinct
  obtain ⟨object', hread, hkeeps, hother, hsame⟩ := members_read hreads keeps_new hdistinct'
    fun p hp => (hkeys p (hperm.mem_iff.mp hp)).2
  rw [doDump, hdumps, Option.map_some]
  refine ⟨_, rfl, .object ms, object', ?_, ?_, ?_⟩
  · rw [Value.tokens, memberTokens_join]
    by_cases hnil : pairs = []
    · rw [if_pos hnil]
      subst hnil
      obtain rfl := List.perm_nil.mp hperm
      cases hreads
      exact spells_empty rfl rfl (utf8_of_ascii (by decide))
    · rw [if_neg hnil]
      dsimp only
      rw [List.cons_append, List.cons_append]
      refine enclosed_spells flags depth rfl rfl (List.forall₂_map_right_iff.mpr ?_)
      exact hlines.imp fun line m hm => ⟨hm, List.cons_ne_nil _ _⟩
  · rw [readValue, hread]
  · have hmembers : membersEqual pairs object' = true :=
      membersEqual_of fun p hp => hsame p (hperm.mem_iff.mpr hp)
    have hlength := length_of_names hdistinct' hkeeps
      (fun p hp => by
        obtain ⟨j', hget, -⟩ := hsame p hp
        rw [hget]
        rfl)
      fun k hk => (hother k hk).trans rfl
    obtain ⟨-⟩ := hkeeps
    rw [jsonEqual, hmembers, Bool.and_true]
    rw [hperm.length_eq, jsonObjectIter, List.length_map] at hlength
    exact decide_eq_true hlength

/-! ## Values -/

variable (long) in
/-- Whatever the flags and the depth are. -/
theorem doDump_writes (flags : Nat) {j : JsonT} (h : Writable printReal strtod j) : ∀ depth : Nat,
    ∃ text, doDump printReal flags depth j = some text ∧ WritesAs long strtod j text := by
  have hname : ∀ {w : Literal} {j : JsonT}, readValue long strtod false (.literal w) =
      some (j, false) → jsonEqual j j = true → WritesAs long strtod j w.1 :=
    fun {w j} hread hequal => ⟨.literal w, j, spells_literal w, hread, hequal⟩
  induction h with
  | null =>
      intro depth
      rw [doDump]
      exact ⟨_, rfl, hname (w := ⟨ascii "null", by decide⟩) rfl rfl⟩
  | true =>
      intro depth
      rw [doDump]
      exact ⟨_, rfl, hname (w := ⟨ascii "true", by decide⟩) rfl rfl⟩
  | false =>
      intro depth
      rw [doDump]
      exact ⟨_, rfl, hname (w := ⟨ascii "false", by decide⟩) rfl rfl⟩
  | integer hlow hhigh =>
      intro depth
      rw [doDump]
      exact ⟨_, rfl, writes_integer hlow hhigh⟩
  | real hprinted hread =>
      intro depth
      rw [doDump]
      exact writes_real hprinted hread
  | string hutf8 hzero =>
      next s =>
      intro depth
      obtain ⟨hrc, hspells⟩ := spells_string (jsonEnsureAscii flags) hutf8 hzero
      rw [doDump]
      dsimp only
      rw [if_pos hrc]
      refine ⟨_, rfl, .string s, .string s, hspells, ?_, ?_⟩
      · rw [readValue, if_neg hzero]
      · rw [jsonEqual]
        exact decide_eq_true rfl
  | array _ ih => exact fun depth => writes_array fun j hj => ih j hj (depth + 1)
  | object hdistinct hkeys _ ih =>
      exact fun depth => writes_object hdistinct hkeys fun p hp => ih p hp (depth + 1)

/-- What `json_dumps` writes out. -/
def isRoot : JsonT → Bool
  | .array _ | .object _ _ _ => true
  | _ => false

theorem root_of_equal {j j' : JsonT} (h : jsonEqual j j' = true) : isRoot j' = isRoot j := by
  cases j <;> cases j' <;> first | rfl | cases h

theorem isContainer_of_root {erange erange' : Bool} {v : Value} {j : JsonT}
    (h : readValue long strtod erange v = some (j, erange')) (hj : isRoot j = true) :
    v.isContainer = true := by
  cases v with
  | literal w =>
      rw [readValue] at h
      obtain ⟨⟨tok, e⟩, -, h⟩ := Option.bind_eq_some_iff.mp h
      obtain ⟨j', hj', heq⟩ := Option.map_eq_some_iff.mp h
      cases heq
      cases tok <;> cases hj' <;> cases hj
  | string s =>
      rw [readValue] at h
      obtain ⟨-, heq⟩ := Option.ite_none_left_eq_some.mp h
      cases heq
      cases hj
  | array elems => rfl
  | object members => rfl

end

/-- Whatever the flags are, what `json_dumps` writes for an array or an object is a text
of the grammar, which `json_loads` accepts as long as `errno` is not `ERANGE` when it is
called, and `json_equal` finds what it returns equal to the value that was written. -/
theorem jsonLoads_jsonDumps {printReal : Rat → Bytes} {long : LongWidth}
    {strtod : Bytes → Rat × Bool} (flags : Nat) {j : JsonT} (h : Writable printReal strtod j)
    (hroot : isRoot j = true) :
    ∃ (text : CString) (v : Value) (j' : JsonT), jsonDumps printReal flags j = some text.1 ∧
      Says text.1 v ∧ (jsonLoads long strtod false text).1 = some j' ∧ jsonEqual j j' = true := by
  obtain ⟨text, hdump, v, j', hspells, hread, hequal⟩ :=
    doDump_writes long flags h 0
  have hlex : lex text = some v.tokens := by
    have hwhole := hspells.lexed [] [] rfl rfl
    rwa [List.append_nil, List.append_nil] at hwhole
  have hcontainer : v.isContainer = true :=
    isContainer_of_root hread ((root_of_equal hequal).trans hroot)
  refine ⟨⟨text, zero_not_mem_of_lex hlex⟩, v, j', ?_, ⟨hspells.utf8, hlex⟩, ?_, hequal⟩
  · cases j with
    | array elems => exact hdump
    | object serial numBuckets pairs => exact hdump
    | _ => cases hroot
  · exact jsonLoads_complete (List.append_nil _).symm ⟨not_begins_nil, by decide⟩
      ⟨hspells.utf8, hlex⟩ hcontainer hread

theorem jsonLoads_jsonDumps_sorted : ∃ (text : CString) (v : Value) (j' : JsonT),
    jsonDumps (fun _ => ascii "0") 0x402
      (.object 2 0 [(⟨0, ascii "b"⟩, .string (ascii "\"")), (⟨1, ascii "a"⟩, .real 0)]) =
        some text.1 ∧ Says text.1 v ∧
    (jsonLoads .bits64 (fun _ => (0, false)) false text).1 = some j' ∧
    jsonEqual (.object 2 0 [(⟨0, ascii "b"⟩, .string (ascii "\"")), (⟨1, ascii "a"⟩, .real 0)])
      j' = true := by
  have hstring : Writable (fun _ => ascii "0") (fun _ => (0, false)) (.string (ascii "\"")) :=
    .string (utf8_of_ascii (by decide)) (by decide)
  have hreal : Writable (fun _ => ascii "0") (fun _ => (0, false)) (.real 0) :=
    .real ⟨by decide, by decide, by decide⟩ fun _ _ => rfl
  refine jsonLoads_jsonDumps 0x402 (.object (by unfold Table.Distinct; decide) ?_ ?_) rfl
  · intro p hp
    rcases List.mem_cons.mp hp with rfl | hp
    · exact ⟨utf8_of_ascii (by decide), by decide⟩
    · rcases List.mem_cons.mp hp with rfl | hp
      · exact ⟨utf8_of_ascii (by decide), by decide⟩
      · cases hp
  · intro p hp
    rcases List.mem_cons.mp hp with rfl | hp
    · exact hstring
    · rcases List.mem_cons.mp hp with rfl | hp
      · exact hreal
      · cases hp

end AlphaMiner.Jansson
