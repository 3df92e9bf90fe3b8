import AlphaMiner.Lib.JsonText
import AlphaMiner.Model.Submit
import AlphaMiner.Proofs.Hex

/-!
# A share as JSON

`submit_upstream_work` writes the line of a share with `sprintf`, and puts the
name of the user and the identifier of the job between quotation marks as they
are. The identifier came out of a JSON string, where escapes had been undone.

The line says what it should if and only if both stand for themselves
(`share_text_iff`). In one direction the machine of the text is run on the line.
In the other it is the reader that has found the right strings: an escape makes
what is read shorter than what was written, so no string with one in it is read
back (`plain_of_run`).
-/

namespace AlphaMiner

open Lib Lib.JsonText

/-- The line is JSON, its parameters are the five strings, and with its
terminator it fits where it is printed. -/
structure ShareText (rpcUser jobId xnonce2 : Bytes) (ntime nonce : UInt32) (line : Bytes) :
    Prop where
  decodes : ∃ v, Says line v ∧ v.member? (ascii "params") =
    some (.array ([rpcUser, jobId, bin2hex xnonce2, bin2hex (le32enc ntime),
      bin2hex (le32enc nonce)].map .string))
  fits : line.length + 1 ≤ miningSubmitSize rpcUser jobId xnonce2.length

/-! ## The line in pieces -/

def shareFront : Bytes := ascii "\x7b\"method\": \"mining.submit\", \"params\": ["

def shareBack : Bytes := ascii "], \"id\":4\x7d"

/-- From inside one string to the inside of the next. -/
def shareBetween : Bytes := 34 :: (ascii ", " ++ [34])

theorem miningSubmitReq_eq (u j x t n : Bytes) :
    miningSubmitReq u j x t n =
      (shareFront ++ [34]) ++ (u ++ (shareBetween ++ (j ++ (shareBetween ++
        (x ++ (shareBetween ++ (t ++ (shareBetween ++ (n ++ 34 :: shareBack))))))))) := by
  have hfront : ascii "\x7b\"method\": \"mining.submit\", \"params\": [\"" =
      shareFront ++ [34] := by
    decide
  have hbetween : ascii "\", \"" = shareBetween := by decide
  have hback : ascii "\"], \"id\":4\x7d" = 34 :: shareBack := by decide
  simp only [miningSubmitReq, hfront, hback, hbetween, List.append_assoc]

theorem miningSubmitReq_fits (u j p : Bytes) (t n : UInt32) :
    (miningSubmitReq u j (bin2hex p) (bin2hex (le32enc t)) (bin2hex (le32enc n))).length + 1 ≤
      miningSubmitSize u j p.length := by
  have hfront : shareFront.length = 39 := by decide
  have hbetween : shareBetween.length = 4 := by decide
  have hback : shareBack.length = 10 := by decide
  simp only [miningSubmitReq_eq, miningSubmitSize, List.length_append, List.length_cons,
    List.length_nil, length_bin2hex, length_le32enc, hfront, hbetween, hback]
  omega

/-! ## What the machine makes of it -/

def shareFrontTokens : List Token :=
  [.beginObject, .string (ascii "method"), .nameSeparator, .string (ascii "mining.submit"),
    .valueSeparator, .string (ascii "params"), .nameSeparator, .beginArray]

theorem run_shareFront :
    Lexer.start.run (shareFront ++ [34]) = some ⟨shareFrontTokens, .string []⟩ := by
  decide +kernel

theorem run_shareBetween (tokens : List Token) (s : Bytes) :
    Lexer.run ⟨tokens, .string s⟩ shareBetween =
      some ⟨tokens ++ [Token.string s] ++ [Token.valueSeparator], .string []⟩ := rfl

def shareId : Literal := ⟨ascii "4", by decide⟩

theorem run_shareBack (tokens : List Token) (s : Bytes) :
    (Lexer.run ⟨tokens, .string s⟩ (34 :: shareBack)).bind Lexer.finish =
      some (tokens ++ [Token.string s] ++ [Token.endArray] ++ [Token.valueSeparator] ++
        [Token.string (ascii "id")] ++ [Token.nameSeparator] ++ [Token.literal shareId] ++
        [Token.endObject]) := rfl

theorem run_share_string (tokens : List Token) {s : Bytes} (hs : Plain s) (rest : Bytes) :
    Lexer.run ⟨tokens, .string []⟩ (s ++ (shareBetween ++ rest)) =
      Lexer.run ⟨tokens ++ [Token.string s] ++ [Token.valueSeparator], .string []⟩ rest := by
  rw [Lexer.run_append, Lexer.run_plain tokens hs, Option.bind_some, List.nil_append,
    Lexer.run_append, run_shareBetween, Option.bind_some]

/-- What the line is meant to say. -/
def shareValue (strings : List Bytes) : Value :=
  .object [(ascii "method", .string (ascii "mining.submit")),
    (ascii "params", .array (strings.map .string)), (ascii "id", .literal shareId)]

theorem lex_miningSubmitReq {u j x t n : Bytes} (hu : Plain u) (hj : Plain j) (hx : Plain x)
    (ht : Plain t) (hn : Plain n) :
    lex (miningSubmitReq u j x t n) = some (shareValue [u, j, x, t, n]).tokens := by
  rw [lex, miningSubmitReq_eq, Lexer.run_append, run_shareFront, Option.bind_some,
    run_share_string _ hu, run_share_string _ hj, run_share_string _ hx, run_share_string _ ht,
    Lexer.run_append, Lexer.run_plain _ hn, Option.bind_some, run_shareBack]
  simp [shareValue, shareFrontTokens, Value.tokens, memberTokens, elementTokens, separated]

/-- A string that is read back was plain, and the machine goes on behind it. -/
theorem plain_of_share_string {before tokens : List Token} {s rest : Bytes} {l : Lexer}
    (hrun : Lexer.run ⟨before, .string []⟩ (s ++ (shareBetween ++ rest)) = some l)
    (hl : l.tokens <+: tokens) (hread : before ++ [Token.string s] <+: tokens) :
    Plain s ∧
      Lexer.run ⟨before ++ [Token.string s] ++ [Token.valueSeparator], .string []⟩ rest =
        some l := by
  have hbetween : Plain (ascii ", ") := plain_of_all (by decide)
  have hplain : Plain s :=
    plain_of_run hbetween (by simpa [shareBetween] using hrun) hl hread
  exact ⟨hplain, run_share_string before hplain rest ▸ hrun⟩

theorem run_of_lex {u j x t n : Bytes} {tokens : List Token}
    (hlex : lex (miningSubmitReq u j x t n) = some tokens) :
    ∃ l, Lexer.run ⟨shareFrontTokens, .string []⟩ (u ++ (shareBetween ++ (j ++ (shareBetween ++
      (x ++ (shareBetween ++ (t ++ (shareBetween ++ (n ++ 34 :: shareBack))))))))) = some l ∧
      l.tokens <+: tokens := by
  rw [lex, miningSubmitReq_eq, Lexer.run_append, run_shareFront, Option.bind_some] at hlex
  obtain ⟨l, hrun, hfinish⟩ := Option.bind_eq_some_iff.mp hlex
  exact ⟨l, hrun, Lexer.tokens_finish hfinish⟩

/-- The machine reads the front of the line whatever comes behind it, so the
value is an object whose second member is an array. -/
theorem share_tokens {v : Value} {u j : Bytes} {more : List Value}
    (hfront : shareFrontTokens <+: v.tokens)
    (hparams : v.member? (ascii "params") = some (.array (.string u :: .string j :: more))) :
    shareFrontTokens ++ [Token.string u] ++ [Token.valueSeparator] ++ [Token.string j] <+:
      v.tokens := by
  obtain ⟨rest, hrest⟩ := hfront
  obtain ⟨members, rfl, hmembers⟩ := Value.tokens_object hrest
  obtain ⟨method, members, rfl, hmethod⟩ := memberTokens_name hmembers
  obtain ⟨rfl, hbehind⟩ := Value.tokens_string (List.cons.inj hmethod).2
  obtain ⟨params, members, rfl, hname⟩ := memberTokens_name (memberTokens_separated hbehind)
  obtain ⟨elems, rfl, -⟩ := Value.tokens_array (List.cons.inj hname).2
  obtain rfl := Value.array.inj (Value.member?_second hparams)
  exact ⟨_, rfl⟩

/-- If the two strings are read back, both are plain. -/
theorem plain_of_lex {u j x t n : Bytes} {v : Value} {more : List Value}
    (hlex : lex (miningSubmitReq u j x t n) = some v.tokens)
    (hparams : v.member? (ascii "params") = some (.array (.string u :: .string j :: more))) :
    Plain u ∧ Plain j := by
  obtain ⟨l, hrun, hl⟩ := run_of_lex hlex
  have hread := share_tokens ((Lexer.tokens_run hrun).trans hl) hparams
  have hfirst : shareFrontTokens ++ [Token.string u] <+: v.tokens := by
    refine List.IsPrefix.trans ?_ hread
    rw [List.append_assoc]
    exact List.prefix_append _ _
  obtain ⟨hu, hrun⟩ := plain_of_share_string hrun hl hfirst
  exact ⟨hu, (plain_of_share_string hrun hl hread).1⟩

/-! ## Hexadecimal strings -/

theorem nibbles_verbatim : ∀ n : Fin 256, (bin2hex [UInt8.ofNat n]).all (fun c =>
    c < 128 && (c ≠ 34 && c ≠ 92 && 32 ≤ c)) = true := by decide +kernel

theorem verbatim_bin2hex (p : Bytes) : Verbatim (bin2hex p) := by
  have hdigits : (bin2hex p).all (fun c => c < 128 && (c ≠ 34 && c ≠ 92 && 32 ≤ c)) = true := by
    rw [List.all_eq_true]
    intro c hc
    obtain ⟨b, -, hb⟩ := List.mem_flatMap.mp hc
    have hbyte := nibbles_verbatim ⟨b.toNat, b.toNat_lt⟩
    rw [UInt8.ofNat_toNat, bin2hex, List.flatMap_singleton] at hbyte
    exact List.all_eq_true.mp hbyte c hb
  simp only [List.all_eq_true, Bool.and_eq_true] at hdigits
  exact ⟨utf8_of_ascii (List.all_eq_true.mpr fun c hc => (hdigits c hc).1),
    plain_of_all (List.all_eq_true.mpr fun c hc => by simpa using (hdigits c hc).2)⟩

/-! ## The line -/

theorem utf8_shareFront : Utf8 (shareFront ++ [34]) := utf8_of_ascii (by decide)

theorem utf8_shareBetween : Utf8 shareBetween := utf8_of_ascii (by decide)

theorem utf8_shareBack : Utf8 (34 :: shareBack) := utf8_of_ascii (by decide)

theorem utf8_of_miningSubmitReq {u j x t n : Bytes} (h : Utf8 (miningSubmitReq u j x t n)) :
    Utf8 u ∧ Utf8 j := by
  have hquote : (34 : UInt8) < 128 := by decide
  rw [miningSubmitReq_eq, List.append_assoc, List.singleton_append,
    utf8_append_cons hquote] at h
  have hu := h.2
  rw [shareBetween, List.cons_append, utf8_append_cons hquote, List.append_assoc,
    List.singleton_append, utf8_append_cons hquote] at hu
  have hj := hu.2.2
  rw [List.cons_append, utf8_append_cons hquote] at hj
  exact ⟨hu.1, hj.1⟩

/-- The line of a share says what it should exactly if neither of the two
strings needs an escape. -/
theorem miningSubmitReq_text_iff (u j p : Bytes) (ntime nonce : UInt32) :
    ShareText u j p ntime nonce
        (miningSubmitReq u j (bin2hex p) (bin2hex (le32enc ntime)) (bin2hex (le32enc nonce))) ↔
      Verbatim u ∧ Verbatim j := by
  have hx := verbatim_bin2hex p
  have ht := verbatim_bin2hex (le32enc ntime)
  have hn := verbatim_bin2hex (le32enc nonce)
  constructor
  · intro h
    obtain ⟨v, ⟨hutf8, hlex⟩, hparams⟩ := h.decodes
    have hutf8 := utf8_of_miningSubmitReq hutf8
    have hplain := plain_of_lex hlex hparams
    exact ⟨⟨hutf8.1, hplain.1⟩, hutf8.2, hplain.2⟩
  · intro h
    obtain ⟨hu, hj⟩ := h
    refine ⟨⟨_, ⟨?_, lex_miningSubmitReq hu.2 hj.2 hx.2 ht.2 hn.2⟩, rfl⟩,
      miningSubmitReq_fits u j p ntime nonce⟩
    rw [miningSubmitReq_eq]
    exact utf8_shareFront.append (hu.1.append (utf8_shareBetween.append (hj.1.append
      (utf8_shareBetween.append (hx.1.append (utf8_shareBetween.append (ht.1.append
        (utf8_shareBetween.append (hn.1.append utf8_shareBack)))))))))

/-- For any record with a job identifier, and whatever the attempt finds. The extra nonce
of a job has 1 to 100 bytes (`stratum_subscribe`); `abin2hex` of none would be a string
without an end, which the empty text here is not. -/
theorem share_text_iff {host : ByteOrder} {g : SubmitGlobals} {up : Upstream} {work : Work}
    {jobId line : Bytes} {call : Submission} (hpool : g.haveStratum = true)
    (hjob : work.jobId = some jobId) (hcall : submitUpstreamWork host g up work = some call)
    (hsent : call.sent = some line) :
    ShareText g.rpcUser jobId (work.xnonce2.getD []) (timeWord work.data) (nonceWord work.data)
        line ↔
      Verbatim g.rpcUser ∧ Verbatim jobId := by
  cases hstale : stale g work with
  | true =>
      rw [submitUpstreamWork, if_pos hstale] at hcall
      cases hcall
      cases hsent
  | false =>
      simp only [submitUpstreamWork, hstale, hpool, hjob, Bool.false_eq_true, if_false,
        if_true, Option.some.injEq] at hcall
      rw [← hcall] at hsent
      obtain rfl := Option.some.inj hsent
      exact miningSubmitReq_text_iff g.rpcUser jobId _ _ _

def textGlobals : SubmitGlobals := ⟨ascii "user", true, true, Work.zero⟩

/-- A share for a job of that identifier. -/
def textWork (jobId : Bytes) : Work :=
  { Work.zero with jobId := some jobId, xnonce2 := some [9, 0, 0, 0] }

theorem verbatim_user : Verbatim (ascii "user") :=
  ⟨utf8_of_ascii (by decide), plain_of_all (by decide)⟩

theorem share_text_iff_sample :
    ∃ call line, submitUpstreamWork .little textGlobals ⟨true, none⟩ (textWork (ascii "user")) =
        some call ∧
      call.sent = some line ∧ ShareText (ascii "user") (ascii "user") [9, 0, 0, 0] 0 0 line :=
  ⟨_, _, rfl, rfl, (@share_text_iff .little textGlobals ⟨true, none⟩ (textWork (ascii "user"))
    (ascii "user") _ _ rfl rfl rfl rfl).mpr ⟨verbatim_user, verbatim_user⟩⟩

/-- A pool that calls a job `"`, which it writes as any JSON string may be. -/
theorem share_text_fails :
    ¬∀ (host : ByteOrder) (g : SubmitGlobals) (up : Upstream) (work : Work)
      (text jobId line : Bytes) (call : Submission), Says text (.string jobId) →
      g.haveStratum = true → work.jobId = some jobId →
      submitUpstreamWork host g up work = some call → call.sent = some line →
      ShareText g.rpcUser jobId (work.xnonce2.getD []) (timeWord work.data) (nonceWord work.data)
        line := by
  intro hclaim
  have hsent : Says (ascii "\"\\\"\"") (.string [34]) :=
    ⟨utf8_of_ascii (by decide), by decide +kernel⟩
  have htext := hclaim .little textGlobals ⟨true, none⟩ (textWork [34]) _ [34] _ _ hsent rfl rfl
    rfl rfl
  have hplain := ((miningSubmitReq_text_iff _ _ _ _ _).mp htext).2.2
  exact absurd (hplain 34 (by simp)).1 (by decide)

end AlphaMiner
