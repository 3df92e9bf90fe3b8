import AlphaMiner.Model.Jansson.Load
import AlphaMiner.Proofs.Jansson.Utf

/-!
# What the lexer is given to read

A text comes apart into characters up to a point where none begins, its end at the
latest. The stream hands out the bytes of the characters and then `EOF`, and
whether the text is over by then is for `lex_eof` to say (`Holds`). So the lexer
works on a list of bytes, and what a byte of it is taken for does not depend on the
buffer.

At a place where no character begins the stream takes as many bytes as the first one
announces. If the text goes no further than these (`Dangling`), the lexer is told that
it is over.
-/

namespace AlphaMiner.Jansson

open Lib Lib.JsonText

def Begins (s : Bytes) : Prop := ∃ k rest, s = String.utf8EncodeChar k ++ rest

/-- What is at most one sequence that cannot be decoded. -/
def Dangling (junk : Bytes) : Prop :=
  ¬Begins junk ∧ junk.length ≤ max 1 (utf8CheckFirst (junk.headD 0))

/-- The text comes to a stop at `junk`, and `done` says if it is over behind that. -/
def Stops (junk : Bytes) (done : Bool) : Prop :=
  ¬Begins junk ∧ done = decide (junk.length ≤ max 1 (utf8CheckFirst (junk.headD 0)))

theorem stops_iff_dangling {junk : Bytes} : Stops junk true ↔ Dangling junk :=
  and_congr_right fun _ => by rw [eq_comm, decide_eq_true_iff]

theorem not_begins_nil : ¬Begins [] := by
  rintro ⟨k, rest, h⟩
  have hlen := congrArg List.length h
  rw [List.length_append, List.length_nil] at hlen
  have hpos := length_utf8EncodeChar_pos k
  omega

theorem exists_stops (text : Bytes) : ∃ p junk done, text = p ++ junk ∧ Utf8 p ∧
    Stops junk done := by
  by_cases h : Begins text
  · obtain ⟨k, rest, rfl⟩ := h
    have hshorter : rest.length < (String.utf8EncodeChar k ++ rest).length := by
      rw [List.length_append]
      have hpos := length_utf8EncodeChar_pos k
      omega
    obtain ⟨p, junk, done, rfl, hp, hstops⟩ := exists_stops rest
    exact ⟨String.utf8EncodeChar k ++ p, junk, done, (List.append_assoc ..).symm,
      Utf8.append ⟨[k], by simp⟩ hp, hstops⟩
  · exact ⟨[], text, _, rfl, ⟨[], rfl⟩, h, rfl⟩
termination_by text.length

/-! ## The bytes of a character -/

theorem utf8EncodeChar_ne {k : Char} {c : UInt8} (h : c ∈ String.utf8EncodeChar k) : c ≠ eof := by
  rcases utf8EncodeChar_cases_toNat k with ⟨hv, hk⟩ | ⟨hmin, hmax, hk⟩ | ⟨hmin, hmax, -, hk⟩ |
    ⟨hmin, hmax, hk⟩
  all_goals
    rw [hk] at h
    simp only [List.mem_cons, List.not_mem_nil, or_false] at h
    intro heof
    subst heof
    simp only [eof, ← UInt8.toNat_inj, UInt8.toNat_ofNat', UInt8.reduceToNat] at h
    omega

theorem utf8_ne_eof {p : Bytes} (h : Utf8 p) {c : UInt8} (hc : c ∈ p) : c ≠ eof := by
  obtain ⟨cs, rfl⟩ := h
  obtain ⟨k, -, hk⟩ := List.mem_flatMap.mp hc
  exact utf8EncodeChar_ne hk

theorem utf8_cases {p : Bytes} (h : Utf8 p) :
    p = [] ∨ ∃ k rest, p = String.utf8EncodeChar k ++ rest ∧ Utf8 rest := by
  obtain ⟨cs, rfl⟩ := h
  cases cs with
  | nil => exact .inl rfl
  | cons k cs => exact .inr ⟨k, _, List.flatMap_cons, cs, rfl⟩

/-! ## Filling the buffer -/

theorem stringGets_append (s rest : Bytes) : stringGets s.length (s ++ rest) = (s, rest) := by
  induction s with
  | nil => rfl
  | cons c s ih =>
      rw [List.length_cons, List.cons_append, stringGets, stringGet]
      simp only [ih]

theorem stringGets_rest (n : Nat) (data : Bytes) : (stringGets n data).2 = data.drop n := by
  induction n generalizing data with
  | zero => rfl
  | succ n ih =>
      cases data with
      | nil =>
          rw [stringGets, stringGet]
          simp only [ih, List.drop_nil]
      | cons c data =>
          rw [stringGets, stringGet]
          simp only [ih, List.drop_succ_cons]

/-- Behind the end of the text only `EOF` is read. -/
theorem stringGets_read (n : Nat) (data : Bytes) :
    (stringGets n data).1 = data.take n ++ List.replicate (n - data.length) eof := by
  induction n generalizing data with
  | zero => simp [stringGets]
  | succ n ih =>
      cases data with
      | nil =>
          rw [stringGets, stringGet]
          simp [ih, List.replicate_succ]
      | cons c data =>
          rw [stringGets, stringGet]
          simp [ih]

/-- The refill of the buffer. -/
def Refills (lex : Lex) : Prop := lex.stream.buffer.getD lex.stream.bufferPos 0 = 0

theorem streamGet_refill {lex : Lex} (h : Refills lex) :
    streamGet lex =
      let (c, data) := stringGet lex.stream.data
      if 0x80 ≤ c ∧ c ≠ eof then
        if utf8CheckFirst c = 0 then streamGet.out lex c data
        else if (utf8CheckFull (c :: (stringGets (utf8CheckFirst c - 1) data).1)
            (utf8CheckFirst c)).isNone then
          streamGet.out lex c (stringGets (utf8CheckFirst c - 1) data).2
        else (c, { lex with stream := ⟨(stringGets (utf8CheckFirst c - 1) data).2,
          c :: (stringGets (utf8CheckFirst c - 1) data).1, 1,
          lex.stream.streamPos + utf8CheckFirst c⟩ })
      else (c, { lex with stream := ⟨data, [c], 1, lex.stream.streamPos + 1⟩ }) := by
  rw [streamGet]
  exact if_neg (not_not_intro h)

theorem streamGet_char {lex : Lex} (h : Refills lex) (k : Char) {rest : Bytes}
    (hdata : lex.stream.data = String.utf8EncodeChar k ++ rest) :
    ∃ c s pos, String.utf8EncodeChar k = c :: s ∧
      streamGet lex = (c, { lex with stream := ⟨rest, c :: s, 1, pos⟩ }) := by
  obtain ⟨c, s, hk, hcount, hcase⟩ := checkFirst_encode k
  have hne : c ≠ eof := utf8EncodeChar_ne (k := k) (by rw [hk]; exact List.mem_cons_self)
  rw [hk, List.cons_append] at hdata
  rw [streamGet_refill h, hdata, stringGet]
  dsimp only
  rcases hcase with ⟨-, hlow, rfl⟩ | ⟨hhigh, htwo, hfull⟩
  · have hlt : c < 0x80 := UInt8.lt_iff_toNat_lt.mpr hlow
    exact ⟨c, [], _, hk, if_neg fun h => absurd h.1 (UInt8.not_le.mpr hlt)⟩
  · have hgets : stringGets (utf8CheckFirst c - 1) (s ++ rest) = (s, rest) := by
      rw [hcount, Nat.add_sub_cancel, stringGets_append]
    have hsome : ¬(utf8CheckFull (c :: s) (utf8CheckFirst c)).isNone = true := by
      have h := hfull []
      rw [List.append_nil] at h
      rw [h]
      exact Bool.false_ne_true
    refine ⟨c, s, lex.stream.streamPos + utf8CheckFirst c, hk, ?_⟩
    rw [if_pos ⟨UInt8.le_iff_toNat_le.mpr hhigh, hne⟩, if_neg (by omega), hgets]
    exact if_neg hsome

theorem isEmpty_eq_decide (data : Bytes) : data.isEmpty = decide (data.length = 0) := by
  cases data <;> rfl

/-- A stop in the text is `EOF` to the lexer. -/
theorem streamGet_stop {lex : Lex} (h : Refills lex) (hzero : 0 ∉ lex.stream.data) {done : Bool}
    (hstops : Stops lex.stream.data done) :
    ∃ data error pos, data.isEmpty = done ∧
      streamGet lex = (eof, { lex with stream := ⟨data, [eof], 1, pos⟩, error := error }) ∧
      (error = lex.error ∨ lex.error.text = [] ∧ error.text ≠ []) := by
  obtain ⟨hnot, rfl⟩ := hstops
  have hout : ∀ c data, ∃ error, streamGet.out lex c data =
      (eof, { lex with stream := ⟨data, [eof], 1, lex.stream.streamPos⟩, error := error }) ∧
      (error = lex.error ∨ lex.error.text = [] ∧ error.text ≠ []) := by
    intro c data
    rw [streamGet.out, errorSetPlain]
    by_cases htext : lex.error.text = []
    · rw [if_neg (not_not_intro htext)]
      refine ⟨_, rfl, .inr ⟨htext, ?_⟩⟩
      simp [errorText, ascii]
    · rw [if_pos htext]
      exact ⟨lex.error, rfl, .inl rfl⟩
  rw [streamGet_refill h]
  cases hdata : lex.stream.data with
  | nil =>
      refine ⟨[], lex.error, lex.stream.streamPos + 1, rfl, ?_, .inl rfl⟩
      rw [stringGet]
      exact if_neg fun h => h.2 rfl
  | cons c data =>
      rw [hdata] at hnot hzero
      rw [stringGet]
      dsimp only
      rw [List.headD_cons, List.length_cons]
      by_cases hhigh : 0x80 ≤ c ∧ c ≠ eof
      · rw [if_pos hhigh]
        have hcases := utf8CheckFirst_cases c
        have hlow : 0x80 ≤ c.toNat := UInt8.le_iff_toNat_le.mp hhigh.1
        by_cases hcount : utf8CheckFirst c = 0
        · rw [if_pos hcount]
          obtain ⟨error, hget, herror⟩ := hout c data
          refine ⟨data, error, _, ?_, hget, herror⟩
          rw [hcount, isEmpty_eq_decide, decide_eq_decide]
          omega
        · rw [if_neg hcount, if_pos]
          · obtain ⟨error, hget, herror⟩ :=
              hout c (stringGets (utf8CheckFirst c - 1) data).2
            refine ⟨_, error, _, ?_, hget, herror⟩
            rw [stringGets_rest, isEmpty_eq_decide, decide_eq_decide, List.length_drop]
            omega
          · rw [Option.isNone_iff_eq_none]
            by_contra hfull
            obtain ⟨v, hv⟩ := Option.ne_none_iff_exists'.mp hfull
            obtain ⟨k, rest, hk, hlen, -⟩ := encode_of_checkFull (by omega) hv
            -- every byte of a character comes from the text, since `EOF` is none of them
            have hlong : utf8CheckFirst c - 1 ≤ data.length := by
              by_contra hshort
              have hmem : eof ∈ String.utf8EncodeChar k := by
                have hall : c :: (stringGets (utf8CheckFirst c - 1) data).1 =
                    String.utf8EncodeChar k := by
                  have hlength : (c :: (stringGets (utf8CheckFirst c - 1) data).1).length =
                      (String.utf8EncodeChar k).length := by
                    rw [← hlen, List.length_cons, stringGets_read]
                    simp
                    omega
                  rw [hk, List.length_append] at hlength
                  have hrest : rest = [] := List.eq_nil_of_length_eq_zero (by omega)
                  rw [hk, hrest, List.append_nil]
                rw [← hall, stringGets_read]
                simp
                omega
              exact utf8EncodeChar_ne hmem rfl
            refine hnot ⟨k, data.drop (utf8CheckFirst c - 1), ?_⟩
            rw [stringGets_read, Nat.sub_eq_zero_of_le hlong, List.replicate_zero,
              List.append_nil] at hk
            have hrest : rest = [] := by
              have hlength := congrArg List.length hk
              rw [List.length_append, List.length_cons, List.length_take, ← hlen] at hlength
              exact List.eq_nil_of_length_eq_zero (by omega)
            rw [hrest, List.append_nil] at hk
            rw [← hk, List.cons_append, List.take_append_drop]
      · rw [if_neg hhigh]
        have heof : c = eof := by
          by_contra hne
          have hlow : c < 0x80 := UInt8.not_le.mp fun h => hhigh ⟨h, hne⟩
          obtain ⟨cs, hcs⟩ := utf8_singleton hlow
          cases cs with
          | nil => cases hcs
          | cons k cs =>
              refine hnot ⟨k, cs.flatMap String.utf8EncodeChar ++ data, ?_⟩
              rw [List.flatMap_cons] at hcs
              rw [← List.append_assoc, ← hcs]
              rfl
        subst heof
        refine ⟨data, lex.error, _, ?_, rfl, .inl rfl⟩
        have hcount : utf8CheckFirst eof = 0 := by decide
        rw [hcount, isEmpty_eq_decide, decide_eq_decide]
        omega

/-! ## The bytes that are left -/

/-- The stream goes on with `p`, and then it stops. After a stop has been put back it
is in the buffer. -/
inductive Holds (s : Stream) (p : Bytes) (done : Bool) : Prop where
  | text (q junk : Bytes) (hp : p = s.buffer.drop s.bufferPos ++ q) (hdata : s.data = q ++ junk)
      (hq : Utf8 q) (hne : ∀ c ∈ p, c ≠ 0 ∧ c ≠ eof) (hzero : 0 ∉ junk) (hstops : Stops junk done)
  | stop (hp : p = []) (hbuffer : s.buffer.drop s.bufferPos = [eof]) (hdone : s.data.isEmpty = done)

/-- The first byte of `p`, or `EOF`, has just been read. -/
structure At (s : Stream) (p : Bytes) (done : Bool) : Prop where
  back : Holds { s with bufferPos := s.bufferPos - 1 } p done
  on : ∀ c q, p = c :: q → Holds s q done
  atEnd : p = [] → s.data.isEmpty = done

theorem Holds.ne {s : Stream} {p : Bytes} {done : Bool} (h : Holds s p done) {c : UInt8}
    (hc : c ∈ p) : c ≠ 0 ∧ c ≠ eof := by
  cases h with
  | text q junk _ _ _ hne => exact hne c hc
  | stop hp =>
      subst hp
      cases hc

/-- There is a round in every loop for each byte that is left. -/
theorem Holds.length_le {lex : Lex} {p : Bytes} {done : Bool} (h : Holds lex.stream p done) :
    p.length ≤ lex.unread := by
  rw [Lex.unread]
  cases h with
  | text q junk hp hdata =>
      rw [hp, hdata, List.length_append, List.length_append, List.length_drop]
      omega
  | stop hp =>
      rw [hp, List.length_nil]
      exact Nat.zero_le _

theorem At.length_lt {lex : Lex} {p : Bytes} {done : Bool} (h : At lex.stream p done) :
    p.length < lex.unread + 2 := by
  cases p with
  | nil => exact Nat.succ_pos _
  | cons c q =>
      have hle := (h.on c q rfl).length_le
      rw [List.length_cons]
      omega

theorem getD_of_drop {l r : Bytes} {n : Nat} {c : UInt8} (h : l.drop n = c :: r) :
    l.getD n 0 = c ∧ l.drop (n + 1) = r := by
  refine ⟨?_, ?_⟩
  · rw [List.getD_eq_getElem?_getD, ← List.head?_drop, h]
    rfl
  · rw [← List.tail_drop, h]
    rfl

theorem streamGet_now {lex : Lex} {c : UInt8} {r : Bytes}
    (h : lex.stream.buffer.drop lex.stream.bufferPos = c :: r) (hc : c ≠ 0) :
    streamGet lex =
      (c, { lex with stream := { lex.stream with bufferPos := lex.stream.bufferPos + 1 } }) := by
  rw [streamGet]
  simp only [(getD_of_drop h).1]
  exact if_pos hc

/-- What reading does not change. -/
structure Kept (lex lex' : Lex) : Prop where
  token : lex'.token = lex.token
  erange : lex'.erange = lex.erange

theorem Kept.trans {lex lex' lex'' : Lex} (h : Kept lex lex') (h' : Kept lex' lex'') :
    Kept lex lex'' := ⟨h'.token.trans h.token, h'.erange.trans h.erange⟩

theorem streamGet_at {lex : Lex} {p : Bytes} {done : Bool} (h : Holds lex.stream p done) :
    ∃ lex', streamGet lex = (p.headD eof, lex') ∧ At lex'.stream p done ∧
      lex'.savedText = lex.savedText ∧ Kept lex lex' := by
  cases h with
  | stop hp hbuffer hdone =>
      subst hp
      refine ⟨_, streamGet_now hbuffer (by decide), ⟨?_, nofun, fun _ => hdone⟩, rfl, rfl, rfl⟩
      exact .stop rfl hbuffer hdone
  | text q junk hp hdata hq hne hzero hstops =>
      cases hbuffer : lex.stream.buffer.drop lex.stream.bufferPos with
      | cons c r =>
          rw [hbuffer, List.cons_append] at hp
          subst hp
          have hc := hne c List.mem_cons_self
          refine ⟨_, streamGet_now hbuffer hc.1, ⟨?_, fun c' q' heq => ?_, nofun⟩, rfl, rfl, rfl⟩
          · exact .text q junk (by simp [hbuffer]) hdata hq hne hzero hstops
          · obtain ⟨rfl, rfl⟩ := List.cons.inj heq
            refine .text q junk ?_ hdata hq (fun d hd => hne d (List.mem_cons_of_mem _ hd)) hzero
              hstops
            rw [(getD_of_drop hbuffer).2]
      | nil =>
          have hrefill : Refills lex := by
            rw [Refills, List.getD_eq_getElem?_getD, ← List.head?_drop, hbuffer]
            rfl
          rw [hbuffer, List.nil_append] at hp
          subst hp
          rcases utf8_cases hq with rfl | ⟨k, rest, rfl, hrest⟩
          · rw [List.nil_append] at hdata
            obtain ⟨data, error, pos, hempty, hget, -⟩ :=
              streamGet_stop hrefill (hdata ▸ hzero) (hdata ▸ hstops)
            exact ⟨_, hget, ⟨.stop rfl rfl hempty, nofun, fun _ => hempty⟩, rfl, rfl, rfl⟩
          · rw [List.append_assoc] at hdata
            obtain ⟨c, s, pos, hk, hget⟩ := streamGet_char hrefill k hdata
            rw [hk, List.cons_append] at hne ⊢
            refine ⟨_, hget, ⟨?_, fun c' q' heq => ?_, nofun⟩, rfl, rfl, rfl⟩
            · exact .text rest junk rfl rfl hrest hne hzero hstops
            · obtain ⟨rfl, rfl⟩ := List.cons.inj heq
              exact .text rest junk rfl rfl hrest (fun d hd => hne d (List.mem_cons_of_mem _ hd))
                hzero hstops

theorem lexGetSave_at {lex : Lex} {p : Bytes} {done : Bool} (h : Holds lex.stream p done) :
    ∃ lex', lexGetSave lex = (p.headD eof, lex') ∧ At lex'.stream p done ∧
      lex'.savedText = lex.savedText ++ [p.headD eof] ∧ Kept lex lex' := by
  obtain ⟨lex', hget, hat, hsaved, hkept⟩ := streamGet_at h
  refine ⟨lexSave lex' (p.headD eof), ?_, hat, ?_, hkept.token, hkept.erange⟩
  · rw [lexGetSave, hget]
  · rw [lexSave, hsaved]

/-- A run of bytes of one kind is saved, and the byte behind it is in hand. -/
theorem saveWhile_at {f : UInt8 → Bool} (hf : f eof = false) {done : Bool} : ∀ {fuel : Nat}
    {lex : Lex} {p pre : Bytes}, At lex.stream p done → lex.savedText = pre ++ [p.headD eof] →
    p.length < fuel → ∃ lex', saveWhile f fuel (p.headD eof) lex =
      ((p.dropWhile f).headD eof, lex') ∧ At lex'.stream (p.dropWhile f) done ∧
      lex'.savedText = pre ++ p.takeWhile f ++ [(p.dropWhile f).headD eof] ∧
      Kept lex lex' := by
  intro fuel
  induction fuel with
  | zero => exact fun _ _ h => absurd h (Nat.not_lt_zero _)
  | succ fuel ih =>
      intro lex p pre hat hsaved hfuel
      rw [saveWhile]
      cases p with
      | nil =>
          rw [List.headD_nil, if_neg (by rw [hf]; exact Bool.false_ne_true)]
          refine ⟨lex, rfl, hat, ?_, rfl, rfl⟩
          rw [hsaved, List.takeWhile_nil, List.append_nil]
          rfl
      | cons c q =>
          rw [List.headD_cons] at hsaved ⊢
          by_cases hc : f c = true
          · obtain ⟨lex₁, hget, hat₁, hsaved₁, hkept₁⟩ := lexGetSave_at (hat.on c q rfl)
            rw [hsaved] at hsaved₁
            obtain ⟨lex₂, hrest, hat₂, hsaved₂, hkept₂⟩ :=
              ih hat₁ hsaved₁ (Nat.lt_of_succ_lt_succ hfuel)
            rw [if_pos hc, hget, List.dropWhile_cons_of_pos hc, List.takeWhile_cons_of_pos hc]
            refine ⟨lex₂, hrest, hat₂, ?_, hkept₁.trans hkept₂⟩
            rw [hsaved₂, List.append_assoc pre [c]]
            rfl
          · rw [if_neg hc, List.dropWhile_cons_of_neg hc, List.takeWhile_cons_of_neg hc,
              List.append_nil]
            exact ⟨lex, rfl, hat, hsaved, rfl, rfl⟩

/-- And the last one is put back. -/
theorem unget_at {lex : Lex} {p w : Bytes} {x : UInt8} {done : Bool} (hat : At lex.stream p done)
    (hsaved : lex.savedText = w ++ [x]) :
    Holds (lexUngetUnsave lex).stream p done ∧ (lexUngetUnsave lex).savedText = w ∧
      Kept lex (lexUngetUnsave lex) := by
  refine ⟨hat.back, ?_, rfl, rfl⟩
  rw [lexUngetUnsave, streamUnget, hsaved, List.dropLast_concat]

@[simp] theorem errorSet_token (lex : Lex) (msg : Bytes) : (errorSet lex msg).token = lex.token := by
  rw [errorSet]
  split <;> rfl

end AlphaMiner.Jansson
