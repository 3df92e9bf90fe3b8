import AlphaMiner.Proofs.JsonNumbers
import AlphaMiner.Proofs.JsonRewrite

/-!
# A JSON text in the memory of `hack_json_numbers`

The list that the scanner writes is what it writes into its block
(`HackJsonNumbers.loop_rewritten`), so a document comes out as it should wherever the
indices can count its bytes.
-/

namespace AlphaMiner

open Lib

namespace HackJsonNumbers

/-- The list that was written is what is written into the block. -/
theorem loop_rewritten (long : LongWidth) (text : Bytes) (inStr : Bool) (number : Option Bytes) :
    ∀ (written : Bytes) (k : Nat), NumberAt written k number →
      (loop long text ⟨written, inStr, number.isSome, k⟩).out =
        written ++ rewritten (.strtol long) text inStr number := by
  fun_induction bigEnds (.strtol long) text inStr number with
  | case1 =>
      intro written k _
      rw [rewritten, withPoints, List.zip_nil_left, List.flatMap_nil, List.append_nil]
      rfl
  | case2 rest inStr number ih =>
      intro written k hnumber
      have h := ih _ k (hnumber.append [34])
      rw [Option.isSome_map, List.append_assoc] at h
      rw [rewritten_quote, loop.eq_def]
      exact h
  | case3 inStr number hquote =>
      intro written k _
      rfl
  | case4 inStr number d rest hquote ih =>
      intro written k hnumber
      have h := ih _ k (hnumber.append [92, d])
      rw [Option.isSome_map, List.append_assoc] at h
      rw [rewritten_escape, loop.eq_def]
      simp only [State.put, List.append_assoc]
      exact h
  | case5 c rest inStr hquote hback ih =>
      intro written k _
      rw [rewritten_outside _ rest inStr hquote hback, loop.eq_def]
      simp only [if_neg hquote, if_neg hback, Option.isSome_none, Bool.not_false, Bool.and_true,
        Bool.false_and, Bool.false_eq_true, if_false]
      by_cases hstart : (!inStr && isdigit c) = true
      · have h := ih (written ++ [c]) written.length (by
          rw [if_pos hstart]
          intro n hn
          obtain rfl := Option.some.inj hn
          exact ⟨by simp, List.drop_left⟩)
        rw [if_pos hstart, List.append_assoc] at h
        rw [if_pos hstart, if_pos hstart]
        exact h
      · have h := ih (written ++ [c]) k (by
          rw [if_neg hstart]
          exact fun n hn => by cases hn)
        rw [if_neg hstart, List.append_assoc] at h
        rw [if_neg hstart, if_neg hstart]
        exact h
  | case6 c rest inStr hquote hback n hpart ih =>
      intro written k hnumber
      have h := ih _ k (hnumber.append [c])
      rw [List.append_assoc] at h
      rw [rewritten_part _ rest inStr hquote hback n hpart, loop.eq_def]
      simp only [if_neg hquote, if_neg hback, Option.isSome_some, Bool.not_true, Bool.and_false,
        Bool.false_and, Bool.false_eq_true, if_false, Bool.true_and]
      by_cases hdigit : isdigit c = true
      · rw [hdigit, Bool.not_true, if_neg Bool.false_ne_true]
        exact h
      · have hmark : ¬(c ≠ 46 ∧ c ≠ 101 ∧ c ≠ 69 ∧ c ≠ 43 ∧ c ≠ 45) := by tauto
        rw [Bool.eq_false_iff.mpr hdigit, Bool.not_false, if_pos rfl, if_neg hmark]
        exact h
  | case7 c rest inStr hquote hback n hpart ih =>
      intro written k hnumber
      obtain ⟨hk, hn⟩ := hnumber n rfl
      have hend : endNumber long ⟨written, inStr, true, k⟩ =
          ⟨written ++ (if decide (4 < n.length) && (NumberTest.strtol long).tooBig n then [46, 48]
            else []), inStr, false, k⟩ := by
        have hoff : written.length - k = n.length := by rw [← hn, List.length_drop]
        have htest : ((strtol long n).rest = [] ∧
            ((strtol long n).erange = true ∨ (strtol long n).value > intMax)) ↔
            (NumberTest.strtol long).tooBig n = true := by
          simp [NumberTest.tooBig]
        simp only [endNumber, State.off, State.put, hoff, hn, htest]
        by_cases hlong : 4 < n.length
        · rw [if_pos hlong, decide_eq_true hlong, Bool.true_and]
          by_cases hbig : (NumberTest.strtol long).tooBig n = true
          · rw [if_pos hbig, if_pos hbig, List.append_assoc]
            rfl
          · rw [if_neg hbig, if_neg hbig, List.append_nil]
        · rw [if_neg hlong, decide_eq_false hlong, Bool.false_and, if_neg Bool.false_ne_true,
            List.append_nil]
      have hdigit : isdigit c = false := by
        rw [Bool.eq_false_iff]
        exact fun h => hpart (.inl h)
      have h := ih (written ++ (if decide (4 < n.length) && (NumberTest.strtol long).tooBig n
        then [46, 48] else []) ++ [c]) k fun n hn => by cases hn
      simp only [List.append_assoc, List.singleton_append] at h
      rw [rewritten_end _ rest inStr hquote hback n hpart, loop.eq_def]
      simp only [if_neg hquote, if_neg hback, Option.isSome_some, Bool.not_true, Bool.and_false,
        Bool.false_eq_true, if_false, Bool.true_and, hdigit, Bool.not_false, if_true]
      rw [if_pos (by tauto), hend, State.put]
      simp only [List.append_assoc]
      exact h

end HackJsonNumbers

theorem hackJsonNumbers_eq_rewritten (long : LongWidth) (text : Bytes) :
    hackJsonNumbers long text = rewritten (.strtol long) text false none :=
  HackJsonNumbers.loop_rewritten long text false none [] 0 fun n h => by cases h

open Lib.JsonText

/-- Whether the piece is an integer that is too big for an `int`. -/
def isBigPiece : Piece → Bool
  | .word w => (integer? w.1).any fun n => decide (intMax < (n : Int))
  | _ => false

def bigWords (d : Document) : Nat := d.pieces.countP isBigPiece

theorem length_mapWord (p : Piece) :
    (p.mapWord floatWord).length = p.text.length + 2 * if isBigPiece p then 1 else 0 := by
  cases p with
  | word w =>
      rw [Piece.mapWord, Piece.text, isBigPiece, floatWord]
      cases integer? w.1 with
      | none => rfl
      | some n =>
          by_cases hbig : intMax < (n : Int)
          · have hpoint : (ascii ".0").length = 2 := rfl
            simp [hbig, hpoint]
          · simp [hbig]
  | _ => rfl

theorem length_mapWords (d : Document) :
    (d.mapWords floatWord).length = d.text.length + 2 * bigWords d := by
  rw [Document.mapWords, Document.text, bigWords]
  induction d.pieces with
  | nil => rfl
  | cons p pieces ih =>
      rw [List.flatMap_cons, List.length_append, ih, length_mapWord, List.flatMap_cons,
        List.length_append, List.countP_cons]
      omega

theorem zero_not_mem_body {body : Bytes} (h : StringBody body) : 0 ∉ body := by
  induction h with
  | nil => exact List.not_mem_nil
  | plain _ _ hcontrol _ ih =>
      rw [List.mem_cons, not_or]
      refine ⟨?_, ih⟩
      rintro rfl
      exact absurd hcontrol (by decide)
  | escape hescape _ ih =>
      rw [List.mem_cons, List.mem_cons, not_or, not_or]
      refine ⟨by decide, ?_, ih⟩
      rintro rfl
      exact absurd hescape (by decide)
  | unit _ hdigits _ ih =>
      rw [List.mem_cons, List.mem_cons, List.mem_append, not_or, not_or, not_or]
      refine ⟨by decide, by decide, fun hmem => ?_, ih⟩
      exact absurd (List.all_eq_true.mp hdigits 0 hmem) (by decide)

theorem zero_not_mem_piece (p : Piece) : 0 ∉ p.text := by
  cases p with
  | blank c h =>
      rw [Piece.text, List.mem_singleton]
      rintro rfl
      exact absurd h (by decide)
  | mark c t h =>
      rw [Piece.text, List.mem_singleton]
      rintro rfl
      cases h
  | string body h =>
      rw [Piece.text, List.mem_cons, List.mem_append, List.mem_singleton, not_or, not_or]
      exact ⟨by decide, zero_not_mem_body h, by decide⟩
  | word w =>
      have hliteral := w.2
      simp only [isLiteral, Bool.or_eq_true, decide_eq_true_eq] at hliteral
      rw [Piece.text]
      rcases hliteral with hname | hnumber
      · rcases hname with (h | h) | h <;> rw [h] <;> decide
      · obtain ⟨d, t, hw, hd, ht⟩ := isNumber_cases hnumber
        have hdigit : 0 ∉ d :: t := by
          rw [List.mem_cons, not_or]
          refine ⟨?_, fun hmem => absurd (List.all_eq_true.mp ht 0 hmem) (by decide)⟩
          rintro rfl
          exact absurd hd (by decide)
        rcases hw with h | h
        · rwa [h]
        · rw [h, List.mem_cons, not_or]
          exact ⟨by decide, hdigit⟩

theorem zero_not_mem_text (d : Document) : 0 ∉ d.text := by
  intro h
  obtain ⟨p, -, hp⟩ := List.mem_flatMap.mp h
  exact zero_not_mem_piece p hp

/-- In the text of a document the numbers that are too big are its big integers. -/
theorem bigNumbers_text (long : LongWidth) {d : Document} (hroot : d.value.isContainer = true) :
    rewritten (.strtol long) d.text false none = d.mapWords floatWord ∧
      bigNumbers (.strtol long) d.text = bigWords d := by
  have hsame : rewritten (.strtol long) d.text false none = d.mapWords floatWord :=
    (hackJsonNumbers_eq_rewritten long d.text).symm.trans (hackJsonNumbers_document long d hroot)
  have hlen := congrArg List.length hsame
  rw [length_rewritten, length_mapWords] at hlen
  exact ⟨hsame, by omega⟩

/-- The document comes out with its big integers as floating-point numbers if the indices
can count what is written. -/
theorem hackJsonNumbers_floats_iff (long : LongWidth) (d : Document)
    (hroot : d.value.isContainer = true) :
    (∃ out, HackJsonNumbers.block (.strtol long) d.text = some out ∧
      str? out = some (d.mapWords floatWord)) ↔
      ((d.text.length + 2 * bigWords d : Nat) : Int) ≤ intMax := by
  have hnul := zero_not_mem_text d
  obtain ⟨hsame, hcount⟩ := bigNumbers_text long hroot
  rw [← hcount]
  constructor
  · rintro ⟨out, hout, -⟩
    by_contra hlong
    rw [block_of_long _ hnul (by omega)] at hout
    cases hout
  · intro hshort
    obtain ⟨hblock, hstr⟩ := block_of_short (.strtol long) hnul hshort
    exact ⟨_, hblock, hsame ▸ hstr⟩

/-- An array of a string with an escaped quotation mark in it and a number. -/
def sampleDocument : Document where
  pieces :=
    [.mark 91 .beginArray rfl,
      .string (ascii "\\\"9")
        (.escape rfl (.plain (by decide) (by decide) (by decide) .nil)),
      .mark 44 .valueSeparator rfl, .blank 32 rfl, .word ⟨ascii "-2147483648", by decide⟩,
      .mark 93 .endArray rfl]
  value := .array [.string (ascii "\\\"9"), .literal ⟨ascii "-2147483648", by decide⟩]
  spells := rfl

theorem hackJsonNumbers_floats_iff_sample :
    ∃ out, HackJsonNumbers.block (.strtol .bits64) sampleDocument.text = some out ∧
      str? out = some (sampleDocument.mapWords floatWord) :=
  (hackJsonNumbers_floats_iff .bits64 sampleDocument rfl).mpr (by decide +kernel)

/-- An empty array with so many blanks in it. -/
def blankDocument (n : Nat) : Document where
  pieces := .mark 91 .beginArray rfl :: (.replicate n (.blank 32 rfl) ++ [.mark 93 .endArray rfl])
  value := .array []
  spells := by
    have hblanks : (List.replicate n (Piece.blank 32 rfl)).flatMap Piece.tokens = [] := by
      rw [List.flatMap_eq_nil_iff]
      intro p hp
      rw [List.eq_of_mem_replicate hp]
      rfl
    rw [List.flatMap_cons, List.flatMap_append, hblanks]
    rfl

theorem length_blankDocument (n : Nat) : n ≤ (blankDocument n).text.length := by
  have hblanks : ((List.replicate n (Piece.blank 32 rfl)).flatMap Piece.text).length = n := by
    induction n with
    | zero => rfl
    | succ n ih =>
        rw [List.replicate_succ, List.flatMap_cons, List.length_append, ih]
        exact Nat.add_comm 1 n
  rw [Document.text, blankDocument, List.flatMap_cons, List.flatMap_append, List.length_append,
    List.length_append, hblanks]
  omega

theorem hackJsonNumbers_floats_fails :
    (blankDocument (2 ^ 31)).value.isContainer = true ∧
      ¬∃ out, HackJsonNumbers.block (.strtol .bits64) (blankDocument (2 ^ 31)).text = some out ∧
        str? out = some ((blankDocument (2 ^ 31)).mapWords floatWord) := by
  refine ⟨rfl, ?_⟩
  rintro ⟨out, hout, -⟩
  have hlen := length_blankDocument (2 ^ 31)
  rw [block_of_long _ (zero_not_mem_text _)] at hout
  · cases hout
  · rw [intMax]
    omega

end AlphaMiner
