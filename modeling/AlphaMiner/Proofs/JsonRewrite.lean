import AlphaMiner.Model.JsonRewrite
import Mathlib.Data.List.Basic
import Mathlib.Tactic.Tauto

/-!
# The bounds of `hack_json_numbers`

What is written is the text with `.0` in front of the bytes at which a number ends that
is too big (`bigEnds`). Such a number has five bytes at least, so the block has room for
any text (`bigNumbers_le`). What the function does run out of is the range of its indices:
`off` counts what is written, and it is an `int`.
-/

namespace AlphaMiner

open Lib

/-! ## What is written -/

/-- Which bytes of a text get `.0` in front of them. `number` is the number that the
text in front ends with, from its first digit on. -/
def bigEnds (test : NumberTest) : Bytes → Bool → Option Bytes → List Bool
  | [], _, _ => []
  | c :: rest, inStr, number =>
      if c = 34 then false :: bigEnds test rest (!inStr) (number.map (· ++ [c]))
      else if c = 92 then
        match rest with
        | [] => [false]
        | d :: rest => false :: false :: bigEnds test rest inStr (number.map (· ++ [c, d]))
      else
        match number with
        | none => false :: bigEnds test rest inStr (if !inStr && isdigit c then some [c] else none)
        | some n =>
            if isdigit c ∨ c = 46 ∨ c = 101 ∨ c = 69 ∨ c = 43 ∨ c = 45 then
              false :: bigEnds test rest inStr (some (n ++ [c]))
            else (decide (4 < n.length) && test.tooBig n) :: bigEnds test rest inStr none

/-- How many numbers of a text are too big. -/
def bigNumbers (test : NumberTest) (text : Bytes) : Nat :=
  (bigEnds test text false none).count true

def withPoints (text : Bytes) (ends : List Bool) : Bytes :=
  (text.zip ends).flatMap fun p => if p.2 then [46, 48, p.1] else [p.1]

def rewritten (test : NumberTest) (text : Bytes) (inStr : Bool) (number : Option Bytes) : Bytes :=
  withPoints text (bigEnds test text inStr number)

@[simp] theorem withPoints_cons (c : UInt8) (text : Bytes) (b : Bool) (ends : List Bool) :
    withPoints (c :: text) (b :: ends) =
      (if b then [46, 48] else []) ++ c :: withPoints text ends := by
  cases b <;> rfl

theorem length_bigEnds (test : NumberTest) (text : Bytes) (inStr : Bool) (number : Option Bytes) :
    (bigEnds test text inStr number).length = text.length := by
  fun_induction bigEnds test text inStr number with
  | case5 c rest inStr hquote hback ih => rw [List.length_cons, ih, List.length_cons]
  | _ => simp [*]

theorem length_withPoints {text : Bytes} {ends : List Bool} (h : ends.length = text.length) :
    (withPoints text ends).length = text.length + 2 * ends.count true := by
  induction text generalizing ends with
  | nil =>
      obtain rfl := List.length_eq_zero_iff.mp h
      rfl
  | cons c text ih =>
      obtain ⟨b, ends, rfl⟩ := List.exists_cons_of_length_eq_add_one h
      have hrest := ih (Nat.succ_inj.mp h)
      cases b <;> simp [hrest] <;> omega

section

variable (test : NumberTest) (rest : Bytes) (inStr : Bool) (number : Option Bytes) {c : UInt8}

theorem rewritten_quote : rewritten test (34 :: rest) inStr number =
    34 :: rewritten test rest (!inStr) (number.map (· ++ [34])) := by
  rw [rewritten, bigEnds.eq_def]
  rfl

theorem rewritten_escape (d : UInt8) : rewritten test (92 :: d :: rest) inStr number =
    92 :: d :: rewritten test rest inStr (number.map (· ++ [92, d])) := rfl

/-- A byte that is neither a quotation mark nor a backslash. -/
theorem bigEnds_plain (hquote : c ≠ 34) (hback : c ≠ 92) : bigEnds test (c :: rest) inStr number =
    number.elim (false :: bigEnds test rest inStr (if !inStr && isdigit c then some [c] else none))
      fun n =>
        if isdigit c ∨ c = 46 ∨ c = 101 ∨ c = 69 ∨ c = 43 ∨ c = 45 then
          false :: bigEnds test rest inStr (some (n ++ [c]))
        else (decide (4 < n.length) && test.tooBig n) :: bigEnds test rest inStr none := by
  rw [bigEnds.eq_def]
  simp only [if_neg hquote, if_neg hback]
  cases number <;> rfl

theorem rewritten_outside (hquote : c ≠ 34) (hback : c ≠ 92) :
    rewritten test (c :: rest) inStr none =
      c :: rewritten test rest inStr (if !inStr && isdigit c then some [c] else none) := by
  rw [rewritten, bigEnds_plain test rest inStr none hquote hback, Option.elim_none, withPoints_cons]
  rfl

theorem rewritten_part (hquote : c ≠ 34) (hback : c ≠ 92) (n : Bytes)
    (hpart : isdigit c ∨ c = 46 ∨ c = 101 ∨ c = 69 ∨ c = 43 ∨ c = 45) :
    rewritten test (c :: rest) inStr (some n) = c :: rewritten test rest inStr (some (n ++ [c])) := by
  rw [rewritten, bigEnds_plain test rest inStr (some n) hquote hback, Option.elim_some,
    if_pos hpart, withPoints_cons]
  rfl

theorem rewritten_end (hquote : c ≠ 34) (hback : c ≠ 92) (n : Bytes)
    (hpart : ¬(isdigit c ∨ c = 46 ∨ c = 101 ∨ c = 69 ∨ c = 43 ∨ c = 45)) :
    rewritten test (c :: rest) inStr (some n) =
      (if decide (4 < n.length) && test.tooBig n then [46, 48] else []) ++
        c :: rewritten test rest inStr none := by
  rw [rewritten, bigEnds_plain test rest inStr (some n) hquote hback, Option.elim_some,
    if_neg hpart, withPoints_cons]
  rfl

end

theorem length_rewritten (test : NumberTest) (text : Bytes) :
    (rewritten test text false none).length = text.length + 2 * bigNumbers test text :=
  length_withPoints (length_bigEnds test text false none)

/-- A number takes five bytes that no other number takes. -/
theorem count_bigEnds (test : NumberTest) (text : Bytes) (inStr : Bool) (number : Option Bytes) :
    5 * (bigEnds test text inStr number).count true ≤ text.length + (number.getD []).length := by
  fun_induction bigEnds test text inStr number with
  | case1 => exact Nat.zero_le _
  | case2 rest inStr number ih =>
      rw [List.count_cons_of_ne (by decide), List.length_cons]
      cases number with
      | none => exact Nat.le_trans ih (by simp)
      | some n => exact Nat.le_trans ih (by simp; omega)
  | case3 => exact Nat.zero_le _
  | case4 inStr number d rest hquote ih =>
      rw [List.count_cons_of_ne (by decide), List.count_cons_of_ne (by decide), List.length_cons,
        List.length_cons]
      cases number with
      | none => exact Nat.le_trans ih (by simp; omega)
      | some n => exact Nat.le_trans ih (by simp; omega)
  | case5 c rest inStr hquote hback ih =>
      rw [List.count_cons_of_ne (by decide), List.length_cons]
      refine Nat.le_trans ih ?_
      split <;> simp
  | case6 c rest inStr hquote hback n hpart ih =>
      rw [List.count_cons_of_ne (by decide), List.length_cons]
      exact Nat.le_trans ih (by simp; omega)
  | case7 c rest inStr hquote hback n hpart ih =>
      rw [Option.getD_none, List.length_nil, Nat.add_zero] at ih
      rw [List.count_cons, List.length_cons, Option.getD_some]
      split
      · next hbig =>
          have hlong : 4 < n.length := by simp_all
          omega
      · omega

/-- Any text has room in the block. -/
theorem bigNumbers_le (test : NumberTest) (text : Bytes) :
    2 * bigNumbers test text ≤ text.length := by
  have h := count_bigEnds test text false none
  rw [Option.getD_none, List.length_nil] at h
  rw [bigNumbers]
  omega

/-! ## The memory -/

namespace HackJsonNumbers

/-- Cleared memory behind what is written. -/
def padded (cap : Nat) (written : Bytes) : Bytes :=
  written ++ .replicate (cap - written.length) 0

theorem store?_padded {cap : Nat} {written : Bytes} (h : written.length < cap) (c : UInt8) :
    store? (padded cap written) written.length [c] = some (padded cap (written ++ [c])) := by
  obtain ⟨k, hk⟩ : ∃ k, cap - written.length = k + 1 := ⟨cap - written.length - 1, by omega⟩
  have hstore := @store?_middle written [0] [c] (.replicate k 0) _ rfl rfl
  rw [List.append_assoc, List.singleton_append, ← List.replicate_succ, ← hk] at hstore
  rw [padded, hstore, padded, List.length_append, List.length_singleton,
    show cap - (written.length + 1) = k by omega]

theorem str?_padded {cap : Nat} {written : Bytes} (h : written.length < cap) (hnul : 0 ∉ written)
    {k : Nat} (hk : k ≤ written.length) :
    str? ((padded cap written).drop k) = some (written.drop k) := by
  obtain ⟨n, hn⟩ : ∃ n, cap - written.length = n + 1 := ⟨cap - written.length - 1, by omega⟩
  rw [padded, hn, List.replicate_succ, List.drop_append_of_le_length hk]
  exact str?_append (fun h => hnul (List.mem_of_mem_drop h)) _

/-- The locals when this is written and the index is at `i`. -/
def Locals.at (cap : Nat) (written : Bytes) (i intoff : Nat) (inStr inInt : Bool) : Locals :=
  ⟨padded cap written, i, written.length, intoff, inStr, inInt⟩

section

variable {cap i k : Nat} {written : Bytes} {inStr inInt : Bool}

@[simp] theorem Locals.at_out : (Locals.at cap written i k inStr inInt).out = padded cap written :=
  rfl

@[simp] theorem Locals.at_i : (Locals.at cap written i k inStr inInt).i = i := rfl

@[simp] theorem Locals.at_off : (Locals.at cap written i k inStr inInt).off = written.length := rfl

@[simp] theorem Locals.at_intoff : (Locals.at cap written i k inStr inInt).intoff = k := rfl

@[simp] theorem Locals.at_inStr : (Locals.at cap written i k inStr inInt).inStr = inStr := rfl

@[simp] theorem Locals.at_inInt : (Locals.at cap written i k inStr inInt).inInt = inInt := rfl

theorem put_at (h : written.length < cap) (c : UInt8) :
    (Locals.at cap written i k inStr inInt).put c =
      if (written.length : Int) < intMax then some (.at cap (written ++ [c]) i k inStr inInt)
      else none := by
  rw [Locals.put, Locals.at_out, Locals.at_off, store?_padded h, Option.bind_eq_bind,
    Option.bind_some, increment]
  by_cases hroom : (written.length : Int) < intMax
  · have hlen : written.length + 1 = (written ++ [c]).length := by simp
    rw [if_pos hroom, if_pos hroom, hlen]
    rfl
  · rw [if_neg hroom, if_neg hroom]
    rfl

theorem advance_at {input : Bytes} {c : UInt8} (hread : input[i]? = some c)
    (hi : i ≤ written.length) (h : written.length < cap) :
    (Locals.at cap written i k inStr inInt).advance input =
      if (written.length : Int) < intMax then
        some (.at cap (written ++ [c]) (i + 1) k inStr inInt)
      else none := by
  rw [Locals.advance, Locals.at_i, hread, Option.bind_eq_bind, Option.bind_some, put_at h]
  by_cases hroom : (written.length : Int) < intMax
  · rw [if_pos hroom, if_pos hroom, Option.bind_eq_bind, Option.bind_some, increment, Locals.at_i,
      if_pos (show (i : Int) < intMax by omega)]
    rfl
  · rw [if_neg hroom, if_neg hroom]
    rfl

/-- The end of a number is seen in what is written of it. -/
theorem endNumber_at {test : NumberTest} {n : Bytes} (h : written.length < cap)
    (hnul : 0 ∉ written) (hk : k ≤ written.length) (hn : written.drop k = n)
    (hroom : (decide (4 < n.length) && test.tooBig n) = true → written.length + 2 < cap) :
    (Locals.at cap written i k inStr inInt).endNumber test =
      if decide (4 < n.length) && test.tooBig n then
        if (written.length : Int) + 1 < intMax then
          some (.at cap (written ++ [46, 48]) i k inStr false)
        else none
      else some (.at cap written i k inStr false) := by
  have hstr : str? ((padded cap written).drop k) = some n := hn ▸ str?_padded h hnul hk
  have hoff : written.length - k = n.length := by rw [← hn, List.length_drop]
  have hlocals : Locals.endNumber test (.at cap written i k inStr inInt) =
      if written.length - k > 4 then
        (str? ((padded cap written).drop k)).bind fun s =>
          if test.tooBig s then
            (Locals.put (.at cap written i k inStr false) 46).bind fun l => l.put 48
          else some (.at cap written i k inStr false)
      else some (.at cap written i k inStr false) := rfl
  rw [hlocals, hoff, hstr, Option.bind_some]
  by_cases hlong : 4 < n.length
  · rw [decide_eq_true hlong, Bool.true_and] at hroom ⊢
    rw [if_pos hlong]
    by_cases hbig : test.tooBig n = true
    · have hcap := hroom hbig
      have hlen : (written ++ [46]).length = written.length + 1 := by simp
      rw [if_pos hbig, if_pos hbig, put_at h]
      by_cases hfits : (written.length : Int) + 1 < intMax
      · rw [if_pos hfits, if_pos (by omega), Option.bind_some, put_at (by omega),
          if_pos (by omega), List.append_assoc]
        rfl
      · rw [if_neg hfits]
        by_cases hone : (written.length : Int) < intMax
        · rw [if_pos hone, Option.bind_some, put_at (by omega), if_neg (by omega)]
        · rw [if_neg hone]
          rfl
    · rw [if_neg hbig, if_neg hbig]
  · rw [if_neg hlong, decide_eq_false hlong, Bool.false_and]
    rfl

end

/-! ## The loop -/

/-- The block, unless `off` has left its range. -/
def outcome (cap : Nat) (written : Bytes) : Option Bytes :=
  if (written.length : Int) ≤ intMax then some (padded cap written) else none

theorem outcome_of_lt {cap : Nat} {written : Bytes} (h : intMax < written.length) :
    outcome cap written = none := if_neg (by omega)

/-- What the number in hand is, in terms of `intoff`. -/
def NumberAt (written : Bytes) (k : Nat) (number : Option Bytes) : Prop :=
  ∀ n, number = some n → k ≤ written.length ∧ written.drop k = n

theorem NumberAt.append {written : Bytes} {k : Nat} {number : Option Bytes}
    (h : NumberAt written k number) (u : Bytes) :
    NumberAt (written ++ u) k (number.map (· ++ u)) := by
  intro n hn
  obtain ⟨m, hm, rfl⟩ := Option.map_eq_some_iff.mp hn
  obtain ⟨hk, hdrop⟩ := h m hm
  exact ⟨by simp; omega, by rw [List.drop_append_of_le_length hk, hdrop]⟩

/-- The loop from here on writes what is due for the rest of the text. -/
def Continues (test : NumberTest) (cap fuel : Nat) (input : Bytes) (done rest written : Bytes)
    (k : Nat) (inStr : Bool) (number : Option Bytes) : Prop :=
  (Locals.loop test input fuel (.at cap written done.length k inStr number.isSome)).map Locals.out =
    outcome cap (written ++ rewritten test rest inStr number)

section

variable {test : NumberTest} {cap fuel k : Nat} {input done rest written : Bytes} {inStr : Bool}
  {number : Option Bytes} {c : UInt8}

/-- A round that copies its byte. -/
theorem advance_continues (hread : input[done.length]? = some c)
    (hi : done.length ≤ written.length)
    (hcap : (written ++ c :: rewritten test rest inStr number).length < cap)
    (hnext : (written.length : Int) < intMax →
      Continues test cap fuel input (done ++ [c]) rest (written ++ [c]) k inStr number) :
    (((Locals.at cap written done.length k inStr number.isSome).advance input).bind
        (Locals.loop test input fuel)).map Locals.out =
      outcome cap (written ++ c :: rewritten test rest inStr number) := by
  rw [List.length_append, List.length_cons] at hcap
  rw [advance_at hread hi (by omega)]
  by_cases hroom : (written.length : Int) < intMax
  · have h := hnext hroom
    rw [Continues, List.length_append, List.length_singleton, List.append_assoc,
      List.singleton_append] at h
    rw [if_pos hroom, Option.bind_some, h]
  · rw [if_neg hroom, outcome_of_lt]
    · rfl
    · rw [List.length_append, List.length_cons]
      omega

/-- Whatever has been put in front of it, the byte `c` is copied and the loop goes on. -/
def CopiesOn (test : NumberTest) (cap fuel : Nat) (input done : Bytes) (c : UInt8)
    (rest written : Bytes) : Prop :=
  ∀ (w : Bytes) (k : Nat) (inStr : Bool) (number : Option Bytes), 0 ∉ w →
    written.length ≤ w.length → NumberAt (w ++ [c]) k number →
    (w ++ c :: rewritten test rest inStr number).length < cap →
    (((Locals.at cap w done.length k inStr number.isSome).advance input).bind
        (Locals.loop test input fuel)).map Locals.out =
      outcome cap (w ++ c :: rewritten test rest inStr number)

theorem endNumber_continues {n : Bytes} (hcopy : CopiesOn test cap fuel input done c rest written)
    (hclean : 0 ∉ written) (hnumber : NumberAt written k (some n))
    (hcap : (written ++ ((if decide (4 < n.length) && test.tooBig n then [46, 48] else []) ++
      c :: rewritten test rest inStr none)).length < cap) :
    (((Locals.at cap written done.length k inStr true).endNumber test).bind fun l =>
        (l.advance input).bind (Locals.loop test input fuel)).map Locals.out =
      outcome cap (written ++ ((if decide (4 < n.length) && test.tooBig n then [46, 48] else []) ++
        c :: rewritten test rest inStr none)) := by
  obtain ⟨hk, hn⟩ := hnumber n rfl
  have hnone : ∀ w : Bytes, NumberAt w k none := fun w n h => by cases h
  by_cases hbig : (decide (4 < n.length) && test.tooBig n) = true
  · rw [if_pos hbig, ← List.append_assoc] at hcap
    rw [if_pos hbig, ← List.append_assoc]
    have hfits := hcap
    rw [List.length_append, List.length_append, List.length_cons] at hfits
    simp only [List.length_cons, List.length_nil] at hfits
    rw [endNumber_at (by omega) hclean hk hn (fun _ => by omega), if_pos hbig]
    by_cases hroom : (written.length : Int) + 1 < intMax
    · rw [if_pos hroom, Option.bind_some]
      exact hcopy _ k inStr none (by simpa using hclean) (by simp) (hnone _) hcap
    · rw [if_neg hroom, outcome_of_lt]
      · rfl
      · rw [List.length_append, List.length_append, List.length_cons]
        simp only [List.length_cons, List.length_nil]
        omega
  · rw [if_neg hbig, List.nil_append] at hcap
    rw [if_neg hbig, List.nil_append]
    have hfits := hcap
    rw [List.length_append, List.length_cons] at hfits
    rw [endNumber_at (by omega) hclean hk hn (fun h => absurd h hbig), if_neg hbig,
      Option.bind_some]
    exact hcopy _ k inStr none hclean (Nat.le_refl _) (hnone _) hcap

/-- A quote is a byte of the number in hand, if there is one. -/
theorem quote_continues (hread : input[done.length]? = some 34)
    (hcopy : CopiesOn test cap fuel input done 34 rest written) (hclean : 0 ∉ written)
    (hnumber : NumberAt written k number)
    (hcap : (written ++ rewritten test (34 :: rest) inStr number).length < cap) :
    Continues test cap (fuel + 1) input done (34 :: rest) written k inStr number := by
  rw [rewritten_quote] at hcap
  have h := hcopy written k (!inStr) (number.map (· ++ [34])) hclean (Nat.le_refl _)
    (hnumber.append [34]) hcap
  rw [Option.isSome_map] at h
  rw [Continues, Locals.loop, Locals.at_i, hread, Option.bind_eq_bind, Option.bind_some,
    if_neg (by decide), rewritten_quote]
  exact h

/-- Outside of a number a digit begins one, unless it is in a string. -/
theorem outside_continues (hread : input[done.length]? = some c) (hne : c ≠ 0) (hquote : c ≠ 34)
    (hback : c ≠ 92) (hcopy : CopiesOn test cap fuel input done c rest written)
    (hclean : 0 ∉ written)
    (hcap : (written ++ rewritten test (c :: rest) inStr none).length < cap) :
    Continues test cap (fuel + 1) input done (c :: rest) written k inStr none := by
  rw [rewritten_outside test rest inStr hquote hback] at hcap
  rw [Continues, Locals.loop, Locals.at_i, hread, Option.bind_eq_bind, Option.bind_some,
    if_neg hne, if_neg hquote, if_neg hback, Locals.at_inStr, Locals.at_inInt,
    rewritten_outside test rest inStr hquote hback, Option.isSome_none, Bool.not_false,
    Bool.and_true, Bool.false_and]
  by_cases hstart : (!inStr && isdigit c) = true
  · have hdigits : NumberAt (written ++ [c]) written.length (some [c]) := by
      intro n hn
      obtain rfl := Option.some.inj hn
      exact ⟨by simp, List.drop_left⟩
    rw [if_pos hstart] at hcap
    rw [if_pos hstart, if_pos hstart]
    exact hcopy written _ inStr (some [c]) hclean (Nat.le_refl _) hdigits hcap
  · rw [if_neg hstart] at hcap
    rw [if_neg hstart, if_neg hstart, if_neg Bool.false_ne_true]
    exact hcopy written k inStr none hclean (Nat.le_refl _) (fun n h => by cases h) hcap

/-- Inside of a number a byte is the next of it or ends it. -/
theorem inside_continues {n : Bytes} (hread : input[done.length]? = some c) (hne : c ≠ 0)
    (hquote : c ≠ 34) (hback : c ≠ 92) (hcopy : CopiesOn test cap fuel input done c rest written)
    (hclean : 0 ∉ written) (hnumber : NumberAt written k (some n))
    (hcap : (written ++ rewritten test (c :: rest) inStr (some n)).length < cap) :
    Continues test cap (fuel + 1) input done (c :: rest) written k inStr (some n) := by
  have hgrown : NumberAt (written ++ [c]) k (some (n ++ [c])) := hnumber.append [c]
  rw [Continues, Locals.loop, Locals.at_i, hread, Option.bind_eq_bind, Option.bind_some,
    if_neg hne, if_neg hquote, if_neg hback, Locals.at_inStr, Locals.at_inInt, Option.isSome_some,
    Bool.not_true, Bool.and_false, Bool.false_and, if_neg Bool.false_ne_true, Bool.true_and]
  by_cases hpart : isdigit c ∨ c = 46 ∨ c = 101 ∨ c = 69 ∨ c = 43 ∨ c = 45
  · rw [rewritten_part test rest inStr hquote hback n hpart] at hcap ⊢
    have h := hcopy written k inStr (some (n ++ [c])) hclean (Nat.le_refl _) hgrown hcap
    by_cases hdigit : isdigit c = true
    · rw [hdigit, Bool.not_true, if_neg Bool.false_ne_true]
      exact h
    · have hmark : ¬(c ≠ 46 ∧ c ≠ 101 ∧ c ≠ 69 ∧ c ≠ 43 ∧ c ≠ 45) := by
        tauto
      rw [Bool.eq_false_iff.mpr hdigit, Bool.not_false, if_pos rfl, if_neg hmark]
      exact h
  · rw [rewritten_end test rest inStr hquote hback n hpart] at hcap ⊢
    have hdigit : isdigit c = false := by
      rw [Bool.eq_false_iff]
      exact fun h => hpart (.inl h)
    rw [hdigit, Bool.not_false, if_pos rfl, if_pos (by tauto)]
    exact endNumber_continues hcopy hclean hnumber hcap

/-- A backslash takes the byte behind it along. -/
theorem escape_continues {text : Bytes} (hnul : 0 ∉ text) (htext : done ++ 92 :: rest = text)
    (hi : done.length ≤ written.length) (hmax : (written.length : Int) ≤ intMax)
    (hcap : (written ++ rewritten test (92 :: rest) inStr number).length < cap)
    (hnext : ∀ d rest', rest = d :: rest' → (written.length : Int) + 1 < intMax →
      Continues test cap fuel (text ++ [0]) (done ++ [92, d]) rest' (written ++ [92, d]) k inStr
        (number.map (· ++ [92, d]))) :
    Continues test cap (fuel + 1) (text ++ [0]) done (92 :: rest) written k inStr number := by
  have hread : (text ++ [0])[done.length]? = some 92 := by
    rw [← htext]
    simp
  have hput := @put_at cap done.length k written inStr number.isSome (by
    rw [List.length_append] at hcap
    omega) 92
  rw [Continues, Locals.loop, Locals.at_i, hread, Option.bind_eq_bind, Option.bind_some,
    if_neg (by decide), if_neg (by decide), if_pos rfl, hput]
  by_cases hroom : (written.length : Int) < intMax
  · have hindex : increment done.length = some (done.length + 1) := if_pos (by omega)
    rw [if_pos hroom, Option.bind_eq_bind, Option.bind_some, Locals.at_i, hindex,
      Option.bind_eq_bind, Option.bind_some]
    cases rest with
    | nil =>
        have hend : (text ++ [0])[done.length + 1]? = some 0 := by
          rw [← htext]
          simp
        have hlast : rewritten test [92] inStr number = [92] := by
          rw [rewritten, bigEnds.eq_def]
          rfl
        rw [hend, Option.bind_some, if_pos rfl, hlast, outcome, if_pos (by simp; omega)]
        rfl
    | cons d rest =>
        have hsecond : (text ++ [0])[(done ++ [92]).length]? = some d := by
          rw [← htext, List.append_assoc, List.getElem?_append_right (by simp)]
          simp
        have hne : d ≠ 0 := by
          rintro rfl
          exact hnul (htext ▸ by simp)
        rw [rewritten_escape] at hcap ⊢
        have hstep := @advance_continues test cap fuel k (text ++ [0]) (done ++ [92]) rest
          (written ++ [92]) inStr (number.map (· ++ [92, d])) d hsecond (by simpa using hi)
          (by rwa [List.append_assoc, List.singleton_append]) fun h => by
            rw [List.append_assoc, List.append_assoc]
            refine hnext d rest rfl ?_
            rw [List.length_append, List.length_singleton] at h
            omega
        rw [Option.isSome_map, List.length_append, List.length_singleton,
          List.append_assoc, List.singleton_append] at hstep
        rw [List.length_append, List.length_singleton] at hsecond
        rw [hsecond, Option.bind_some, if_neg hne]
        exact hstep
  · rw [if_neg hroom, outcome_of_lt]
    · rfl
    · have hpos : 0 < (rewritten test (92 :: rest) inStr number).length := by
        cases rest with
        | nil =>
            rw [rewritten, bigEnds.eq_def]
            exact Nat.one_pos
        | cons d rest =>
            rw [rewritten_escape]
            exact Nat.succ_pos _
      rw [List.length_append]
      omega

end

theorem loop_continues (test : NumberTest) (cap : Nat) {text : Bytes} (hnul : 0 ∉ text)
    (fuel : Nat) : ∀ (done rest written : Bytes) (k : Nat) (inStr : Bool) (number : Option Bytes),
    done ++ rest = text → rest.length < fuel → 0 ∉ written → done.length ≤ written.length →
    (written.length : Int) ≤ intMax → NumberAt written k number →
    (written ++ rewritten test rest inStr number).length < cap →
    Continues test cap fuel (text ++ [0]) done rest written k inStr number := by
  induction fuel with
  | zero => exact fun _ _ _ _ _ _ _ h => absurd h (Nat.not_lt_zero _)
  | succ fuel ih =>
      intro done rest written k inStr number htext hfuel hclean hi hmax hnumber hcap
      cases rest with
      | nil =>
          have hread : (text ++ [0])[done.length]? = some 0 := by
            rw [← htext, List.append_nil]
            simp
          rw [Continues, Locals.loop, Locals.at_i, hread, Option.bind_eq_bind, Option.bind_some,
            if_pos rfl, rewritten, withPoints, List.zip_nil_left, List.flatMap_nil,
            List.append_nil, outcome, if_pos hmax]
          rfl
      | cons c rest =>
          rw [List.length_cons] at hfuel
          have hread : (text ++ [0])[done.length]? = some c := by
            rw [← htext]
            simp
          have hne : c ≠ 0 := by
            rintro rfl
            exact hnul (htext ▸ by simp)
          have hcopy : CopiesOn test cap fuel (text ++ [0]) done c rest written := by
            intro w k' str num hw hle hnum hfits
            refine advance_continues hread (Nat.le_trans hi hle) hfits fun hroom => ?_
            refine ih (done ++ [c]) rest (w ++ [c]) k' str num ?_ (by omega) ?_ ?_ ?_ hnum ?_
            · rw [← htext, List.append_assoc, List.singleton_append]
            · rw [List.mem_append, List.mem_singleton]
              exact fun h => h.elim hw (Ne.symm hne)
            · simp only [List.length_append, List.length_singleton]
              omega
            · rw [List.length_append, List.length_singleton]
              omega
            · rwa [List.append_assoc, List.singleton_append]
          by_cases hback : c = 92
          · subst hback
            refine escape_continues hnul htext hi hmax hcap fun d rest' h hroom => ?_
            subst h
            rw [List.length_cons] at hfuel
            rw [rewritten_escape] at hcap
            refine ih (done ++ [92, d]) rest' (written ++ [92, d]) k inStr _ ?_ (by omega) ?_ ?_ ?_
              (hnumber.append [92, d]) ?_
            · rw [← htext, List.append_assoc]
              rfl
            · have hd : 0 ≠ d := fun hd => hnul (by rw [← htext, hd]; simp)
              simp [hclean, hd]
            · simpa using hi
            · simp only [List.length_append, List.length_cons, List.length_nil]
              omega
            · rwa [List.append_assoc]
          by_cases hquote : c = 34
          · subst hquote
            exact quote_continues hread hcopy hclean hnumber hcap
          cases number with
          | none => exact outside_continues hread hne hquote hback hcopy hclean hcap
          | some n => exact inside_continues hread hne hquote hback hcopy hclean hnumber hcap

/-- The block holds the text with its points, if `off` can count that far. -/
theorem block_eq (test : NumberTest) {text : Bytes} (hnul : 0 ∉ text) :
    block test text = outcome (2 * text.length + 1) (rewritten test text false none) := by
  have hlen := length_rewritten test text
  have hmax := bigNumbers_le test text
  have h := loop_continues test (2 * text.length + 1) hnul (text.length + 1) [] text [] 0 false none
    (List.nil_append text) (Nat.lt_succ_self _) List.not_mem_nil (Nat.le_refl _) (by decide)
    (fun n h => by cases h) (by rw [List.nil_append]; omega)
  have hstart : (⟨.replicate (2 * text.length + 1) 0, 0, 0, 0, false, false⟩ : Locals) =
      .at (2 * text.length + 1) [] 0 0 false false := rfl
  rw [block, hstart]
  exact h

end HackJsonNumbers

/-! ## On every text -/

/-- The function returns, and its block holds a string that ends within it. Behind what
has been written, twice the length of the text at most, the block is cleared. -/
def StaysInside (test : NumberTest) (text : Bytes) : Prop :=
  ∃ out written, HackJsonNumbers.block test text = some out ∧
    out = written ++ .replicate (2 * text.length + 1 - written.length) 0 ∧
    written.length ≤ 2 * text.length ∧ str? out = some written

theorem zero_not_mem_rewritten (test : NumberTest) {text : Bytes} (hnul : 0 ∉ text) :
    0 ∉ rewritten test text false none := by
  intro h
  obtain ⟨p, hp, hmem⟩ := List.mem_flatMap.mp h
  have hne : 0 ≠ p.1 := fun h0 => hnul (h0 ▸ (List.of_mem_zip hp).1)
  split at hmem
  · simp [hne] at hmem
  · simp [hne] at hmem

/-- More than `INT_MAX` bytes to write are too many for `off`. -/
theorem block_of_long (test : NumberTest) {text : Bytes} (hnul : 0 ∉ text)
    (hlong : intMax < ((text.length + 2 * bigNumbers test text : Nat) : Int)) :
    HackJsonNumbers.block test text = none := by
  rw [HackJsonNumbers.block_eq test hnul]
  exact HackJsonNumbers.outcome_of_lt (by rwa [length_rewritten])

/-- Up to there the string in the block is the text with its points. -/
theorem block_of_short (test : NumberTest) {text : Bytes} (hnul : 0 ∉ text)
    (hshort : ((text.length + 2 * bigNumbers test text : Nat) : Int) ≤ intMax) :
    HackJsonNumbers.block test text =
        some (HackJsonNumbers.padded (2 * text.length + 1) (rewritten test text false none)) ∧
      str? (HackJsonNumbers.padded (2 * text.length + 1) (rewritten test text false none)) =
        some (rewritten test text false none) := by
  have hlen := length_rewritten test text
  have hmax := bigNumbers_le test text
  have hstr := @HackJsonNumbers.str?_padded (2 * text.length + 1) _ (by omega)
    (zero_not_mem_rewritten test hnul) 0 (Nat.zero_le _)
  rw [List.drop_zero, List.drop_zero] at hstr
  exact ⟨by rw [HackJsonNumbers.block_eq test hnul, HackJsonNumbers.outcome, hlen, if_pos hshort],
    hstr⟩

/-- The block is large enough for every text, and the indices for those of which no more
than `INT_MAX` bytes have to be written. -/
theorem staysInside_iff (test : NumberTest) {text : Bytes} (hnul : 0 ∉ text) :
    StaysInside test text ↔ ((text.length + 2 * bigNumbers test text : Nat) : Int) ≤ intMax := by
  constructor
  · rintro ⟨out, written, hout, -⟩
    by_contra hlong
    rw [block_of_long test hnul (by omega)] at hout
    cases hout
  · intro hshort
    have hlen := length_rewritten test text
    have hmax := bigNumbers_le test text
    obtain ⟨hblock, hstr⟩ := block_of_short test hnul hshort
    exact ⟨_, rewritten test text false none, hblock, rfl, by omega, hstr⟩

/-- A text that breaks off behind a backslash. -/
theorem staysInside_iff_sample : StaysInside .strtoll (ascii "[12345678901234567890 \\") :=
  (staysInside_iff .strtoll (by decide)).mpr (by decide +kernel)

/-- The index does not get to the end of so many blanks. -/
theorem staysInside_fails :
    0 ∉ List.replicate (2 ^ 31) (32 : UInt8) ∧
      ¬StaysInside .strtoll (List.replicate (2 ^ 31) 32) := by
  have hnul : 0 ∉ List.replicate (2 ^ 31) (32 : UInt8) := fun h => by
    cases List.eq_of_mem_replicate h
  refine ⟨hnul, ?_⟩
  rintro ⟨out, written, hout, -⟩
  rw [block_of_long .strtoll hnul] at hout
  · cases hout
  · rw [List.length_replicate, intMax]
    omega

end AlphaMiner
