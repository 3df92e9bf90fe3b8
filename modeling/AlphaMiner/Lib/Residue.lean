import Mathlib.Data.BitVec

/-!
# Check symbols from a linear register

A register of `n` symbols of `w` bits each takes in one symbol at a time: it
moves up by one place, and what falls off the top comes back in through `gen`.
This is division by a polynomial over the field of `2 ^ w` elements when `gen`
multiplies by the low coefficients, but all that is used is that `gen` is linear
in exclusive or. A word is checked by what it leaves behind in the register.

Two facts make `n` appended symbols a checksum. The register is linear, so what
a word leaves behind is what its front leaves behind followed by zeros, changed
by what its end alone does (`feed_xor`); and `n` symbols that go into an empty
register are still there, one beside the other (`digits_feed_zero`). So for every
front there is exactly one end that leads to a given residue (`feed_eq_iff`).

A third fact makes them a checksum that errors show in. If the symbol that falls
off the top can be told from what comes back in at the low end, a step can be undone
(`shiftIn_inj`), and then no change of `n` symbols next to each other goes without a
trace (`feed_window`).
-/

namespace AlphaMiner.Lib

/-! ## The symbols in a register -/

section Digits

variable {w n : Nat}

/-- The symbol at place `i`, counted from the low end. -/
def digit (c : BitVec (n * w)) (i : Nat) : BitVec w := c.extractLsb' (i * w) w

/-- All of them, the top one first. -/
def digits (c : BitVec (n * w)) : List (BitVec w) :=
  (List.range n).map fun i => digit c (n - 1 - i)

@[simp] theorem length_digits (c : BitVec (n * w)) : (digits c).length = n := by
  simp [digits]

@[simp] theorem digit_zero (i : Nat) : digit 0#(n * w) i = 0#w := by
  simp [digit]

theorem digit_xor (c d : BitVec (n * w)) (i : Nat) :
    digit (c ^^^ d) i = digit c i ^^^ digit d i := by
  simp [digit, BitVec.extractLsb'_xor]

/-- A bit of the register is a bit of one of its symbols. -/
theorem getLsbD_eq_digit (c : BitVec (n * w)) {k : Nat} (hw : 0 < w) :
    c.getLsbD k = (digit c (k / w)).getLsbD (k % w) := by
  rw [digit, BitVec.getLsbD_extractLsb', decide_eq_true (Nat.mod_lt k hw), Bool.true_and,
    Nat.div_add_mod' k w]

theorem digit_inj {c d : BitVec (n * w)} (h : ∀ i < n, digit c i = digit d i) : c = d := by
  apply BitVec.eq_of_getLsbD_eq
  intro k hk
  have hw : 0 < w := Nat.pos_of_ne_zero fun hw => by simp [hw] at hk
  rw [getLsbD_eq_digit c hw, getLsbD_eq_digit d hw, h _ (Nat.div_lt_of_lt_mul (by
    rwa [Nat.mul_comm] at hk))]

theorem digits_inj {c d : BitVec (n * w)} (h : digits c = digits d) : c = d := by
  refine digit_inj fun i hi => ?_
  have hat := congrArg (fun l => l[n - 1 - i]?) h
  simpa [digits, List.getElem?_range (show n - 1 - i < n by omega),
    show n - 1 - (n - 1 - i) = i by omega] using hat

end Digits

/-! ## The register at work -/

section Feed

variable {w n : Nat} (gen : BitVec w → BitVec (n * w))

/-- One symbol goes in. -/
def shiftIn (c : BitVec (n * w)) (v : BitVec w) : BitVec (n * w) :=
  c <<< w ^^^ gen (digit c (n - 1)) ^^^ v.setWidth (n * w)

/-- A word goes in. -/
def feed (c : BitVec (n * w)) (vs : List (BitVec w)) : BitVec (n * w) :=
  vs.foldl (shiftIn gen) c

@[simp] theorem feed_nil (c : BitVec (n * w)) : feed gen c [] = c := rfl

@[simp] theorem feed_cons (c : BitVec (n * w)) (v : BitVec w) (vs : List (BitVec w)) :
    feed gen c (v :: vs) = feed gen (shiftIn gen c v) vs := rfl

@[simp] theorem feed_append (c : BitVec (n * w)) (us vs : List (BitVec w)) :
    feed gen c (us ++ vs) = feed gen (feed gen c us) vs :=
  List.foldl_append

/-- What the feedback of a register has to satisfy. -/
def Linear : Prop := ∀ a b : BitVec w, gen (a ^^^ b) = gen a ^^^ gen b

variable {gen}

theorem Linear.zero (hgen : Linear gen) : gen 0#w = 0#(n * w) := by
  simpa using hgen 0#w 0#w

theorem shiftIn_xor (hgen : Linear gen) (c d : BitVec (n * w)) (u v : BitVec w) :
    shiftIn gen (c ^^^ d) (u ^^^ v) = shiftIn gen c u ^^^ shiftIn gen d v := by
  rw [shiftIn, digit_xor, hgen, BitVec.shiftLeft_xor_distrib, BitVec.setWidth_xor]
  simp only [shiftIn]
  ac_rfl

/-- The word splits off what was in the register before it. -/
theorem feed_xor (hgen : Linear gen) (vs : List (BitVec w)) : ∀ c d : BitVec (n * w),
    feed gen (c ^^^ d) vs = feed gen c (List.replicate vs.length 0#w) ^^^ feed gen d vs := by
  induction vs with
  | nil => exact fun _ _ => rfl
  | cons v vs ih =>
      intro c d
      have hstep := shiftIn_xor hgen c d 0#w v
      rw [BitVec.zero_xor] at hstep
      rw [feed_cons, hstep, ih]
      rfl

theorem digit_shiftLeft_zero (hn : 0 < n) (c : BitVec (n * w)) : digit (c <<< w) 0 = 0#w := by
  have hplace : w ≤ n * w := Nat.le_mul_of_pos_left w hn
  apply BitVec.eq_of_getLsbD_eq
  intro k hk
  simp [digit, hk]

theorem digit_shiftLeft_succ (c : BitVec (n * w)) {i : Nat} (hi : i + 1 < n) :
    digit (c <<< w) (i + 1) = digit c i := by
  have hplace : (i + 1 + 1) * w ≤ n * w := Nat.mul_le_mul_right w hi
  apply BitVec.eq_of_getLsbD_eq
  intro k hk
  have hup : (i + 1) * w + k = w + (i * w + k) := by rw [Nat.succ_mul]; omega
  have hlt : w + (i * w + k) < n * w := by
    rw [Nat.succ_mul] at hplace
    omega
  have hhigh : ¬w + (i * w + k) < w := by omega
  simp [digit, hk, hup, hlt, hhigh, BitVec.getLsbD_eq_getElem (show i * w + k < n * w by omega)]

theorem digit_setWidth_zero (hn : 0 < n) (v : BitVec w) : digit (v.setWidth (n * w)) 0 = v := by
  have hplace : w ≤ n * w := Nat.le_mul_of_pos_left w hn
  apply BitVec.eq_of_getLsbD_eq
  intro k hk
  simp [digit, hk, show k < n * w by omega]

theorem digit_setWidth_succ (v : BitVec w) (i : Nat) :
    digit (v.setWidth (n * w)) (i + 1) = 0#w := by
  apply BitVec.eq_of_getLsbD_eq
  intro k hk
  have hhigh : w ≤ (i + 1) * w + k := by rw [Nat.succ_mul]; omega
  simp [digit, hk, BitVec.getLsbD_of_ge v _ hhigh]

/-- As long as nothing has come to the top place, a symbol joins the others. -/
theorem digit_shiftIn (hgen : Linear gen) {c : BitVec (n * w)} (v : BitVec w)
    (htop : digit c (n - 1) = 0#w) {i : Nat} (hi : i < n) :
    digit (shiftIn gen c v) i = if i = 0 then v else digit c (i - 1) := by
  rw [shiftIn, htop, hgen.zero, BitVec.xor_zero, digit_xor]
  cases i with
  | zero => rw [digit_shiftLeft_zero hi, digit_setWidth_zero hi, BitVec.zero_xor, if_pos rfl]
  | succ i =>
      rw [digit_shiftLeft_succ c hi, digit_setWidth_succ, BitVec.xor_zero,
        if_neg (Nat.succ_ne_zero i), Nat.add_sub_cancel]

/-- Symbols that go into an empty register lie in it beside each other. -/
theorem digit_feed_zero (hgen : Linear gen) (vs : List (BitVec w)) (hlen : vs.length ≤ n) :
    ∀ i < n, digit (feed gen 0#(n * w) vs) i = vs.reverse.getD i 0#w := by
  induction vs using List.reverseRecOn with
  | nil => simp
  | append_singleton vs v ih =>
      rw [List.length_append, List.length_singleton] at hlen
      intro i hi
      have hfront := ih (by omega)
      have htop : digit (feed gen 0#(n * w) vs) (n - 1) = 0#w := by
        rw [hfront _ (by omega), List.getD_eq_getElem?_getD, List.getElem?_eq_none (by simp; omega),
          Option.getD_none]
      rw [feed_append, feed_cons, feed_nil, digit_shiftIn hgen v htop hi]
      cases i with
      | zero => simp
      | succ i => simpa using hfront i (by omega)

theorem digits_feed_zero (hgen : Linear gen) {vs : List (BitVec w)} (hlen : vs.length = n) :
    digits (feed gen 0#(n * w) vs) = vs := by
  apply List.ext_getElem (by simp [hlen])
  intro i hi hi'
  have hdigit := digit_feed_zero hgen vs (Nat.le_of_eq hlen) (n - 1 - i) (by omega)
  simp only [digits, List.getElem_map, List.getElem_range]
  rw [hdigit, List.getD_eq_getElem?_getD, List.getElem?_eq_getElem (by simp; omega),
    Option.getD_some, List.getElem_reverse]
  simp [show vs.length - 1 - (n - 1 - i) = i by omega]

/-- Behind any front exactly one end of `n` symbols leads to the residue `t`. -/
theorem feed_eq_iff (hgen : Linear gen) {c t : BitVec (n * w)} {vs : List (BitVec w)}
    (hlen : vs.length = n) :
    feed gen c vs = t ↔ vs = digits (feed gen c (List.replicate n 0#w) ^^^ t) := by
  have hsplit : feed gen c vs = feed gen c (List.replicate n 0#w) ^^^ feed gen 0#(n * w) vs := by
    have h := feed_xor hgen vs c 0#(n * w)
    rwa [BitVec.xor_zero, hlen] at h
  constructor
  · intro h
    rw [← h, hsplit, ← BitVec.xor_assoc, BitVec.xor_self, BitVec.zero_xor,
      digits_feed_zero hgen hlen]
  · intro h
    have hend := digits_inj ((digits_feed_zero hgen hlen).trans h)
    rw [hsplit, hend, ← BitVec.xor_assoc, BitVec.xor_self, BitVec.zero_xor]

/-! ## Errors close together -/

/-- The lowest symbol that comes back in says which one fell off the top. -/
def Telling (gen : BitVec w → BitVec (n * w)) : Prop :=
  ∀ a b, digit (gen a) 0 = digit (gen b) 0 → a = b

theorem Linear.telling (hgen : Linear gen) (h : ∀ a, digit (gen a) 0 = 0#w → a = 0#w) :
    Telling gen := by
  intro a b hab
  have hzero : a ^^^ b = 0#w := h _ (by rw [hgen, digit_xor, hab, BitVec.xor_self])
  exact BitVec.xor_eq_zero_iff.mp hzero

/-- A step loses nothing of the register. -/
theorem shiftIn_inj (hgen : Telling gen) {c d : BitVec (n * w)} {v : BitVec w}
    (h : shiftIn gen c v = shiftIn gen d v) : c = d := by
  have hback : c <<< w ^^^ gen (digit c (n - 1)) = d <<< w ^^^ gen (digit d (n - 1)) :=
    (BitVec.xor_left_inj _).mp h
  have htop : 0 < n → digit c (n - 1) = digit d (n - 1) := by
    intro hn
    refine hgen _ _ ?_
    have hlow := congrArg (digit · 0) hback
    simpa only [digit_xor, digit_shiftLeft_zero hn, BitVec.zero_xor] using hlow
  refine digit_inj fun i hi => ?_
  by_cases hlast : i = n - 1
  · rw [hlast]
    exact htop (by omega)
  · rw [htop (by omega)] at hback
    have hup := congrArg (digit · (i + 1)) ((BitVec.xor_left_inj _).mp hback)
    simpa only [digit_shiftLeft_succ c (show i + 1 < n by omega),
      digit_shiftLeft_succ d (show i + 1 < n by omega)] using hup

theorem feed_inj (hgen : Telling gen) (vs : List (BitVec w)) : ∀ {c d : BitVec (n * w)},
    feed gen c vs = feed gen d vs → c = d := by
  induction vs with
  | nil => exact fun h => h
  | cons v vs ih => exact fun h => shiftIn_inj hgen (ih h)

/-- Two words that differ in no more than `n` symbols next to each other do not
leave the same behind. -/
theorem feed_window (hlin : Linear gen) (hgen : Telling gen) {c : BitVec (n * w)}
    {front back us vs : List (BitVec w)} (hlen : us.length = vs.length) (hus : us.length ≤ n)
    (h : feed gen c (front ++ us ++ back) = feed gen c (front ++ vs ++ back)) : us = vs := by
  rw [feed_append, feed_append, feed_append, feed_append] at h
  have hmiddle := feed_inj hgen back h
  rw [← BitVec.xor_zero (x := feed gen c front), feed_xor hlin us, feed_xor hlin vs, hlen] at hmiddle
  have hsame := (BitVec.xor_right_inj _).mp hmiddle
  apply List.reverse_inj.mp
  apply List.ext_getElem (by simpa using hlen)
  intro i hi hi'
  rw [List.length_reverse] at hi hi'
  have hdigit := congrArg (digit · i) hsame
  simp only [digit_feed_zero hlin us hus i (by omega),
    digit_feed_zero hlin vs (by omega) i (by omega)] at hdigit
  simpa [List.getD_eq_getElem?_getD, hi, hi'] using hdigit

end Feed

end AlphaMiner.Lib
