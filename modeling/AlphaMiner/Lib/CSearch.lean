import AlphaMiner.Lib.Buffer
import AlphaMiner.Lib.CString

/-!
# Searching strings and moving memory

A pointer into a block of memory is an offset, and the string that it points at ends
at the next zero byte. The functions of `<string.h>` that look for something in such
a string answer with a pointer into the same block. What they find cuts the string
in two, and each of the lemmas is about such a cut.
-/

namespace AlphaMiner.Lib

/-- The string at `p`. -/
def strAt (m : Bytes) (p : Nat) : Bytes := cstr (m.drop p)

/-- `strchr(p, c)` for a character that is not the terminator. -/
def strchr (m : Bytes) (p : Nat) (c : UInt8) : Option Nat :=
  if c ∈ strAt m p then some (p + (strAt m p).idxOf c) else none

/-- `strrchr(p, c)`. -/
def strrchr (m : Bytes) (p : Nat) (c : UInt8) : Option Nat :=
  if c ∈ strAt m p then
    some (p + ((strAt m p).length - 1 - (strAt m p).reverse.idxOf c))
  else none

/-- `strstr(p, needle)`. -/
def strstr (m : Bytes) (p : Nat) (needle : Bytes) : Option Nat :=
  ((List.range ((strAt m p).length + 1)).find? fun i =>
    needle.isPrefixOf ((strAt m p).drop i)).map (p + ·)

/-- `memmove(dst, src, n)`; nothing, when it would leave the block. -/
def memmove? (m : Bytes) (dst src n : Nat) : Option Bytes := (slice? m src n).bind (store? m dst)

/-- `memset(p, c, n)`. -/
def memset? (m : Bytes) (p : Nat) (c : UInt8) (n : Nat) : Option Bytes :=
  store? m p (List.replicate n c)

/-- The string at the start of a block; nothing, when the block holds no terminator. -/
def str? (m : Bytes) : Option Bytes := if 0 ∈ m then some (cstr m) else none

/-! ## Strings -/

theorem str?_append {s : Bytes} (hs : 0 ∉ s) (junk : Bytes) : str? (s ++ 0 :: junk) = some s := by
  rw [str?, if_pos (by simp), cstr_append hs]

theorem strAt_middle {front s : Bytes} (hs : 0 ∉ s) {p : Nat} (hp : front.length = p)
    (junk : Bytes) : strAt (front ++ s ++ 0 :: junk) p = s := by
  rw [strAt, List.append_assoc, List.drop_left' hp, cstr_append hs]

/-- A pointer into a string points at the rest of it. -/
theorem strAt_drop {s : Bytes} (hs : 0 ∉ s) {p : Nat} (hp : p ≤ s.length) (junk : Bytes) :
    strAt (s ++ 0 :: junk) p = s.drop p := by
  rw [strAt, List.drop_append_of_le_length hp, cstr_append]
  exact fun h => hs (List.mem_of_mem_drop h)

/-- What is behind a character of a string is a string too. -/
theorem strAt_split {m u v : Bytes} {p : Nat} {c : UInt8} (h : strAt m p = u ++ c :: v) :
    slice m p u.length = u ∧ strAt m (p + u.length + 1) = v := by
  have hcut : m.drop p = u ++ c :: v ++ (m.drop p).dropWhile (· ≠ 0) := by
    rw [← h]
    exact List.takeWhile_append_dropWhile.symm
  have hv : ∀ d ∈ v, decide (d ≠ 0) = true := by
    intro d hd
    have hmem : d ∈ strAt m p := by rw [h]; simp [hd]
    simpa using ne_of_mem_of_not_mem hmem (zero_not_mem_cstr _)
  have hend : ((m.drop p).dropWhile (· ≠ 0)).takeWhile (· ≠ 0) = [] := by
    rw [List.takeWhile_eq_nil_iff]
    intro hpos
    simpa using List.dropWhile_get_zero_not (fun d : UInt8 => decide (d ≠ 0)) (m.drop p) hpos
  constructor
  · rw [slice, hcut, List.append_assoc, List.take_left]
  · have hplace : (u ++ [c]).length = u.length + 1 := by simp
    rw [strAt, Nat.add_assoc, ← List.drop_drop, hcut, List.append_cons, List.append_assoc,
      ← hplace, List.drop_left, cstr, List.takeWhile_append_of_pos hv, hend, List.append_nil]

/-! ## Characters -/

theorem strchr_none {m : Bytes} {p : Nat} {c : UInt8} (h : c ∉ strAt m p) :
    strchr m p c = none := if_neg h

/-- The first one. -/
theorem strchr_eq {m u v : Bytes} {p : Nat} {c : UInt8} (h : strAt m p = u ++ c :: v)
    (hu : c ∉ u) : strchr m p c = some (p + u.length) := by
  rw [strchr, h, if_pos (by simp), List.idxOf_append_of_notMem hu, List.idxOf_cons_self,
    Nat.add_zero]

theorem strrchr_none {m : Bytes} {p : Nat} {c : UInt8} (h : c ∉ strAt m p) :
    strrchr m p c = none := if_neg h

/-- The last one. -/
theorem strrchr_eq {m u v : Bytes} {p : Nat} {c : UInt8} (h : strAt m p = u ++ c :: v)
    (hv : c ∉ v) : strrchr m p c = some (p + u.length) := by
  have hrev : (u ++ c :: v).reverse = v.reverse ++ c :: u.reverse := by simp
  have hlen : (u ++ c :: v).length - 1 - v.reverse.length = u.length := by
    simp
  rw [strrchr, h, if_pos (by simp), hrev, List.idxOf_append_of_notMem (by simpa using hv),
    List.idxOf_cons_self, Nat.add_zero, hlen]

theorem exists_last {s : Bytes} {c : UInt8} (h : c ∈ s) : ∃ u v, s = u ++ c :: v ∧ c ∉ v := by
  obtain ⟨v, u, hrev, hv⟩ := List.eq_append_cons_of_mem (List.mem_reverse.mpr h)
  refine ⟨u.reverse, v.reverse, ?_, by simpa using hv⟩
  rw [← List.reverse_reverse s, hrev]
  simp

/-! ## Strings in strings -/

/-- The first place, when the first character of what is looked for is not in front
of it. -/
theorem strstr_eq {m u v needle : Bytes} {p : Nat} {c : UInt8}
    (h : strAt m p = u ++ (c :: needle) ++ v) (hu : c ∉ u) :
    strstr m p (c :: needle) = some (p + u.length) := by
  have hfind : ((List.range ((strAt m p).length + 1)).find? fun i =>
      (c :: needle).isPrefixOf ((strAt m p).drop i)) = some u.length := by
    rw [List.find?_range_eq_some, h]
    refine ⟨?_, ?_, ?_⟩
    · rw [List.append_assoc, List.drop_left, List.isPrefixOf_iff_prefix]
      exact List.prefix_append _ _
    · rw [List.mem_range, List.length_append, List.length_append]
      omega
    · intro j hj
      rw [List.append_assoc, List.drop_append_of_le_length (Nat.le_of_lt hj),
        List.drop_eq_getElem_cons hj, List.cons_append]
      have hne : (c == u[j]) = false := beq_eq_false_iff_ne.mpr fun h => hu (h ▸ List.getElem_mem hj)
      rw [List.isPrefixOf, hne]
      rfl
  rw [strstr, hfind]
  rfl

/-- It is found where it is, or before. -/
theorem strstr_le {m needle : Bytes} {p i : Nat} (hi : i ≤ (strAt m p).length)
    (h : needle <+: (strAt m p).drop i) : ∃ j ≤ i, strstr m p needle = some (p + j) := by
  cases hfind : (List.range ((strAt m p).length + 1)).find? fun i =>
      needle.isPrefixOf ((strAt m p).drop i) with
  | none =>
      rw [List.find?_eq_none] at hfind
      exact absurd (List.isPrefixOf_iff_prefix.mpr h)
        (hfind i (List.mem_range.mpr (Nat.lt_succ_of_le hi)))
  | some j =>
      refine ⟨j, ?_, by rw [strstr, hfind]; rfl⟩
      rw [List.find?_range_eq_some] at hfind
      by_contra hlt
      have := hfind.2.2 i (by omega)
      rw [List.isPrefixOf_iff_prefix.mpr h] at this
      cases this

/-! ## Memory -/

/-- One byte. -/
theorem store_one (front : Bytes) (c d : UInt8) (rest : Bytes) :
    store (front ++ c :: rest) front.length [d] = front ++ d :: rest := by
  have h := @store_middle front [c] [d] rest _ rfl rfl
  rwa [List.append_assoc, List.append_assoc] at h

theorem store?_middle {a b b' c : Bytes} {off : Nat} (ha : a.length = off)
    (hb : b'.length = b.length) : store? (a ++ b ++ c) off b' = some (a ++ b' ++ c) := by
  rw [store?, if_pos, store_middle ha hb]
  rw [List.length_append, List.length_append, ha, hb]
  omega

theorem slice?_middle {a b : Bytes} {off : Nat} (ha : a.length = off) (c : Bytes) :
    slice? (a ++ b ++ c) off b.length = some b := by
  rw [slice?, if_pos, slice, List.append_assoc, List.drop_left' ha, List.take_left]
  rw [List.length_append, List.length_append, ha]
  omega

/-- The end of a block is moved to the left over a gap, and the block stays as long as
it was. -/
theorem memmove?_left (front gap s : Bytes) :
    memmove? (front ++ (gap ++ s)) front.length (front.length + gap.length) s.length =
      some (front ++ s ++ (gap ++ s).drop s.length) := by
  have hlen : (front ++ (gap ++ s)).length = front.length + gap.length + s.length := by
    simp only [List.length_append]
    omega
  have hslice : slice (front ++ (gap ++ s)) (front.length + gap.length) s.length = s := by
    rw [slice, ← List.append_assoc, ← List.length_append, List.drop_left, List.take_length]
  rw [memmove?, slice?, if_pos (Nat.le_of_eq hlen.symm), hslice, Option.bind_some, store?,
    if_pos (by rw [hlen]; omega), store, List.take_left, ← List.drop_drop, List.drop_left]

end AlphaMiner.Lib
