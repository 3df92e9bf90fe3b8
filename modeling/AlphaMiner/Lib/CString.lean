import AlphaMiner.Lib.Endian
import AlphaMiner.Lib.Lines

/-!
# C strings in a buffer

The string that begins at the start of a block of memory is what lies in front
of the first zero byte. `strtok` answers where its token begins and what it
made of the memory, since it ends the token with a zero byte of its own; what
this costs the caller is `strtok_word`: a delimiter is gone, and the caller who
wants the string that was behind the token has to know where.
-/

namespace AlphaMiner.Lib

/-- The C string at the start of `m`, terminator left out. -/
def cstr (m : Bytes) : Bytes := m.takeWhile (· ≠ 0)

/-- `strtok(m, d)` with a single delimiter: the offset of the token, or `none`
for `NULL`, and the memory afterwards. -/
def strtok (m : Bytes) (d : UInt8) : Option Nat × Bytes :=
  let s := cstr m
  let start := lead d s
  if start = s.length then (none, m)
  else
    let stop := start + (word d s).length
    (some start, if stop < s.length then m.set stop 0 else m)

theorem zero_not_mem_cstr (m : Bytes) : 0 ∉ cstr m := by
  intro h
  simpa using List.mem_takeWhile_imp h

theorem cstr_append {s : Bytes} (hs : 0 ∉ s) (junk : Bytes) : cstr (s ++ 0 :: junk) = s := by
  rw [cstr, List.takeWhile_append_of_pos, List.takeWhile_cons_of_neg (by simp), List.append_nil]
  intro c hc
  simpa using (ne_of_mem_of_not_mem hc hs)

/-- A block that holds a string, and what follows the terminator. -/
theorem eq_cstr_append {m : Bytes} (h : 0 ∈ m) : ∃ junk, m = cstr m ++ 0 :: junk := by
  have hcut : cstr m ++ m.dropWhile (· ≠ 0) = m := List.takeWhile_append_dropWhile
  have hhead := List.head?_dropWhile_not (fun c : UInt8 => decide (c ≠ 0)) m
  cases hrest : m.dropWhile (· ≠ 0) with
  | nil =>
      rw [hrest, List.append_nil] at hcut
      rw [← hcut] at h
      exact absurd h (zero_not_mem_cstr m)
  | cons c junk =>
      rw [hrest] at hcut hhead
      obtain rfl : c = 0 := by simpa using hhead
      exact ⟨junk, hcut.symm⟩

theorem strtok_none {m : Bytes} {d : UInt8} (h : word d (cstr m) = []) :
    strtok m d = (none, m) := by
  have hcut := lead_word_tail d (cstr m)
  rw [h, tail_eq_nil_of_word h, List.append_nil, List.append_nil] at hcut
  have hlen := congrArg List.length hcut
  rw [List.length_replicate] at hlen
  rw [strtok]
  exact if_pos hlen.symm

/-- With a token in the string, the memory afterwards is the delimiters that
were skipped, the token, the zero byte, and what was behind the byte that it
replaced: the rest of the string, or what followed the old terminator. -/
theorem strtok_word {s junk : Bytes} {d : UInt8} (hs : 0 ∉ s) (h : word d s ≠ []) :
    ∃ behind, strtok (s ++ 0 :: junk) d =
        (some (lead d s), List.replicate (lead d s) d ++ word d s ++ 0 :: behind) ∧
      (tail d s = [] → behind = junk) ∧
      ∀ rest, tail d s = d :: rest → behind = rest ++ 0 :: junk := by
  have hcut := lead_word_tail d s
  have hlen := congrArg List.length hcut
  simp only [List.length_append, List.length_replicate] at hlen
  have hpos := List.length_pos_of_ne_nil h
  rw [strtok, cstr_append hs]
  simp only [if_neg (show lead d s ≠ s.length by omega)]
  generalize lead d s = k at *
  generalize word d s = w at *
  rcases tail_eq d s with ht | ⟨rest, ht⟩
  · rw [ht] at hcut hlen ⊢
    refine ⟨junk, ?_, fun _ => rfl, fun rest h => by cases h⟩
    rw [if_neg (by simp at hlen; omega), hcut, List.append_nil]
  · rw [ht] at hcut hlen ⊢
    refine ⟨rest ++ 0 :: junk, ?_, fun h => (by cases h), fun rest' h => ?_⟩
    · rw [if_pos (by simp at hlen; omega), hcut, List.append_assoc _ (d :: rest),
        List.set_append_right _ _ (by simp),
        show k + w.length - (List.replicate k d ++ w).length = 0 by simp]
      rfl
    · rw [(List.cons.inj h).2]

end AlphaMiner.Lib
