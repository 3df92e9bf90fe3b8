import AlphaMiner.Lib.Endian
import Mathlib.Data.List.DropRight
import Mathlib.Data.List.TakeWhile

/-!
# Reading a text file through a buffer

`fgets` hands out a line if it fits, together with the newline that ends it, and
what fits of it otherwise. So a program that reads a file with `fgets` does not see
its lines but its `pieces`. They are the lines as long as these are shorter than
the buffer (`fgets_line`); a line that fills the buffer leaves its newline behind,
which comes as a piece of its own (`fgets_full`).
-/

namespace AlphaMiner.Lib

def lineFeed : UInt8 := 10

/-- In the C locale. -/
def isspace (c : UInt8) : Bool := c = 32 || (9 ≤ c && c ≤ 13)

/-- A string without the white space at its ends. -/
def trim (s : Bytes) : Bytes := (s.dropWhile isspace).rdropWhile isspace

/-- The lines of a file. Behind the last newline comes an empty one. -/
def lines (file : Bytes) : List Bytes := file.splitOn lineFeed

/-- `fgets(s, size, file)`: the string it reads, and what is left of the file. -/
def fgets (size : Nat) (file : Bytes) : Option (Bytes × Bytes) :=
  if file = [] then none
  else
    let s := file.take (size - 1)
    let n := min ((s.takeWhile (· ≠ lineFeed)).length + 1) s.length
    some (file.take n, file.drop n)

/-- What `fgets` reads until the end of the file. -/
def pieces (size : Nat) : Nat → Bytes → List Bytes
  | 0, _ => []
  | fuel + 1, file =>
      match fgets size file with
      | none => []
      | some (s, rest) => s :: pieces size fuel rest

/-- A line that fits with its newline. -/
theorem fgets_line {size : Nat} {line : Bytes} (hline : lineFeed ∉ line)
    (hlen : line.length + 2 ≤ size) (rest : Bytes) :
    fgets size (line ++ lineFeed :: rest) = some (line ++ [lineFeed], rest) := by
  have htake : (line ++ lineFeed :: rest).take (size - 1) =
      line ++ lineFeed :: rest.take (size - 2 - line.length) := by
    rw [List.take_append, List.take_of_length_le (by omega),
      show size - 1 - line.length = size - 2 - line.length + 1 by omega, List.take_succ_cons]
  have hword : (line ++ lineFeed :: rest.take (size - 2 - line.length)).takeWhile (· ≠ lineFeed) =
      line := by
    rw [List.takeWhile_append_of_pos, List.takeWhile_cons_of_neg (by simp), List.append_nil]
    intro c hc
    simpa using ne_of_mem_of_not_mem hc hline
  rw [fgets, if_neg (by simp)]
  simp only [htake, hword]
  rw [Nat.min_eq_left (by simp), ← List.singleton_append, ← List.append_assoc,
    List.take_left' (by simp), List.drop_left' (by simp)]

/-- What fills the buffer without a newline, or ends the file. -/
theorem fgets_full {size : Nat} {line : Bytes} (hline : lineFeed ∉ line) (hne : line ≠ [])
    {rest : Bytes} (h : line.length + 1 = size ∨ line.length + 1 ≤ size ∧ rest = []) :
    fgets size (line ++ rest) = some (line, rest) := by
  have htake : (line ++ rest).take (size - 1) = line := by
    obtain h | ⟨h, rfl⟩ := h
    · exact List.take_left' (by omega)
    · rw [List.append_nil, List.take_of_length_le (by omega)]
  have hword : line.takeWhile (· ≠ lineFeed) = line := by
    rw [List.takeWhile_eq_self_iff]
    intro c hc
    simpa using ne_of_mem_of_not_mem hc hline
  rw [fgets, if_neg (by simp [hne])]
  simp only [htake, hword]
  rw [Nat.min_eq_right (by omega), List.take_left, List.drop_left]

end AlphaMiner.Lib
