import AlphaMiner.Model.AddressFile

/-!
# What is loaded from an address file

The loader's list is made of the pieces that `fgets` reads, for every file
(`loadAddresses.loop_pieces`). For a file whose lines have up to 255 bytes that is as
good as the lines (`loadAddressesFromFile_lines`): the newline behind a line of 255
bytes comes as a piece of its own, and is empty.

A longer line is taken for several. Where it is cut is a matter of counting bytes,
so the end of a long comment is read as if it were no comment, and an address in it
is loaded (`loadAddressesFromFile_long_comment`).
-/

namespace AlphaMiner

open Lib

/-- The string on a line, without its comment and the white space around it. -/
def lineAddress (line : Bytes) : Bytes := trim (line.takeWhile (· ≠ 35))

/-- Whether a string is kept as an address. -/
def kept (sha256d : Bytes → Hash) (s : Bytes) : Bool :=
  s ≠ [] && (loadedScript sha256d s).isSome

/-- The addresses that a file lists, in its order. -/
def listed (sha256d : Bytes → Hash) (file : Bytes) : List Bytes :=
  ((lines file).map lineAddress).filter (kept sha256d)

/-! ## One line -/

theorem loadAddresses.trimEnd_eq (s : Bytes)
    (h : ∀ hne : s ≠ [], isspace (s.getLast hne) = false) :
    loadAddresses.trimEnd s = s.dropWhile isspace := by
  induction s with
  | nil => rfl
  | cons c s ih =>
      cases s with
      | nil =>
          have hc : isspace c = false := h (List.cons_ne_nil c [])
          simp [loadAddresses.trimEnd, hc]
      | cons c' s =>
          rw [loadAddresses.trimEnd, List.dropWhile_cons, ih fun _ => h (List.cons_ne_nil c _)]

/-- Trimming in place is trimming. -/
theorem loadAddresses.start_eq {line : Bytes} (hline : lineFeed ∉ line) :
    loadAddresses.start line = lineAddress line ∧
      loadAddresses.start (line ++ [lineFeed]) = lineAddress line := by
  have htrim : ∀ s : Bytes, (loadAddresses.trimEnd (s.dropWhile isspace).reverse).reverse =
      trim s := by
    intro s
    rw [trim, List.rdropWhile, loadAddresses.trimEnd_eq]
    intro hne
    rw [List.getLast_reverse]
    exact List.head_dropWhile_not isspace _
  have hcut : line.takeWhile (· ≠ lineFeed) = line := by
    rw [List.takeWhile_eq_self_iff]
    intro c hc
    simpa using ne_of_mem_of_not_mem hc hline
  have hcut' : (line ++ [lineFeed]).takeWhile (· ≠ lineFeed) = line := by
    rw [List.takeWhile_append_of_pos, List.takeWhile_cons_of_neg (by simp), List.append_nil]
    intro c hc
    simpa using ne_of_mem_of_not_mem hc hline
  constructor
  · rw [loadAddresses.start]
    simp only [hcut]
    exact htrim _
  · rw [loadAddresses.start]
    simp only [hcut']
    exact htrim _

theorem cstr_eq_self {s : Bytes} (hs : 0 ∉ s) : cstr s = s := by
  rw [cstr, List.takeWhile_eq_self_iff]
  intro c hc
  simpa using ne_of_mem_of_not_mem hc hs

/-! ## The loop -/

theorem loadAddresses.round_ok {sha256d : Bytes → Hash} {memory : Memory} {line : Bytes}
    {st st' : Loading} (h : loadAddresses.round sha256d memory line st = some (.ok st')) :
    st'.coinbaseAddresses = st.coinbaseAddresses ++
      [loadAddresses.start (cstr line)].filter (kept sha256d) := by
  rw [loadAddresses.round] at h
  simp only at h
  by_cases hnil : loadAddresses.start (cstr line) = []
  · rw [if_pos hnil] at h
    obtain rfl := Except.ok.inj (Option.some.inj h)
    simp [kept, hnil]
  rw [if_neg hnil] at h
  cases hscript : addressToScript sha256d (.replicate 128 0) (loadAddresses.start (cstr line)) with
  | none =>
      rw [hscript] at h
      cases h
  | some script =>
      obtain ⟨size, out⟩ := script
      have hkept : kept sha256d (loadAddresses.start (cstr line)) = decide (size ≠ 0) := by
        rw [kept, loadedScript, hscript]
        by_cases hsize : size = 0 <;> simp [hsize, hnil]
      rw [hscript] at h
      simp only at h
      by_cases hsize : size = 0
      · rw [if_pos hsize] at h
        obtain rfl := Except.ok.inj (Option.some.inj h)
        simp [hkept, hsize]
      · rw [if_neg hsize] at h
        split at h
        · cases h
        · split at h
          · cases h
          · obtain rfl := Except.ok.inj (Option.some.inj h)
            simp [hkept, hsize]

/-- Every piece that is an address is kept, and nothing else. -/
theorem loadAddresses.loop_pieces {sha256d : Bytes → Hash} {memory : Memory} (fuel : Nat) :
    ∀ {file : Bytes} {st st' : Loading},
      loadAddresses.loop sha256d memory fuel file st = some (.ok st') →
      st'.coinbaseAddresses = st.coinbaseAddresses ++
        ((pieces 256 fuel file).map fun s => loadAddresses.start (cstr s)).filter
          (kept sha256d) := by
  induction fuel with
  | zero =>
      intro file st st' h
      cases h
  | succ fuel ih =>
      intro file st st' h
      rw [loadAddresses.loop] at h
      rw [pieces]
      cases hread : fgets 256 file with
      | none =>
          rw [hread] at h
          obtain rfl := Except.ok.inj (Option.some.inj h)
          simp
      | some read =>
          obtain ⟨line, rest⟩ := read
          rw [hread] at h
          simp only at h ⊢
          cases hround : loadAddresses.round sha256d memory line st with
          | none =>
              rw [hround] at h
              cases h
          | some result =>
              rw [hround] at h
              cases result with
              | error addresses => cases h
              | ok next =>
                  rw [ih h, loadAddresses.round_ok hround, List.map_cons, List.append_assoc,
                    ← List.filter_append, List.singleton_append]

/-! ## Lines that fit -/

theorem lines_of_not_mem {file : Bytes} (h : lineFeed ∉ file) : lines file = [file] :=
  List.splitOn_eq_singleton h

theorem lines_append {line : Bytes} (h : lineFeed ∉ line) (rest : Bytes) :
    lines (line ++ lineFeed :: rest) = line :: lines rest :=
  List.splitOn_append_cons_self_of_not_mem h rest

/-- A file is a line, or a line and the rest of the file. -/
theorem lines_cases (file : Bytes) : lineFeed ∉ file ∨
    ∃ line rest, lineFeed ∉ line ∧ file = line ++ lineFeed :: rest := by
  by_cases h : lineFeed ∈ file
  · obtain ⟨line, rest, rfl, hline⟩ := List.eq_append_cons_of_mem h
    exact .inr ⟨line, rest, hline, rfl⟩
  · exact .inl h

theorem listed_of_not_mem (sha256d : Bytes → Hash) {file : Bytes} (h : lineFeed ∉ file) :
    listed sha256d file = [lineAddress file].filter (kept sha256d) := by
  rw [listed, lines_of_not_mem h, List.map_singleton]

theorem listed_append (sha256d : Bytes → Hash) {line : Bytes} (h : lineFeed ∉ line) (rest : Bytes) :
    listed sha256d (line ++ lineFeed :: rest) =
      [lineAddress line].filter (kept sha256d) ++ listed sha256d rest := by
  rw [listed, listed, lines_append h, List.map_cons, ← List.filter_append, List.singleton_append]

/-- A piece has the address of the line, with its newline or without. -/
theorem loadAddresses.start_cstr {line : Bytes} (hline : lineFeed ∉ line) (hzero : 0 ∉ line) :
    loadAddresses.start (cstr line) = lineAddress line ∧
      loadAddresses.start (cstr (line ++ [lineFeed])) = lineAddress line := by
  have hzero' : 0 ∉ line ++ [lineFeed] := by simpa [lineFeed] using hzero
  rw [cstr_eq_self hzero, cstr_eq_self hzero']
  exact loadAddresses.start_eq hline

/-- Without a line that is too long, the pieces have the addresses of the lines. -/
theorem pieces_lines (sha256d : Bytes → Hash) (fuel : Nat) : ∀ {file : Bytes},
    file.length < fuel → 0 ∉ file → (∀ line ∈ lines file, line.length ≤ 255) →
    ((pieces 256 fuel file).map fun s => loadAddresses.start (cstr s)).filter (kept sha256d) =
      listed sha256d file := by
  induction fuel using Nat.strongRecOn with
  | ind fuel ih =>
      intro file hfuel hzero hshort
      obtain ⟨fuel, rfl⟩ := Nat.exists_eq_add_one_of_ne_zero (show fuel ≠ 0 by omega)
      obtain hlast | ⟨line, rest, hline, rfl⟩ := lines_cases file
      · rw [lines_of_not_mem hlast] at hshort
        have hlen := hshort file (List.mem_singleton.mpr rfl)
        rw [pieces, listed_of_not_mem sha256d hlast]
        by_cases hnil : file = []
        · subst hnil
          rfl
        have hread := @fgets_full 256 file hlast hnil [] (.inr ⟨by omega, rfl⟩)
        rw [List.append_nil] at hread
        have hend : pieces 256 fuel [] = [] := by cases fuel <;> rfl
        rw [hread]
        simp only [hend]
        rw [List.map_singleton, (loadAddresses.start_cstr hlast hzero).1]
      · rw [lines_append hline] at hshort
        have hlen := hshort line List.mem_cons_self
        have hzero' : 0 ∉ line := fun h => hzero (List.mem_append_left _ h)
        have hrest : 0 ∉ rest := fun h =>
          hzero (List.mem_append_right _ (List.mem_cons_of_mem _ h))
        have hshort' : ∀ l ∈ lines rest, l.length ≤ 255 := fun l hl =>
          hshort l (List.mem_cons_of_mem _ hl)
        rw [List.length_append, List.length_cons] at hfuel
        rw [pieces, listed_append sha256d hline]
        by_cases hfits : line.length + 2 ≤ 256
        · rw [fgets_line hline hfits rest]
          simp only
          rw [List.map_cons, (loadAddresses.start_cstr hline hzero').2, ← List.singleton_append,
            List.filter_append, ih fuel (by omega) (by omega) hrest hshort']
        · -- the newline stays behind, and is read as an empty line
          have hne : line ≠ [] := fun h => by simp [h] at hfits
          obtain ⟨fuel, rfl⟩ := Nat.exists_eq_add_one_of_ne_zero (show fuel ≠ 0 by omega)
          have hempty := @fgets_line 256 [] (by simp) (by simp) rest
          rw [List.nil_append, List.nil_append] at hempty
          rw [fgets_full hline hne (.inl (by omega))]
          simp only
          rw [pieces, hempty]
          simp only
          have hskip : ∀ l, (loadAddresses.start (cstr [lineFeed]) :: l).filter (kept sha256d) =
              l.filter (kept sha256d) := fun _ => rfl
          rw [List.map_cons, List.map_cons, (loadAddresses.start_cstr hline hzero').1,
            ← List.singleton_append, List.filter_append, hskip,
            ih fuel (by omega) (by omega) hrest hshort']

/-- A file whose lines have up to 255 bytes is loaded as it is meant. -/
theorem loadAddressesFromFile_lines {sha256d : Bytes → Hash} {memory : Memory} {file : Bytes}
    {addresses addresses' : List Bytes} {code : Int} (hzero : 0 ∉ file)
    (hload : loadAddressesFromFile sha256d memory (some file) addresses = some (code, addresses'))
    (hcode : 0 ≤ code) (hshort : ∀ line ∈ lines file, line.length ≤ 255) :
    addresses' = listed sha256d file := by
  rw [loadAddressesFromFile] at hload
  cases hloop : loadAddresses.loop sha256d memory (file.length + 1) file ⟨[], 0, 0⟩ with
  | none =>
      rw [hloop] at hload
      cases hload
  | some result =>
      rw [hloop] at hload
      cases result with
      | error left =>
          obtain ⟨rfl, -⟩ := Prod.mk.inj (Option.some.inj hload)
          exact absurd hcode (by decide)
      | ok st =>
          obtain ⟨-, rfl⟩ := Prod.mk.inj (Option.some.inj hload)
          rw [loadAddresses.loop_pieces _ hloop, List.nil_append]
          exact pieces_lines sha256d _ (Nat.lt_succ_self _) hzero hshort

def plentyOfMemory : Memory := ⟨fun _ => true, fun _ => true⟩

set_option maxRecDepth 20000 in
theorem loadAddressesFromFile_lines_sample :
    [ascii "bc1pqq0qjmy9he"] =
      listed (fun _ => .replicate 32 0) (ascii " bc1pqq0qjmy9he # mine\r\n#none\n") := by
  have hshort : (lines (ascii " bc1pqq0qjmy9he # mine\r\n#none\n")).all (·.length ≤ 255) =
      true := by decide
  refine @loadAddressesFromFile_lines _ plentyOfMemory _ [] _ 1 (by decide) (by decide) (by decide)
    fun line hline => ?_
  simpa using List.all_eq_true.mp hshort line hline

set_option maxRecDepth 20000 in
/-- A comment of 255 bytes, and behind it an address on the same line. -/
theorem loadAddressesFromFile_long_comment :
    loadAddressesFromFile (fun _ => .replicate 32 0) plentyOfMemory
        (some (ascii "#" ++ List.replicate 254 46 ++ ascii "bc1pqq0qjmy9he\n")) [] =
      some (1, [ascii "bc1pqq0qjmy9he"]) ∧
    listed (fun _ => .replicate 32 0)
      (ascii "#" ++ List.replicate 254 46 ++ ascii "bc1pqq0qjmy9he\n") = [] := by
  constructor
  · decide
  · decide

end AlphaMiner
