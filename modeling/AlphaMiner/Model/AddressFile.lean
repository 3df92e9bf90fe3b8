import AlphaMiner.Lib.CString
import AlphaMiner.Lib.TextFile
import AlphaMiner.Model.Payout

/-!
# The address file (`load_addresses_from_file`)

The file is read through a buffer of 256 bytes. What `fgets` puts into it counts as
a line of the file: the newline is cut off, then everything from a `#` on, then the
white space at both ends, and what is left is an address if `address_to_script`
says so.

`coinbase_addresses` is the list of its entries, with `num_addresses` for the
length and `NULL` for the empty list. Whether there is memory for another entry is
asked of `Memory`. The caller ends the program if the loader fails.
-/

namespace AlphaMiner

open Lib

/-- Whether the allocations for the entry of this number succeed. -/
structure Memory where
  realloc : Nat → Bool
  strdup : Nat → Bool

/-- The loop that moves `end` towards `start`. The string is reversed. -/
def loadAddresses.trimEnd : Bytes → Bytes
  | c :: c' :: s => if isspace c then loadAddresses.trimEnd (c' :: s) else c :: c' :: s
  | s => s

/-- The string at `start` after `line` has been cut and trimmed in place. -/
def loadAddresses.start (line : Bytes) : Bytes :=
  let line := line.takeWhile (· ≠ lineFeed)
  let line := line.takeWhile (· ≠ 35)  -- '#'
  let start := line.dropWhile isspace
  (loadAddresses.trimEnd start.reverse).reverse

structure Loading where
  coinbaseAddresses : List Bytes
  validAddresses : Nat
  lineCount : Nat

/-- One round of the loop, which may be the last: `.error` has the entries that
are left when memory has run out. -/
def loadAddresses.round (sha256d : Bytes → Hash) (memory : Memory) (line : Bytes) (st : Loading) :
    Option (Except (List Bytes) Loading) :=
  let st := { st with lineCount := st.lineCount + 1 }
  let start := loadAddresses.start (cstr line)
  if start = [] then some (.ok st)
  else
    match addressToScript sha256d (.replicate 128 0) start with
    | none => none
    | some (scriptSize, _) =>
        if scriptSize = 0 then some (.ok st)
        else
          let numAddresses := st.coinbaseAddresses.length
          if !memory.realloc numAddresses then some (.error [])
          else if !memory.strdup numAddresses then some (.error st.coinbaseAddresses)
          else
            some (.ok
              { st with
                coinbaseAddresses := st.coinbaseAddresses ++ [start]
                validAddresses := st.validAddresses + 1 })

def loadAddresses.loop (sha256d : Bytes → Hash) (memory : Memory) : Nat → Bytes → Loading →
    Option (Except (List Bytes) Loading)
  | 0, _, _ => none
  | fuel + 1, file, st =>
      match fgets 256 file with
      | none => some (.ok st)
      | some (line, rest) =>
          match loadAddresses.round sha256d memory line st with
          | none => none
          | some (.error addresses) => some (.error addresses)
          | some (.ok st) => loadAddresses.loop sha256d memory fuel rest st

/-- What it returns, and `coinbase_addresses` afterwards. A file that cannot be
opened is `none`. -/
def loadAddressesFromFile (sha256d : Bytes → Hash) (memory : Memory) (file : Option Bytes)
    (coinbaseAddresses : List Bytes) : Option (Int × List Bytes) :=
  match file with
  | none => some (-1, coinbaseAddresses)
  | some file =>
      -- addresses that were loaded before are freed
      match loadAddresses.loop sha256d memory (file.length + 1) file ⟨[], 0, 0⟩ with
      | none => none
      | some (.error addresses) => some (-2, addresses)
      | some (.ok st) => some (st.validAddresses, st.coinbaseAddresses)

end AlphaMiner
