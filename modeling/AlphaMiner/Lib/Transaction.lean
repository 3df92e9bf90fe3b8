import AlphaMiner.Lib.Endian
import Mathlib.Data.Nat.Digits.Lemmas

/-!
# Transactions in the legacy format

A format is given by its reader, which takes what it reads off the front of a
byte string. `Reads p bs a` says that `p` gets `a` out of `bs` wherever `bs`
stands, so that readers put together read bytes put together (`Reads.bind`), and
a writer is right if its bytes are read as what they were written for.

Counts are written in one byte or behind a marker. The last section is the push
with which a block's first input script has to begin, a number in the fewest
bytes that still show its sign.
-/

namespace AlphaMiner.Lib

/-! ## Readers -/

abbrev Reader (α : Type) := StateT Bytes Option α

/-- Wherever these bytes stand, they are read as this value. -/
def Reader.Reads {α : Type} (p : Reader α) (bs : Bytes) (a : α) : Prop :=
  ∀ rest, p (bs ++ rest) = some (a, rest)

section

variable {α β : Type}

theorem Reader.Reads.pure (a : α) : Reader.Reads (pure a) [] a := fun _ => rfl

theorem Reader.Reads.bind {p : Reader α} {f : α → Reader β} {bs cs : Bytes} {a : α} {b : β}
    (hp : p.Reads bs a) (hf : (f a).Reads cs b) : (p >>= f).Reads (bs ++ cs) b := by
  intro rest
  show (p (bs ++ cs ++ rest)).bind (fun r => f r.1 r.2) = some (b, rest)
  rw [List.append_assoc, hp, Option.bind_some]
  exact hf rest

/-- A part in front that the bytes of the rest do not depend on. -/
theorem Reader.Reads.map {p : Reader α} {bs : Bytes} {a : α} (hp : p.Reads bs a) (f : α → β) :
    Reader.Reads (p >>= fun a => Pure.pure (f a)) bs (f a) := by
  have h := hp.bind (f := fun a => Pure.pure (f a)) (Reader.Reads.pure (f a))
  rwa [List.append_nil] at h

/-- All of the bytes and nothing behind them. -/
def Reader.all (p : Reader α) (bs : Bytes) : Option α :=
  match p bs with
  | some (a, []) => some a
  | _ => none

theorem Reader.Reads.all {p : Reader α} {bs : Bytes} {a : α} (h : p.Reads bs a) :
    p.all bs = some a := by
  have hend := h []
  rw [List.append_nil] at hend
  rw [Reader.all, hend]

def Reader.times (p : Reader α) : Nat → Reader (List α)
  | 0 => Pure.pure []
  | n + 1 => do
      let a ← p
      let as ← p.times n
      Pure.pure (a :: as)

theorem Reader.Reads.times {p : Reader α} {write : α → Bytes} {l : List α}
    (h : ∀ a ∈ l, p.Reads (write a) a) : (p.times l.length).Reads (l.flatMap write) l := by
  induction l with
  | nil => exact Reader.Reads.pure []
  | cons a l ih =>
      have hrest := ih fun b hb => h b (List.mem_cons_of_mem a hb)
      exact (h a List.mem_cons_self).bind (hrest.map (a :: ·))

end

/-! ## Numbers and counts -/

/-- The low bytes of a number, lowest first. -/
def leBytes : Nat → Nat → Bytes
  | 0, _ => []
  | w + 1, n => UInt8.ofNat n :: leBytes w (n / 256)

@[simp] theorem length_leBytes (w n : Nat) : (leBytes w n).length = w := by
  induction w generalizing n with
  | zero => rfl
  | succ w ih => rw [leBytes, List.length_cons, ih]

theorem leValue_leBytes {w n : Nat} (h : n < 256 ^ w) : leValue (leBytes w n) = n := by
  induction w generalizing n with
  | zero =>
      obtain rfl : n = 0 := by omega
      rfl
  | succ w ih =>
      have hrest : n / 256 < 256 ^ w := by
        rw [Nat.pow_succ] at h
        omega
      rw [leBytes, leValue, List.map_cons, Nat.ofDigits_cons, UInt8.toNat_ofNat']
      have ih := ih hrest
      rw [leValue] at ih
      rw [ih]
      omega

theorem le32enc_eq_leBytes (x : UInt32) : le32enc x = leBytes 4 x.toNat := by
  simp only [le32enc, leBytes, List.cons.injEq, and_true]
  refine ⟨?_, ?_, ?_, ?_⟩
  all_goals
    apply UInt8.toNat_inj.mp
    simp [Nat.shiftRight_eq_div_pow]
    try omega

theorem leBytes_eq_map (w n : Nat) :
    leBytes w n = (List.range w).map fun i => UInt8.ofNat (n / 256 ^ i) := by
  induction w generalizing n with
  | zero => rfl
  | succ w ih =>
      rw [leBytes, ih, List.range_succ_eq_map, List.map_cons, List.map_map, Nat.pow_zero,
        Nat.div_one]
      refine congrArg _ (List.map_congr_left fun i _ => ?_)
      rw [Function.comp_apply, Nat.pow_succ', Nat.div_div_eq_div_mul]

theorem leBytes_mod (w n : Nat) : leBytes w (n % 256 ^ w) = leBytes w n := by
  induction w generalizing n with
  | zero => rfl
  | succ w ih =>
      have hbyte : UInt8.ofNat (n % 256 ^ (w + 1)) = UInt8.ofNat n := by
        apply UInt8.toNat_inj.mp
        rw [UInt8.toNat_ofNat', UInt8.toNat_ofNat', Nat.pow_succ]
        exact Nat.mod_mod_of_dvd n (Nat.dvd_mul_left 256 _)
      rw [leBytes, leBytes, hbyte, Nat.pow_succ, Nat.mod_mul_left_div_self, ih]

theorem leBytes_add (v w n : Nat) : leBytes (v + w) n = leBytes v n ++ leBytes w (n / 256 ^ v) := by
  induction v generalizing n with
  | zero => rw [Nat.zero_add, Nat.pow_zero, Nat.div_one, leBytes, List.nil_append]
  | succ v ih =>
      rw [Nat.succ_add, leBytes, leBytes, ih, Nat.div_div_eq_div_mul, Nat.pow_succ',
        List.cons_append]

theorem leBytes_leValue (p : Bytes) : leBytes p.length (leValue p) = p := by
  induction p with
  | nil => rfl
  | cons b p ih =>
      have hb := b.toNat_lt
      have hbyte : UInt8.ofNat (b.toNat + 256 * leValue p) = b := by
        apply UInt8.toNat_inj.mp
        rw [UInt8.toNat_ofNat']
        omega
      rw [List.length_cons, leBytes, leValue_cons, hbyte,
        show (b.toNat + 256 * leValue p) / 256 = leValue p by omega, ih]

namespace Reader

def bytes (n : Nat) : Reader Bytes := fun bs =>
  if n ≤ bs.length then some (bs.take n, bs.drop n) else none

theorem reads_bytes (bs : Bytes) : (bytes bs.length).Reads bs bs := by
  intro rest
  rw [bytes, if_pos (by rw [List.length_append]; omega), List.take_left, List.drop_left]

def number (w : Nat) : Reader Nat := do
  let bs ← bytes w
  return leValue bs

theorem reads_number {w n : Nat} (h : n < 256 ^ w) : (number w).Reads (leBytes w n) n := by
  have hread := (reads_bytes (leBytes w n)).map leValue
  rwa [length_leBytes, leValue_leBytes h] at hread

/-- A count is a byte, or a marker and the number. -/
def count : Reader Nat := do
  let first ← number 1
  if first = 0xfd then number 2
  else if first = 0xfe then number 4
  else if first = 0xff then number 8
  else return first

end Reader

def compactSize (n : Nat) : Bytes :=
  if n < 0xfd then leBytes 1 n
  else if n ≤ 0xffff then leBytes 1 0xfd ++ leBytes 2 n
  else if n ≤ 0xffffffff then leBytes 1 0xfe ++ leBytes 4 n
  else leBytes 1 0xff ++ leBytes 8 n

theorem reads_count {n : Nat} (h : n < 2 ^ 64) : Reader.count.Reads (compactSize n) n := by
  have hmarker : ∀ {m w : Nat}, m < 256 → n < 256 ^ w →
      (if m = 0xfd then Reader.number 2 else if m = 0xfe then Reader.number 4
        else if m = 0xff then Reader.number 8 else pure m) = Reader.number w →
      Reader.count.Reads (leBytes 1 m ++ leBytes w n) n := by
    intro m w hm hn hsecond
    refine (Reader.reads_number (w := 1) (by omega)).bind ?_
    rw [hsecond]
    exact Reader.reads_number hn
  rw [compactSize]
  split
  · next hsmall =>
      have hsecond : (if n = 0xfd then Reader.number 2 else if n = 0xfe then Reader.number 4
          else if n = 0xff then Reader.number 8 else pure n).Reads [] n := by
        rw [if_neg (by omega), if_neg (by omega), if_neg (by omega)]
        exact Reader.Reads.pure n
      have hread := (Reader.reads_number (w := 1) (n := n) (by omega)).bind
        (f := fun first => if first = 0xfd then Reader.number 2
          else if first = 0xfe then Reader.number 4
          else if first = 0xff then Reader.number 8 else pure first) hsecond
      rwa [List.append_nil] at hread
  · split
    · exact hmarker (by omega) (by omega) rfl
    · split
      · exact hmarker (by omega) (by omega) rfl
      · exact hmarker (by omega) (by omega) rfl

/-! ## Counts in their shortest form -/

theorem Reader.number_eq {w n : Nat} {bs rest : Bytes} (h : number w bs = some (n, rest)) :
    n < 256 ^ w ∧ bs = leBytes w n ++ rest := by
  change (if w ≤ bs.length then some (bs.take w, bs.drop w) else none).bind
    (fun r => some (leValue r.1, r.2)) = some (n, rest) at h
  split at h
  · next hw =>
      have hlen : (bs.take w).length = w := by
        rw [List.length_take]
        omega
      cases h
      have hlt := leValue_lt (bs.take w)
      have hbytes := leBytes_leValue (bs.take w)
      rw [hlen] at hlt hbytes
      exact ⟨hlt, by rw [hbytes, List.take_append_drop]⟩
  · cases h

/-- A number that is too large for a shorter form. -/
def Reader.atLeast (w low : Nat) : Reader Nat := do
  let n ← number w
  if low ≤ n then return n else failure

/-- A count that is refused unless it is in its shortest form. -/
def Reader.minimalCount : Reader Nat := do
  let first ← number 1
  if first = 0xfd then atLeast 2 0xfd
  else if first = 0xfe then atLeast 4 0x10000
  else if first = 0xff then atLeast 8 0x100000000
  else return first

theorem Reader.reads_atLeast {w low n : Nat} (hlow : low ≤ n) (h : n < 256 ^ w) :
    (atLeast w low).Reads (leBytes w n) n := by
  have hrest : Reads (if low ≤ n then pure n else failure) [] n := by
    rw [if_pos hlow]
    exact Reads.pure n
  have hread := (reads_number h).bind (f := fun n => if low ≤ n then pure n else failure) hrest
  rwa [List.append_nil] at hread

theorem length_compactSize (n : Nat) : (compactSize n).length =
    if n < 0xfd then 1 else if n ≤ 0xffff then 3 else if n ≤ 0xffffffff then 5 else 9 := by
  rw [compactSize]
  repeat' split
  all_goals simp only [List.length_append, length_leBytes]

theorem reads_minimalCount {n : Nat} (h : n < 2 ^ 64) :
    Reader.minimalCount.Reads (compactSize n) n := by
  have hfirst : ∀ {m : Nat} {bs : Bytes}, m < 256 →
      Reader.Reads (if m = 0xfd then Reader.atLeast 2 0xfd
        else if m = 0xfe then Reader.atLeast 4 0x10000
        else if m = 0xff then Reader.atLeast 8 0x100000000 else pure m) bs n →
      Reader.minimalCount.Reads (leBytes 1 m ++ bs) n := fun hm hrest =>
    (Reader.reads_number (w := 1) (by omega)).bind hrest
  rw [compactSize]
  split
  · have hrest : Reader.Reads (if n = 0xfd then Reader.atLeast 2 0xfd
        else if n = 0xfe then Reader.atLeast 4 0x10000
        else if n = 0xff then Reader.atLeast 8 0x100000000 else pure n) [] n := by
      rw [if_neg (by omega), if_neg (by omega), if_neg (by omega)]
      exact Reader.Reads.pure n
    have hread := hfirst (by omega) hrest
    rwa [List.append_nil] at hread
  · split
    · exact hfirst (by omega) (Reader.reads_atLeast (by omega) (by omega))
    · split
      · exact hfirst (by omega) (Reader.reads_atLeast (by omega) (by omega))
      · exact hfirst (by omega) (Reader.reads_atLeast (by omega) (by omega))

theorem Reader.atLeast_eq {w low n : Nat} {bs rest : Bytes}
    (h : atLeast w low bs = some (n, rest)) :
    low ≤ n ∧ n < 256 ^ w ∧ bs = leBytes w n ++ rest := by
  change (number w bs).bind (fun r => (if low ≤ r.1 then pure r.1 else failure : Reader Nat) r.2) =
    some (n, rest) at h
  obtain ⟨⟨m, rest'⟩, hnumber, h⟩ := Option.bind_eq_some_iff.mp h
  simp only at h
  split at h
  · cases h
    exact ⟨‹_›, number_eq hnumber⟩
  · cases h

/-- Nothing else is taken for a count. -/
theorem eq_compactSize {n : Nat} {bs rest : Bytes}
    (h : Reader.minimalCount bs = some (n, rest)) : n < 2 ^ 64 ∧ bs = compactSize n ++ rest := by
  change (Reader.number 1 bs).bind (fun r => (if r.1 = 0xfd then Reader.atLeast 2 0xfd
    else if r.1 = 0xfe then Reader.atLeast 4 0x10000
    else if r.1 = 0xff then Reader.atLeast 8 0x100000000 else pure r.1 : Reader Nat) r.2) =
      some (n, rest) at h
  rw [Option.bind_eq_some_iff] at h
  obtain ⟨⟨m, rest'⟩, hfirst, h⟩ := h
  obtain ⟨hm, rfl⟩ := Reader.number_eq hfirst
  simp only at h
  rw [compactSize]
  split at h
  · obtain ⟨hlow, hn, rfl⟩ := Reader.atLeast_eq h
    subst m
    rw [if_neg (by omega), if_pos (by omega), List.append_assoc]
    exact ⟨by omega, rfl⟩
  · split at h
    · obtain ⟨hlow, hn, rfl⟩ := Reader.atLeast_eq h
      subst m
      rw [if_neg (by omega), if_neg (by omega), if_pos (by omega), List.append_assoc]
      exact ⟨by omega, rfl⟩
    · split at h
      · obtain ⟨hlow, hn, rfl⟩ := Reader.atLeast_eq h
        subst m
        rw [if_neg (by omega), if_neg (by omega), if_neg (by omega), List.append_assoc]
        exact ⟨by omega, rfl⟩
      · cases h
        rw [if_pos (by omega)]
        exact ⟨by omega, rfl⟩

/-! ## Transactions -/

structure TxIn where
  prevHash : Bytes
  prevIndex : Nat
  scriptSig : Bytes
  sequence : Nat

structure TxOut where
  value : Nat
  script : Bytes

structure Tx where
  version : Nat
  ins : List TxIn
  outs : List TxOut
  lockTime : Nat

def varBytes (bs : Bytes) : Bytes := compactSize bs.length ++ bs

def TxIn.bytes (i : TxIn) : Bytes :=
  i.prevHash ++ (leBytes 4 i.prevIndex ++ (varBytes i.scriptSig ++ leBytes 4 i.sequence))

def TxOut.bytes (o : TxOut) : Bytes := leBytes 8 o.value ++ varBytes o.script

def Tx.bytes (tx : Tx) : Bytes :=
  leBytes 4 tx.version ++ (compactSize tx.ins.length ++ (tx.ins.flatMap TxIn.bytes ++
    (compactSize tx.outs.length ++ (tx.outs.flatMap TxOut.bytes ++ leBytes 4 tx.lockTime))))

namespace Reader

def varBytes : Reader Bytes := do
  let n ← count
  bytes n

def txIn : Reader TxIn := do
  let prevHash ← bytes 32
  let prevIndex ← number 4
  let scriptSig ← varBytes
  let sequence ← number 4
  return { prevHash, prevIndex, scriptSig, sequence }

def txOut : Reader TxOut := do
  let value ← number 8
  let script ← varBytes
  return { value, script }

def tx : Reader Tx := do
  let version ← number 4
  let ins ← txIn.times (← count)
  let outs ← txOut.times (← count)
  let lockTime ← number 4
  return { version, ins, outs, lockTime }

end Reader

/-- The transaction that a byte string is, in full. -/
def decodeTx (bs : Bytes) : Option Tx := Reader.tx.all bs

/-! Every field has its width. -/

structure TxIn.Sized (i : TxIn) : Prop where
  prevHash : i.prevHash.length = 32
  prevIndex : i.prevIndex < 2 ^ 32
  scriptSig : i.scriptSig.length < 2 ^ 64
  sequence : i.sequence < 2 ^ 32

structure TxOut.Sized (o : TxOut) : Prop where
  value : o.value < 2 ^ 64
  script : o.script.length < 2 ^ 64

structure Tx.Sized (tx : Tx) : Prop where
  version : tx.version < 2 ^ 32
  insLength : tx.ins.length < 2 ^ 64
  ins : ∀ i ∈ tx.ins, i.Sized
  outsLength : tx.outs.length < 2 ^ 64
  outs : ∀ o ∈ tx.outs, o.Sized
  lockTime : tx.lockTime < 2 ^ 32

theorem reads_varBytes {bs : Bytes} (h : bs.length < 2 ^ 64) :
    Reader.varBytes.Reads (varBytes bs) bs :=
  (reads_count h).bind (Reader.reads_bytes bs)

theorem reads_txIn {i : TxIn} (h : i.Sized) : Reader.txIn.Reads i.bytes i := by
  have hprevHash := Reader.reads_bytes i.prevHash
  rw [h.prevHash] at hprevHash
  exact hprevHash.bind ((Reader.reads_number h.prevIndex).bind
    ((reads_varBytes h.scriptSig).bind ((Reader.reads_number h.sequence).map _)))

theorem reads_txOut {o : TxOut} (h : o.Sized) : Reader.txOut.Reads o.bytes o :=
  (Reader.reads_number h.value).bind ((reads_varBytes h.script).map _)

/-- What is written is read again. -/
theorem decodeTx_bytes {tx : Tx} (h : tx.Sized) : decodeTx tx.bytes = some tx := by
  refine Reader.Reads.all ?_
  exact (Reader.reads_number h.version).bind ((reads_count h.insLength).bind
    ((Reader.Reads.times fun i hi => reads_txIn (h.ins i hi)).bind
      ((reads_count h.outsLength).bind
        ((Reader.Reads.times fun o ho => reads_txOut (h.outs o ho)).bind
          ((Reader.reads_number h.lockTime).map _)))))

/-! ## Heights -/

/-- A number that is not negative, in the fewest bytes whose last has its sign bit
clear. -/
def scriptNum (n : Nat) : Bytes :=
  let bs := (Nat.digits 256 n).map UInt8.ofNat
  if 0x80 ≤ bs.getLastD 0 then bs ++ [0] else bs

/-- The height of a block as its coinbase has to give it. -/
def heightPush (height : Nat) : Bytes :=
  if height ≤ 16 then [UInt8.ofNat (height + 0x50)]
  else UInt8.ofNat (scriptNum height).length :: scriptNum height

theorem scriptNum_small {n : Nat} (hpos : 0 < n) (h : n < 256) :
    scriptNum n = if 0x80 ≤ n then [UInt8.ofNat n, 0] else [UInt8.ofNat n] := by
  have hsign : (0x80 : UInt8) ≤ UInt8.ofNat n ↔ 0x80 ≤ n := by
    rw [UInt8.le_iff_toNat_le, UInt8.toNat_ofNat_of_lt' h]
    rfl
  simp only [scriptNum, Nat.digits_of_lt 256 n (by omega) h, List.map_cons, List.map_nil,
    List.getLastD_cons, List.getLastD_nil, List.singleton_append, hsign]

theorem scriptNum_large {n : Nat} (h : 256 ≤ n) :
    scriptNum n = UInt8.ofNat (n % 256) :: scriptNum (n / 256) := by
  have hne : (Nat.digits 256 (n / 256)).map UInt8.ofNat ≠ [] := by
    rw [Ne, List.map_eq_nil_iff, Nat.digits_eq_nil_iff_eq_zero]
    omega
  simp only [scriptNum, Nat.digits_def' (b := 256) (by omega) (show 0 < n by omega), List.map_cons]
  generalize (Nat.digits 256 (n / 256)).map UInt8.ofNat = bs at hne ⊢
  cases bs with
  | nil => exact absurd rfl hne
  | cons b bs =>
      rw [List.getLastD_cons, List.getLastD_cons, List.getLastD_cons]
      split
      · rfl
      · rfl

/-- A byte more than base 256 needs. -/
theorem length_scriptNum {n k : Nat} (h : n < 256 ^ k) : (scriptNum n).length ≤ k + 1 := by
  have hdigits : (Nat.digits 256 n).length ≤ k := (Nat.digits_length_le_iff (by omega) n).2 h
  rw [scriptNum]
  split
  · rw [List.length_append, List.length_map, List.length_singleton]
    omega
  · rw [List.length_map]
    omega

end AlphaMiner.Lib
