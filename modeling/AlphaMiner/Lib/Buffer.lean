import AlphaMiner.Lib.Endian
import Mathlib.Data.List.OfFn

/-!
# Writing into a buffer

A buffer is the list of its bytes. `store` is what a write, a `memcpy` or an
encoder aimed at an offset does to it: the bytes before and after keep their
places. It is total, so that a loop of writes is a fold, and it says nothing
about a write past the end; `store?` is the form that refuses one, for code
whose bounds are in question.

The lemma that carries the serialisation arguments is `foldl_store_flatMap`:
a loop that writes one chunk of fixed width after the other leaves exactly
the concatenation of the chunks, and after it whatever the buffer held there
before.
-/

namespace AlphaMiner.Lib

/-- Overwrites the bytes of `buf` from offset `off` on with `bs`. -/
def store (buf : Bytes) (off : Nat) (bs : Bytes) : Bytes :=
  buf.take off ++ bs ++ buf.drop (off + bs.length)

/-- The checked write: nothing, when it would leave the buffer. -/
def store? (buf : Bytes) (off : Nat) (bs : Bytes) : Option Bytes :=
  if off + bs.length ≤ buf.length then some (store buf off bs) else none

/-- The `n` bytes of `buf` at offset `off`. -/
def slice (buf : Bytes) (off n : Nat) : Bytes := (buf.drop off).take n

/-- The checked read: nothing, when it would leave the buffer. -/
def slice? (buf : Bytes) (off n : Nat) : Option Bytes :=
  if off + n ≤ buf.length then some (slice buf off n) else none

theorem length_store {buf bs : Bytes} {off : Nat} (h : off + bs.length ≤ buf.length) :
    (store buf off bs).length = buf.length := by
  simp [store]
  omega

/-- A write replaces the part that starts where it is aimed. -/
theorem store_middle {a b b' c : Bytes} {off : Nat} (ha : a.length = off)
    (hb : b'.length = b.length) : store (a ++ b ++ c) off b' = a ++ b' ++ c := by
  subst ha
  simp [store, hb, List.drop_append]

/-- A second write to the same place hides the first. -/
theorem store_store {buf x y : Bytes} {off : Nat} (hx : off + x.length ≤ buf.length)
    (hxy : y.length = x.length) : store (store buf off x) off y = store buf off y := by
  have ha : (buf.take off).length = off := by
    rw [List.length_take]
    omega
  rw [show store buf off x = buf.take off ++ x ++ buf.drop (off + x.length) from rfl,
    store_middle ha hxy, store, hxy]

/-- A write behind another one continues it. -/
theorem store_append {buf x y : Bytes} {off off' : Nat} (hoff : off' = off + x.length)
    (h : off + x.length ≤ buf.length) :
    store (store buf off x) off' y = store buf off (x ++ y) := by
  have ha : (buf.take off ++ x).length = off' := by
    rw [List.length_append, List.length_take]
    omega
  have htake : (store buf off x).take off' = buf.take off ++ x := by
    rw [store, List.take_left' ha]
  have hdrop : (store buf off x).drop (off' + y.length) = buf.drop (off + (x ++ y).length) := by
    rw [store, ← List.drop_drop, List.drop_left' ha, List.drop_drop, List.length_append,
      Nat.add_assoc]
  rw [store, htake, hdrop, store, List.append_assoc _ x y]

theorem slice_store {buf bs : Bytes} {off : Nat} (h : off + bs.length ≤ buf.length) :
    slice (store buf off bs) off bs.length = bs := by
  have ha : (buf.take off).length = off := by
    rw [List.length_take]
    omega
  rw [slice, store, List.append_assoc, List.drop_append, ha, List.drop_take]
  simp

/-- A part of what was written. -/
theorem slice_store_inside {buf bs : Bytes} {off d n : Nat} (h : off ≤ buf.length)
    (hd : d + n ≤ bs.length) : slice (store buf off bs) (off + d) n = slice bs d n := by
  have ha : (buf.take off).length = off := by
    rw [List.length_take]
    omega
  rw [slice, slice, store, List.append_assoc, ← List.drop_drop, List.drop_left' ha,
    List.drop_append_of_le_length (by omega),
    List.take_append_of_le_length (by rw [List.length_drop]; omega)]

/-- A write leaves what lies in front of it. -/
theorem slice_store_before {buf bs : Bytes} {off off' n : Nat} (hn : off' + n ≤ off)
    (hoff : off ≤ buf.length) : slice (store buf off bs) off' n = slice buf off' n := by
  have ha : (buf.take off).length = off := by
    rw [List.length_take]
    omega
  have htake : (store buf off bs).take off = buf.take off := by
    rw [store, List.append_assoc, List.take_left' ha]
  have hcut : ∀ b : Bytes, slice b off' n = slice (b.take off) off' n := by
    intro b
    rw [slice, slice, List.drop_take, List.take_take, Nat.min_eq_left (by omega)]
  rw [hcut, htake, ← hcut]

/-- A write leaves what lies behind it. -/
theorem slice_store_after {buf bs : Bytes} {off off' n : Nat} (h : off + bs.length ≤ buf.length)
    (hn : off + bs.length ≤ off') : slice (store buf off bs) off' n = slice buf off' n := by
  have ha : (buf.take off ++ bs).length = off + bs.length := by
    rw [List.length_append, List.length_take]
    omega
  obtain ⟨k, rfl⟩ : ∃ k, off' = off + bs.length + k := ⟨off' - (off + bs.length), by omega⟩
  rw [slice, slice, store, ← List.drop_drop, List.drop_left' ha, List.drop_drop]

/-- The front of a buffer has what lies in it. -/
theorem slice_take {buf : Bytes} {off n m : Nat} (h : off + n ≤ m) :
    slice (buf.take m) off n = slice buf off n := by
  rw [slice, slice, List.drop_take, List.take_take, Nat.min_eq_left (by omega)]

theorem length_slice {buf : Bytes} {off n : Nat} (h : off + n ≤ buf.length) :
    (slice buf off n).length = n := by
  rw [slice, List.length_take, List.length_drop]
  omega

theorem slice_slice {buf : Bytes} {a n b m : Nat} (h : b + m ≤ n) :
    slice (slice buf a n) b m = slice buf (a + b) m := by
  rw [slice, slice, slice, List.drop_take, List.take_take, List.drop_drop,
    Nat.min_eq_left (by omega)]

theorem slice_add (buf : Bytes) (off a b : Nat) :
    slice buf off (a + b) = slice buf off a ++ slice buf (off + a) b := by
  rw [slice, slice, slice, List.take_add, List.drop_drop]

theorem length_flatMap_const {α : Type*} {w : Nat} {f : α → Bytes}
    (hf : ∀ a, (f a).length = w) (l : List α) :
    (l.flatMap f).length = w * l.length := by
  induction l with
  | nil => simp
  | cons a l ih =>
      rw [List.flatMap_cons, List.length_append, ih, hf, List.length_cons, Nat.mul_add]
      omega

/-- A loop that writes chunk after chunk leaves the chunks in order, and
behind them what the buffer held. -/
theorem foldl_store_flatMap {w k : Nat} (f : Fin k → Bytes)
    (hf : ∀ i, (f i).length = w) {buf : Bytes} (hbuf : w * k ≤ buf.length) :
    (List.finRange k).foldl (fun b (i : Fin k) => store b (w * i) (f i)) buf =
      (List.finRange k).flatMap f ++ buf.drop (w * k) := by
  induction k with
  | zero => simp
  | succ k ih =>
      rw [Nat.mul_add, Nat.mul_one] at hbuf
      have hlen : ((List.finRange k).flatMap fun i => f i.castSucc).length = w * k := by
        rw [length_flatMap_const (fun i : Fin k => hf i.castSucc), List.length_finRange]
      have ih' := ih (fun i => f i.castSucc) (fun i => hf _) (by omega)
      rw [List.finRange_succ_last, List.foldl_append, List.foldl_map]
      simp only [Fin.val_castSucc, List.foldl_cons, List.foldl_nil, Fin.val_last,
        List.flatMap_append, List.flatMap_map, List.flatMap_cons, List.flatMap_nil,
        List.append_nil]
      rw [ih']
      have hsplit : buf.drop (w * k) =
          (buf.drop (w * k)).take w ++ buf.drop (w * (k + 1)) := by
        rw [Nat.mul_add, Nat.mul_one, ← List.drop_drop, List.take_append_drop]
      rw [hsplit, ← List.append_assoc, store_middle hlen]
      rw [hf, List.length_take, List.length_drop]
      omega

/-! ## Word arrays in memory

An array of words and the bytes it occupies, for a host of either order.
Nothing is lost in either direction, so a function may be handed the one view
or the other. -/

/-- The bytes of an array of words. -/
def ByteOrder.bytes {n : Nat} (o : ByteOrder) (v : Vector UInt32 n) : Bytes :=
  (List.finRange n).flatMap fun i => o.enc v[i]

/-- The first `n` words of a buffer. -/
def ByteOrder.words (o : ByteOrder) (n : Nat) (b : Bytes) : Vector UInt32 n :=
  Vector.ofFn fun i => o.dec (slice b (4 * i) 4)

@[simp] theorem ByteOrder.length_bytes {n : Nat} (o : ByteOrder) (v : Vector UInt32 n) :
    (o.bytes v).length = 4 * n := by
  rw [bytes, length_flatMap_const (fun i => o.length_enc v[i]), List.length_finRange]

theorem ByteOrder.bytes_eq_flatMap {n : Nat} (o : ByteOrder) (v : Vector UInt32 n) :
    o.bytes v = v.toList.flatMap o.enc := by
  have hv : v.toList = (List.finRange n).map fun i => v[i] := by
    apply List.ext_getElem
    · simp
    · intro i h₁ h₂
      simp
  rw [hv, List.flatMap_map, bytes]

/-- A chunk of a concatenation of chunks of one width. -/
theorem slice_flatMap {w n : Nat} (f : Fin n → Bytes) (hf : ∀ i, (f i).length = w)
    (i : Fin n) : slice ((List.finRange n).flatMap f) (w * i) w = f i := by
  induction n with
  | zero => exact i.elim0
  | succ n ih =>
      rw [List.finRange_succ, List.flatMap_cons, List.flatMap_map]
      refine Fin.cases ?_ (fun j => ?_) i
      · simp [slice, hf]
      · rw [slice, Fin.val_succ, Nat.mul_add, Nat.mul_one, Nat.add_comm,
          ← List.drop_drop, List.drop_left' (hf 0)]
        exact ih (fun j => f j.succ) (fun j => hf _) j

/-- A buffer is the concatenation of its chunks. -/
theorem flatMap_slice {w n : Nat} {b : Bytes} (hb : b.length = w * n) :
    ((List.finRange n).flatMap fun i : Fin n => slice b (w * i.val) w) = b := by
  induction n generalizing b with
  | zero =>
      rw [List.length_eq_zero_iff.mp hb]
      rfl
  | succ n ih =>
      have htail : (b.drop w).length = w * n := by
        rw [List.length_drop, hb, Nat.mul_add, Nat.mul_one]
        omega
      have hshift : ∀ j : Fin n, slice b (w * j.succ.val) w = slice (b.drop w) (w * j.val) w := by
        intro j
        rw [slice, slice, List.drop_drop, Fin.val_succ, Nat.mul_add, Nat.mul_one, Nat.add_comm]
      rw [List.finRange_succ, List.flatMap_cons, List.flatMap_map, funext hshift,
        ih htail, slice]
      simp [List.take_append_drop]

theorem length_chunk {w n : Nat} {b : Bytes} (hb : b.length = w * n) {i : Nat} (hi : i < n) :
    (slice b (w * i) w).length = w := by
  have hle := Nat.mul_le_mul_left w (Nat.succ_le_of_lt hi)
  rw [Nat.mul_succ] at hle
  rw [slice, List.length_take, List.length_drop, hb]
  omega

/-- The chunks reversed one by one and taken from the last to the first. -/
theorem flatMap_slice_reverse {w n : Nat} {b : Bytes} (hb : b.length = w * n) :
    ((List.finRange n).flatMap fun i : Fin n => (slice b (w * (n - 1 - i.val)) w).reverse) =
      b.reverse := by
  have hrev : (List.finRange n).reverse = (List.finRange n).map Fin.rev :=
    List.finRange_reverse
  conv_rhs => rw [← flatMap_slice hb]
  rw [List.reverse_flatMap, hrev, List.flatMap_map]
  congr 1
  funext i
  rw [Function.comp_apply, Fin.val_rev, show n - (i.val + 1) = n - 1 - i.val by omega]

theorem flatMap_be32enc_be32dec {n : Nat} {b : Bytes} (hb : b.length = 4 * n) :
    ((List.finRange n).map fun j : Fin n => be32dec (slice b (4 * j.val) 4)).flatMap be32enc =
      b := by
  have hchunk : ∀ j : Fin n, be32enc (be32dec (slice b (4 * j.val) 4)) = slice b (4 * j.val) 4 :=
    fun j => be32enc_be32dec (length_chunk hb j.isLt)
  rw [List.flatMap_map, funext hchunk, flatMap_slice hb]

theorem ByteOrder.slice_bytes {n : Nat} (o : ByteOrder) (v : Vector UInt32 n) {i : Nat}
    (hi : i < n) : slice (o.bytes v) (4 * i) 4 = o.enc v[i] :=
  slice_flatMap (fun j => o.enc v[j]) (fun _ => o.length_enc _) ⟨i, hi⟩

theorem ByteOrder.bytes_words {n : Nat} (o : ByteOrder) {b : Bytes}
    (hb : b.length = 4 * n) : o.bytes (o.words n b) = b := by
  have hchunk : ∀ i : Fin n, o.enc (o.words n b)[i] = slice b (4 * i) 4 := by
    intro i
    rw [words, Fin.getElem_fin, Vector.getElem_ofFn, enc_dec _ (length_chunk hb i.isLt)]
  rw [bytes, funext hchunk, flatMap_slice hb]

end AlphaMiner.Lib
