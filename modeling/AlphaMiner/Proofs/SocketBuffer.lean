import AlphaMiner.Model.SocketBuffer
import AlphaMiner.Proofs.RecvLine

/-!
# Room for the shift

When a line has been taken, `memmove` copies one byte more than the rest of the string
and its terminator, a byte that need not belong to anything. There is one, because
`stratum_buffer_append` grows the block as soon as the terminator would be its last byte
and then rounds up past the next multiple of `RBUFSIZE`: the string always ends two
bytes before the block (`SockBuf.Room`).
-/

namespace AlphaMiner

open Lib

/-- The block has its size and holds a string that ends early enough. -/
structure SockBuf.Room (b : SockBuf) (sockbuf : Bytes) : Prop where
  block : b.sockbuf = some sockbuf
  size : sockbuf.length = b.sockbufSize
  terminated : 0 ∈ sockbuf
  room : (cstr sockbuf).length + 2 ≤ b.sockbufSize

/-! ## Strings in a block -/

theorem str?_of_mem {m : Bytes} (h : 0 ∈ m) : str? m = some (cstr m) := if_pos h

/-- The string ends at the first zero byte. -/
theorem length_cstr_le {m : Bytes} {i : Nat} (h : m[i]? = some 0) : (cstr m).length ≤ i := by
  by_contra hlt
  have hi : i < (cstr m).length := Nat.not_le.mp hlt
  have hextends : cstr m <+: m := List.takeWhile_prefix _
  have hget : (cstr m)[i]? = some 0 := by
    obtain ⟨t, ht⟩ := hextends
    rw [← ht, List.getElem?_append_left hi] at h
    exact h
  exact zero_not_mem_cstr m (List.mem_of_getElem? hget)

theorem getElem?_length_cstr {m : Bytes} (h : 0 ∈ m) : m[(cstr m).length]? = some 0 := by
  obtain ⟨junk, hm⟩ := eq_cstr_append h
  generalize cstr m = s at hm
  rw [hm]
  simp

theorem length_cstr_store_nul (m : Bytes) (h : 0 < m.length) :
    cstr (store m 0 [0]) = [] ∧ (store m 0 [0]).length = m.length ∧ 0 ∈ store m 0 [0] := by
  refine ⟨by simp [store, cstr], length_store (by rw [List.length_singleton]; omega), mem_store 0 (by simp)⟩

/-! ## `strtok` -/

theorem length_strtok (m : Bytes) (d : UInt8) : (strtok m d).2.length = m.length := by
  unfold strtok
  simp only
  split
  · rfl
  · split
    · exact List.length_set
    · rfl

/-- A zero byte stays where it is. -/
theorem strtok_zero {m : Bytes} {i : Nat} (d : UInt8) (h : m[i]? = some 0) :
    (strtok m d).2[i]? = some 0 := by
  unfold strtok
  simp only
  split
  · exact h
  · split
    · rw [List.getElem?_set]
      split
      · next heq =>
          obtain ⟨hi, -⟩ := List.getElem?_eq_some_iff.mp h
          rw [if_pos (by omega)]
      · exact h
    · exact h

theorem strtok_lt {m : Bytes} {d : UInt8} {tok : Nat} (h : (strtok m d).1 = some tok) :
    tok < (cstr m).length := by
  unfold strtok at h
  simp only at h
  split at h
  · cases h
  · next hne =>
      obtain rfl := Option.some.inj h
      have hcut := congrArg List.length (lead_word_tail d (cstr m))
      simp only [List.length_append, List.length_replicate] at hcut
      omega

/-! ## What each function keeps -/

/-- The empty string in a block of two bytes at least. -/
theorem emptied_room {m : Bytes} (h : 2 ≤ m.length) :
    store? m 0 [0] = some (store m 0 [0]) ∧
      SockBuf.Room ⟨some (store m 0 [0]), m.length⟩ (store m 0 [0]) := by
  obtain ⟨hempty, hlen, hmem⟩ := length_cstr_store_nul m (by omega)
  refine ⟨?_, rfl, hlen, hmem, ?_⟩
  · rw [store?, if_pos (by rw [List.length_singleton]; omega)]
  · rw [hempty]
    exact h

theorem SockBuf.connect_room {b : SockBuf} (h : b.sockbuf = none ∨ ∃ m, b.Room m) :
    ∃ b' m, b.connect = some b' ∧ b'.Room m := by
  rcases h with hnone | ⟨m, hroom⟩
  · obtain ⟨hrun, hroom⟩ := @emptied_room (.replicate rbufsize 0) (by
      rw [List.length_replicate]
      decide)
    rw [List.length_replicate] at hroom
    exact ⟨_, _, by rw [connect, hnone]; simp only [hrun]; rfl, hroom⟩
  · have htwo : 2 ≤ m.length :=
      hroom.size ▸ Nat.le_trans (Nat.le_add_left 2 _) hroom.room
    obtain ⟨hrun, hroom'⟩ := emptied_room htwo
    rw [hroom.size] at hroom'
    exact ⟨_, _, by rw [connect, hroom.block]; simp only [hrun]; rfl, hroom'⟩

/-- The growth test is the one that keeps the slack. -/
theorem SockBuf.append_room {b : SockBuf} {m : Bytes} (h : b.Room m) (heap : Nat → UInt8)
    {s : Bytes} (hs : 0 ∉ s) :
    ∃ b', b.append heap s = some b' ∧ b'.Room (stratumBufferAppend heap m s) := by
  obtain ⟨hblock, hsize, hmem, hroom⟩ := h
  obtain ⟨hcstr, hmem'⟩ := @cstr_bufferAppend heap m s hmem hs
  have hlen := congrArg List.length hcstr
  rw [List.length_append] at hlen
  rw [stratumBufferAppend] at hcstr hmem' hlen ⊢
  simp only [SockBuf.append, hblock, str?_of_mem hmem, Option.bind_eq_bind, Option.bind_some]
  rw [← hsize] at hroom ⊢
  by_cases hgrow : (cstr m).length + s.length + 1 ≥ m.length
  · simp only [if_pos hgrow] at hcstr hmem' hlen ⊢
    have hmod := Nat.mod_lt ((cstr m).length + s.length + 1) (show rbufsize > 0 by decide)
    have hgrown := length_realloc heap m ((cstr m).length + s.length + 1 +
      (rbufsize - ((cstr m).length + s.length + 1) % rbufsize))
    generalize realloc heap m _ = grown at *
    refine ⟨_, by rw [store?, if_pos (by simp; omega)]; rfl, rfl, ?_, hmem', ?_⟩
    · rw [length_store (by simp; omega)]
      exact hgrown
    · simp only
      omega
  · simp only [if_neg hgrow] at hcstr hmem' hlen ⊢
    refine ⟨_, by rw [store?, if_pos (by simp; omega)]; rfl, rfl, ?_, hmem', ?_⟩
    · rw [length_store (by simp; omega)]
    · simp only
      omega

theorem getElem?_shift {m : Bytes} {a n i : Nat} (h : i < n) (hfits : a + n ≤ m.length) :
    (store m 0 (slice m a n))[i]? = m[a + i]? := by
  have hlen := length_slice hfits
  rw [store, List.take_zero, List.nil_append, List.getElem?_append_left (by omega), slice,
    List.getElem?_take_of_lt h, List.getElem?_drop]

/-- What is taken off the front shortens the string, and the last byte of the shift is
still one of the block's. -/
theorem SockBuf.takeLine_room {b : SockBuf} {m : Bytes} (h : b.Room m) :
    ∃ b', b.takeLine = some ((AlphaMiner.takeLine m).1, b') ∧
      b'.Room (AlphaMiner.takeLine m).2 := by
  obtain ⟨hblock, hsize, hmem, hroom⟩ := h
  have hlen := length_strtok m newline
  have hend := strtok_zero newline (getElem?_length_cstr hmem)
  have hlt := @strtok_lt m newline
  simp only [SockBuf.takeLine, hblock, str?_of_mem hmem, Option.bind_eq_bind, Option.bind_some,
    AlphaMiner.takeLine]
  generalize (cstr m).length = buflen at hroom hend hlt ⊢
  generalize strtok m newline = r at hlen hend hlt ⊢
  obtain ⟨tok, m'⟩ := r
  replace hlen : m'.length = m.length := hlen
  replace hend : m'[buflen]? = some 0 := hend
  cases tok with
  | none =>
      have hle := length_cstr_le hend
      exact ⟨_, rfl, rfl, hlen.trans hsize, List.mem_of_getElem? hend, by simp only; omega⟩
  | some tok =>
      have htok := hlt rfl
      have hmem' : 0 ∈ m'.drop tok := by
        refine List.mem_of_getElem? (i := buflen - tok) ?_
        rw [List.getElem?_drop, Nat.add_sub_cancel' (Nat.le_of_lt htok)]
        exact hend
      simp only [str?_of_mem hmem', Option.bind_some]
      generalize cstr (m'.drop tok) = sret
      by_cases hshift : buflen > sret.length + 1
      · -- the last byte that is copied lies behind the terminator
        have hfits : sret.length + 1 + (buflen - sret.length + 1) ≤ m'.length := by omega
        have hslice := length_slice hfits
        have hmove : memmove? m' 0 (sret.length + 1) (buflen - sret.length + 1) =
            some (store m' 0 (slice m' (sret.length + 1) (buflen - sret.length + 1))) := by
          rw [memmove?, slice?, if_pos hfits, Option.bind_some, store?, if_pos (by omega)]
        have hzero := @getElem?_shift m' (sret.length + 1) (buflen - sret.length + 1)
          (buflen - sret.length - 1) (by omega) hfits
        rw [show sret.length + 1 + (buflen - sret.length - 1) = buflen by omega, hend] at hzero
        have hle := length_cstr_le hzero
        rw [if_pos hshift, if_pos hshift, hmove, Option.bind_some]
        refine ⟨_, rfl, rfl, ?_, List.mem_of_getElem? hzero, by simp only; omega⟩
        rw [length_store (by omega), hlen, hsize]
      · obtain ⟨hrun, hroom'⟩ := @emptied_room m' (by omega)
        rw [hlen, hsize] at hroom'
        rw [if_neg hshift, if_neg hshift, hrun, Option.bind_some]
        exact ⟨_, rfl, hroom'⟩

/-! ## Every run -/

theorem SockBuf.apply_room {b : SockBuf} {m : Bytes} (h : b.Room m) (op : SockOp) :
    ∃ b' m', b.apply op = some b' ∧ b'.Room m' := by
  cases op with
  | connect => exact connect_room (.inr ⟨m, h⟩)
  | append heap s nul_free =>
      obtain ⟨b', hrun, hroom⟩ := append_room h heap nul_free
      exact ⟨b', _, hrun, hroom⟩
  | takeLine =>
      obtain ⟨b', hrun, hroom⟩ := takeLine_room h
      exact ⟨b', _, by rw [apply, hrun]; rfl, hroom⟩

theorem SockBuf.apply_all {ops : List SockOp} : ∀ {b : SockBuf} {m : Bytes}, b.Room m →
    ∃ b' m', ops.foldlM SockBuf.apply b = some b' ∧ b'.Room m' := by
  induction ops with
  | nil => exact fun h => ⟨_, _, rfl, h⟩
  | cons op ops ih =>
      intro b m h
      obtain ⟨b', m', hstep, hroom⟩ := apply_room h op
      obtain ⟨b'', m'', hrun, hroom'⟩ := ih hroom
      exact ⟨b'', m'', by rw [List.foldlM_cons, hstep]; exact hrun, hroom'⟩

/-- From the first connection on no access leaves the block, and the string ends two
bytes before it. -/
theorem sockbuf_room (ops : List SockOp) :
    ∃ b m, (SockOp.connect :: ops).foldlM SockBuf.apply ⟨none, 0⟩ = some b ∧
      b.sockbuf = some m ∧ m.length = b.sockbufSize ∧ 0 ∈ m ∧
      (cstr m).length + 2 ≤ b.sockbufSize := by
  obtain ⟨b, m, hconnect, hroom⟩ := SockBuf.connect_room (b := ⟨none, 0⟩) (.inl rfl)
  obtain ⟨b', m', hrun, hroom'⟩ := @SockBuf.apply_all ops b m hroom
  refine ⟨b', m', ?_, hroom'.block, hroom'.size, hroom'.terminated, hroom'.room⟩
  rw [List.foldlM_cons, show SockBuf.apply ⟨none, 0⟩ .connect = some b from hconnect]
  exact hrun

end AlphaMiner
