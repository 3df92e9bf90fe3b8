import AlphaMiner.Proofs.GbtSpec

/-!
# Where the coinbase pays

A coinbase has one input, and the lengths in it are single bytes, so the first
output is found by adding up (`firstScript`). `PaysAt` says that it is there in
a buffer that is still being filled. What the function writes afterwards lies
behind it, except for the extra script data, which moves it to the right by as
much as it adds to the length that the reader goes by.
-/

namespace AlphaMiner

open Lib

/-- The script of the first output. In front of it are version, count and
previous output; the script of the input; sequence, count and value. -/
def firstScript (tx : Bytes) : Bytes :=
  let out := 55 + (tx.getD 41 0).toNat
  slice tx (out + 1) (tx.getD out 0).toNat

namespace Gbt

structure PaysAt (cbtx : Bytes) (size sig : Nat) (script : Bytes) : Prop where
  sigLength : slice cbtx 41 1 = [UInt8.ofNat sig]
  scriptLength : slice cbtx (55 + sig) 1 = [UInt8.ofNat script.length]
  scriptBytes : slice cbtx (56 + sig) script.length = script
  inside : 56 + sig + script.length ≤ size
  size_le : size ≤ cbtx.length

theorem getD_of_slice {buf : Bytes} {i : Nat} {b : UInt8} (h : slice buf i 1 = [b]) :
    buf.getD i 0 = b := by
  have hi : (slice buf i 1)[0]? = buf[i]? := by
    rw [slice, List.getElem?_take_of_lt Nat.zero_lt_one, List.getElem?_drop, Nat.add_zero]
  rw [List.getD_eq_getElem?_getD, ← hi, h]
  rfl

section

variable {cbtx : Bytes} {size sig : Nat} {script : Bytes}

theorem PaysAt.firstScript (h : PaysAt cbtx size sig script) (hsig : sig < 256)
    (hscript : script.length < 256) : firstScript (cbtx.take size) = script := by
  have hinside := h.inside
  have hsigByte : (cbtx.take size).getD 41 0 = UInt8.ofNat sig :=
    getD_of_slice ((slice_take (by omega)).trans h.sigLength)
  have hscriptByte : (cbtx.take size).getD (55 + sig) 0 = UInt8.ofNat script.length :=
    getD_of_slice ((slice_take (by omega)).trans h.scriptLength)
  rw [AlphaMiner.firstScript, hsigByte, UInt8.toNat_ofNat_of_lt' hsig, hscriptByte,
    UInt8.toNat_ofNat_of_lt' hscript, slice_take (by omega), show 55 + sig + 1 = 56 + sig by omega]
  exact h.scriptBytes

/-- A write behind what is there so far. -/
theorem PaysAt.store (h : PaysAt cbtx size sig script) {off : Nat} {bs : Bytes}
    (hoff : size ≤ off) (hfit : off + bs.length ≤ cbtx.length) :
    PaysAt (store cbtx off bs) (off + bs.length) sig script := by
  have hinside := h.inside
  refine ⟨?_, ?_, ?_, by omega, by rw [length_store hfit]; exact hfit⟩
  · rw [slice_store_before (by omega) (by omega)]
    exact h.sigLength
  · rw [slice_store_before (by omega) (by omega)]
    exact h.scriptLength
  · rw [slice_store_before (by omega) (by omega)]
    exact h.scriptBytes

/-- A write into the script of the input. -/
theorem PaysAt.store_inside (h : PaysAt cbtx size sig script) {off : Nat} {bs : Bytes}
    (hoff : 42 ≤ off) (hend : off + bs.length ≤ 42 + sig) :
    PaysAt (AlphaMiner.Lib.store cbtx off bs) size sig script := by
  have hinside := h.inside
  have hsize := h.size_le
  have hfit : off + bs.length ≤ cbtx.length := by omega
  refine ⟨?_, ?_, ?_, hinside, by rw [length_store hfit]; exact hsize⟩
  · rw [slice_store_before (by omega) (by omega)]
    exact h.sigLength
  · rw [slice_store_after hfit (by omega)]
    exact h.scriptLength
  · rw [slice_store_after hfit (by omega)]
    exact h.scriptBytes

end

/-- What a write leaves in front of it, and what it puts there. -/
theorem poke_front {buf bs out : Bytes} {off : Nat} {s s' : GbtState}
    (h : poke buf off bs s = .ok out s') :
    off + bs.length ≤ buf.length ∧ out.length = buf.length ∧ slice out off bs.length = bs ∧
      ∀ off' n, off' + n ≤ off → slice out off' n = slice buf off' n := by
  obtain ⟨hfit, rfl⟩ := poke_ok h
  exact ⟨hfit, length_store hfit, slice_store hfit,
    fun off' n hn => slice_store_before hn (by omega)⟩

/-! ## The height -/

theorem pushHeight_ok {fuel : Nat} {n : Int} {cbtx cbtx' : Bytes} {size size' : Nat}
    {s s' : GbtState} (h : pushHeight fuel n cbtx size s = .ok (cbtx', size') s') :
    size ≤ size' ∧ cbtx'.length = cbtx.length := by
  induction fuel generalizing n cbtx size s with
  | zero => exact absurd h throw_ok
  | succ fuel ih =>
      rw [pushHeight] at h
      split at h
      · obtain ⟨hr, -⟩ := pure_ok.mp h
        cases hr
        exact ⟨Nat.le_refl _, rfl⟩
      · obtain ⟨cbtx₁, _, hbyte, h⟩ := bind_ok.mp h
        obtain ⟨hfit, rfl⟩ := poke_ok hbyte
        split at h
        · obtain ⟨cbtx₂, _, hzero, h⟩ := bind_ok.mp h
          obtain ⟨hfit', rfl⟩ := poke_ok hzero
          obtain ⟨hsize, hlen⟩ := ih h
          exact ⟨by omega, by rw [hlen, length_store hfit', length_store hfit]⟩
        · obtain ⟨hsize, hlen⟩ := ih h
          exact ⟨by omega, by rw [hlen, length_store hfit]⟩

theorem coinbaseHeight_ok {height : Int} {cbtx cbtx' : Bytes} {size : Nat} {s s' : GbtState}
    (h : coinbaseHeight height cbtx s = .ok (cbtx', size) s') :
    43 ≤ size ∧ cbtx'.length = cbtx.length := by
  rw [coinbaseHeight] at h
  split at h
  · obtain ⟨cbtx₁, _, hop, h⟩ := bind_ok.mp h
    obtain ⟨cbtx₂, _, hpad, h⟩ := bind_ok.mp h
    obtain ⟨hfit, rfl⟩ := poke_ok hop
    obtain ⟨hfit', rfl⟩ := poke_ok hpad
    obtain ⟨hr, -⟩ := pure_ok.mp h
    cases hr
    exact ⟨by omega, by rw [length_store hfit', length_store hfit]⟩
  · obtain ⟨⟨cbtx₁, size₁⟩, _, hpush, h⟩ := bind_ok.mp h
    obtain ⟨hsize, hlen⟩ := pushHeight_ok hpush
    obtain ⟨cbtx₂, _, hop, h⟩ := bind_ok.mp h
    obtain ⟨hfit, rfl⟩ := poke_ok hop
    obtain ⟨hr, -⟩ := pure_ok.mp h
    cases hr
    exact ⟨hsize, by rw [length_store hfit, hlen]⟩

/-! ## The outputs -/

theorem witnessOutput_ok {sha256d : Bytes → Hash} {txa : List Json} {cbtx cbtx' : Bytes}
    {size sig size' : Nat} {script : Bytes} {s s' : GbtState}
    (hpays : PaysAt cbtx size sig script)
    (h : witnessOutput sha256d txa cbtx size s = .ok (cbtx', size') s') :
    PaysAt cbtx' size' sig script := by
  rw [witnessOutput] at h
  obtain ⟨cbtx₁, _, hvalue, h⟩ := bind_ok.mp h
  obtain ⟨cbtx₂, _, hscript, h⟩ := bind_ok.mp h
  obtain ⟨_, _, -, h⟩ := bind_ok.mp h
  obtain ⟨_, _, -, h⟩ := bind_ok.mp h
  obtain ⟨_, _, -, h⟩ := bind_ok.mp h
  obtain ⟨_, _, -, h⟩ := bind_ok.mp h
  obtain ⟨cbtx₃, _, hcommit, h⟩ := bind_ok.mp h
  obtain ⟨hr, -⟩ := pure_ok.mp h
  cases hr
  obtain ⟨hfit, rfl⟩ := poke_ok hvalue
  obtain ⟨hfit', rfl⟩ := poke_ok hscript
  obtain ⟨hfit'', rfl⟩ := poke_ok hcommit
  have hvalue' := hpays.store (Nat.le_refl size) hfit
  have hscript' := hvalue'.store (Nat.le_refl (size + 8)) hfit'
  have hcommit' := hscript'.store (Nat.le_refl (size + 8 + 7)) hfit''
  rwa [Vector.length_toList] at hcommit'

theorem buildCoinbase_ok {sha256d : Bytes → Hash} {cfg : GbtConfig} {val : Option Json}
    {segwit : Bool} {txa : List Json} {cbtx : Bytes} {size : Nat} {s s' : GbtState}
    (h : buildCoinbase sha256d cfg val segwit txa s = .ok (cbtx, size) s') :
    cfg.pkScriptSize ≠ 0 ∧ ∃ sig, sig < 256 ∧
      PaysAt cbtx size sig (slice cfg.pkScript 0 cfg.pkScriptSize) := by
  rw [buildCoinbase] at h
  by_cases hsize : cfg.pkScriptSize = 0
  · rw [if_pos hsize] at h
    simp only [throw_bind] at h
    split at h
    · obtain ⟨_, _, -, h⟩ := bind_ok.mp h
      exact absurd h throw_ok
    · exact absurd h throw_ok
  · rw [if_neg hsize] at h
    refine ⟨hsize, ?_⟩
    obtain ⟨cbvalue, _, -, h⟩ := bind_ok.mp h
    obtain ⟨cbtx₁, _, hversion, h⟩ := bind_ok.mp h
    obtain ⟨cbtx₂, _, hcount, h⟩ := bind_ok.mp h
    obtain ⟨cbtx₃, _, hhash, h⟩ := bind_ok.mp h
    obtain ⟨cbtx₄, _, hindex, h⟩ := bind_ok.mp h
    obtain ⟨_, _, -, h⟩ := bind_ok.mp h
    obtain ⟨⟨cbtx₅, end₅⟩, _, hheight, h⟩ := bind_ok.mp h
    obtain ⟨cbtx₆, _, hsig, h⟩ := bind_ok.mp h
    obtain ⟨cbtx₇, _, hsequence, h⟩ := bind_ok.mp h
    obtain ⟨cbtx₈, _, houts, h⟩ := bind_ok.mp h
    obtain ⟨cbtx₉, _, hlow, h⟩ := bind_ok.mp h
    obtain ⟨cbtx₁₀, _, hhigh, h⟩ := bind_ok.mp h
    obtain ⟨cbtx₁₁, _, hlength, h⟩ := bind_ok.mp h
    obtain ⟨script, _, hscript, h⟩ := bind_ok.mp h
    obtain ⟨cbtx₁₂, _, hcopy, h⟩ := bind_ok.mp h
    -- lengths, from the 256 bytes that were allocated on
    have hlen₀ : (malloc cfg.heap 256).length = 256 := by simp [malloc]
    obtain ⟨-, hlen₁, -⟩ := poke_front hversion
    obtain ⟨-, hlen₂, -⟩ := poke_front hcount
    obtain ⟨-, hlen₃, -⟩ := poke_front hhash
    obtain ⟨-, hlen₄, -⟩ := poke_front hindex
    obtain ⟨hend, hlen₅⟩ := coinbaseHeight_ok hheight
    obtain ⟨-, hlen₆, hsig₆, -⟩ := poke_front hsig
    obtain ⟨hfit₇, hlen₇, -, hkeep₇⟩ := poke_front hsequence
    obtain ⟨-, hlen₈, -, hkeep₈⟩ := poke_front houts
    obtain ⟨-, hlen₉, -, hkeep₉⟩ := poke_front hlow
    obtain ⟨-, hlen₁₀, -, hkeep₁₀⟩ := poke_front hhigh
    obtain ⟨-, hlen₁₁, hlength₁₁, hkeep₁₁⟩ := poke_front hlength
    obtain ⟨hfit₁₂, hlen₁₂, hscript₁₂, hkeep₁₂⟩ := poke_front hcopy
    obtain ⟨hinside, hscriptEq⟩ := peek_ok hscript
    have hscriptLen : script.length = cfg.pkScriptSize := by rw [hscriptEq, length_slice hinside]
    rw [← hscriptEq]
    have hlast : 55 + (end₅ - 42) = end₅ + 13 := by omega
    have hpays : PaysAt cbtx₁₂ (end₅ + 14 + cfg.pkScriptSize) (end₅ - 42) script := by
      refine ⟨?_, ?_, ?_, by rw [hscriptLen]; omega, by rw [hscriptLen] at hfit₁₂; omega⟩
      · rw [hkeep₁₂ 41 1 (by omega), hkeep₁₁ 41 1 (by omega), hkeep₁₀ 41 1 (by omega),
          hkeep₉ 41 1 (by omega), hkeep₈ 41 1 (by omega), hkeep₇ 41 1 (by omega)]
        exact hsig₆
      · rw [hlast, hkeep₁₂ (end₅ + 13) 1 (by omega), hscriptLen]
        exact hlength₁₁
      · rw [show 56 + (end₅ - 42) = end₅ + 14 by omega]
        exact hscript₁₂
    refine ⟨end₅ - 42, by rw [length_le32enc] at hfit₇; omega, ?_⟩
    have hlock : ∀ {cbtx₁₃ : Bytes} {size₁₃ : Nat} {t : GbtState},
        PaysAt cbtx₁₃ size₁₃ (end₅ - 42) script →
        (poke cbtx₁₃ size₁₃ (le32enc 0) >>= fun cbtx => pure (cbtx, size₁₃ + 4)) t =
          .ok (cbtx, size) s' →
        PaysAt cbtx size (end₅ - 42) script := by
      intro cbtx₁₃ size₁₃ t hpays₁₃ h
      obtain ⟨cbtx₁₄, _, hlock, h⟩ := bind_ok.mp h
      obtain ⟨hr, -⟩ := pure_ok.mp h
      cases hr
      obtain ⟨hfit, rfl⟩ := poke_ok hlock
      exact hpays₁₃.store (Nat.le_refl size₁₃) hfit
    by_cases hsegwit : segwit = true
    · simp only [hsegwit, if_true] at h
      obtain ⟨⟨cbtx₁₃, size₁₃⟩, _, houtput, h⟩ := bind_ok.mp h
      exact hlock (witnessOutput_ok hpays houtput) h
    · simp only [hsegwit, Bool.false_eq_true, if_false] at h
      exact hlock hpays h

/-! ## The extra script data -/

/-- Nothing, or no more than the script has room for. -/
def ExtraFits (scriptLen : Nat) (xsig : Bytes) : Prop :=
  xsig = [] ∨ scriptLen + xsig.length ≤ 100

theorem coinbaseExtra_aux_fits {scriptLen : Nat} {members : List (String × Json)} {xsig : Bytes}
    (h : ExtraFits scriptLen xsig) :
    ExtraFits scriptLen (coinbaseExtra.aux scriptLen members xsig) := by
  induction members generalizing xsig with
  | nil =>
      rw [coinbaseExtra.aux]
      exact h
  | cons member rest ih =>
      obtain ⟨key, v⟩ := member
      rw [coinbaseExtra.aux]
      split
      · exact h
      · next hex hv =>
          simp only
          split
          · exact h
          · split
            · exact h
            · next buf hbuf =>
                have hlen : buf.length = hex.length / 2 := by
                  have hbuf' := congrArg (fun r => r.2.length) hbuf
                  simp only at hbuf'
                  rw [← hbuf', length_hex2bin (by simp), List.length_replicate]
                refine ih ?_
                split
                · next hroom =>
                    refine .inr ?_
                    rw [List.length_append, hlen]
                    omega
                · exact h

theorem coinbaseExtra_fits (cfg : GbtConfig) (val : Option Json) (scriptLen : Nat) :
    ExtraFits scriptLen (coinbaseExtra cfg val scriptLen) := by
  have hsig : ExtraFits scriptLen
      (if scriptLen + cfg.coinbaseSig.length ≤ 100 then cfg.coinbaseSig else []) := by
    split
    · next hroom => exact .inr hroom
    · exact .inl rfl
  rw [coinbaseExtra]
  split
  · exact coinbaseExtra_aux_fits hsig
  · exact hsig

theorem writeExtra_ok {pushLen : Nat} {xsig cbtx cbtx' : Bytes} {ssigEnd size sig : Nat}
    {script : Bytes} {s s' : GbtState} (hpays : PaysAt cbtx size sig script)
    (hstart : 42 ≤ ssigEnd) (hend : ssigEnd + (xsig.length + pushLen) ≤ 42 + sig)
    (h : writeExtra pushLen xsig ssigEnd cbtx s = .ok cbtx' s') :
    PaysAt cbtx' size sig script := by
  rw [writeExtra] at h
  split at h
  · obtain ⟨cbtx₁, _, hop, h⟩ := bind_ok.mp h
    obtain ⟨cbtx₂, _, hlen, h⟩ := bind_ok.mp h
    obtain ⟨-, rfl⟩ := poke_ok hop
    obtain ⟨-, rfl⟩ := poke_ok hlen
    obtain ⟨-, rfl⟩ := poke_ok h
    have hop' : PaysAt (store cbtx ssigEnd [0x4c]) size sig script :=
      hpays.store_inside hstart (by rw [List.length_singleton]; omega)
    have hlen' : PaysAt (store (store cbtx ssigEnd [0x4c]) (ssigEnd + 1)
        [UInt8.ofNat xsig.length]) size sig script :=
      hop'.store_inside (by omega) (by rw [List.length_singleton]; omega)
    exact hlen'.store_inside (by omega) (by omega)
  · split at h
    · obtain ⟨cbtx₁, _, hlen, h⟩ := bind_ok.mp h
      obtain ⟨-, rfl⟩ := poke_ok hlen
      obtain ⟨-, rfl⟩ := poke_ok h
      have hlen' : PaysAt (store cbtx ssigEnd [UInt8.ofNat xsig.length]) size sig script :=
        hpays.store_inside hstart (by rw [List.length_singleton]; omega)
      exact hlen'.store_inside (by omega) (by omega)
    · obtain ⟨-, rfl⟩ := poke_ok h
      exact hpays.store_inside hstart (by omega)

/-- The tail moves by as much as the length grows. -/
theorem insertExtra_ok {pushLen : Nat} {xsig cbtx cbtx' : Bytes} {size size' sig : Nat}
    {script : Bytes} {s s' : GbtState} (hpays : PaysAt cbtx size sig script) (hsig : sig < 256)
    (h : insertExtra (UInt8.ofNat sig) pushLen xsig cbtx size s = .ok (cbtx', size') s') :
    PaysAt cbtx' size' (sig + (xsig.length + pushLen)) script := by
  have hinside := hpays.inside
  have hsize := hpays.size_le
  rw [insertExtra] at h
  simp only [UInt8.toNat_ofNat_of_lt' hsig] at h
  generalize hn : xsig.length + pushLen = n at h ⊢
  rw [if_neg (by omega)] at h
  obtain ⟨tail, _, htail, h⟩ := bind_ok.mp h
  obtain ⟨cbtx₁, _, hmove, h⟩ := bind_ok.mp h
  obtain ⟨cbtx₂, _, hlen, h⟩ := bind_ok.mp h
  obtain ⟨cbtx₃, _, hextra, h⟩ := bind_ok.mp h
  obtain ⟨hr, -⟩ := pure_ok.mp h
  cases hr
  obtain ⟨htailFit, htailEq⟩ := peek_ok htail
  obtain ⟨hmoveFit, hmoveEq⟩ := poke_ok hmove
  obtain ⟨hlenFit, hlenEq⟩ := poke_ok hlen
  have htailLen : tail.length = size - (42 + sig) := by rw [htailEq, length_slice htailFit]
  have hlen₁ : cbtx₁.length = cbtx.length := by rw [hmoveEq, length_store hmoveFit]
  -- what is behind the script of the input, in its new place
  have hmoved : ∀ off m, 42 + sig ≤ off → off + m ≤ size →
      slice cbtx₂ (off + n) m = slice cbtx off m := by
    intro off m hoff hm
    rw [hlenEq, slice_store_after hlenFit (by simp; omega), hmoveEq,
      show off + n = 42 + sig + n + (off - (42 + sig)) by omega,
      slice_store_inside (by omega) (by omega), htailEq, slice_slice (by omega),
      show 42 + sig + (off - (42 + sig)) = off by omega]
  refine writeExtra_ok ?_ (by omega) (by omega) hextra
  refine ⟨?_, ?_, ?_, by omega, ?_⟩
  · rw [hlenEq]
    exact (slice_store hlenFit).trans (by rw [UInt8.ofNat_add])
  · rw [← Nat.add_assoc, hmoved _ _ (by omega) (by omega)]
    exact hpays.scriptLength
  · rw [← Nat.add_assoc, hmoved _ _ (by omega) (by omega)]
    exact hpays.scriptBytes
  · rw [hlenEq, length_store hlenFit]
    omega

theorem appendCoinbase_ok {cfg : GbtConfig} {val : Option Json} {cbtx cbtx' : Bytes}
    {size size' sig : Nat} {script : Bytes} {s s' : GbtState}
    (hpays : PaysAt cbtx size sig script) (hsig : sig < 256)
    (h : appendCoinbase cfg val cbtx size s = .ok (cbtx', size') s') :
    ∃ sig', sig' < 256 ∧ PaysAt cbtx' size' sig' script := by
  rw [appendCoinbase_eq] at h
  obtain ⟨sigByte, _, hpeek, h⟩ := bind_ok.mp h
  obtain ⟨-, hbyte⟩ := peek_ok hpeek
  rw [hpays.sigLength] at hbyte
  rw [hbyte] at h
  simp only [List.headD_cons, UInt8.toNat_ofNat_of_lt' hsig] at h
  split at h
  · obtain ⟨hr, -⟩ := pure_ok.mp h
    cases hr
    exact ⟨sig, hsig, hpays⟩
  · next hsome =>
      have hroom : sig + (coinbaseExtra cfg val sig).length ≤ 100 := by
        refine (coinbaseExtra_fits cfg val sig).resolve_left fun hnil => hsome ?_
        rw [hnil]
        rfl
      refine ⟨_, ?_, insertExtra_ok hpays hsig h⟩
      split
      · omega
      · split
        · omega
        · omega

/-- The coinbase that the miner builds itself pays the bytes that are selected
when it copies them. -/
theorem coinbase_pays {sha256d : Bytes → Hash} {cfg : GbtConfig} {val : Option Json}
    {txa : List Json} {cbtx : Bytes} {size : Nat} {s s' : GbtState}
    (hown : jsonObjectGet val "coinbasetxn" = none) (hlen : cfg.pkScriptSize < 256)
    (h : coinbase sha256d cfg val txa s = .ok (cbtx, size) s') :
    cfg.pkScriptSize ≠ 0 ∧
      firstScript (cbtx.take size) = slice cfg.pkScript 0 cfg.pkScriptSize := by
  rw [coinbase] at h
  rw [hown] at h
  obtain ⟨⟨cbtx₁, size₁⟩, _, hbuild, h⟩ := bind_ok.mp h
  obtain ⟨hsize, sig₁, hsig₁, hpays₁⟩ := buildCoinbase_ok hbuild
  obtain ⟨sig, hsig, hpays⟩ := appendCoinbase_ok hpays₁ hsig₁ h
  refine ⟨hsize, hpays.firstScript hsig (Nat.lt_of_le_of_lt ?_ hlen)⟩
  rw [slice, List.length_take]
  exact Nat.min_le_left _ _

end Gbt

end AlphaMiner
