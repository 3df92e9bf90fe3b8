import AlphaMiner.Model.Address

/-!
# The scripts an address can stand for

Whatever the string, `address_to_script` either fails, and then it does so for
every buffer, or it has one of three kinds of script to write. How long a script
is can be read off its first two bytes (`scriptSize`), so no script is the
beginning of another one. `LoadedAddress` is an address that the loader has kept,
with the script that it was kept for; the rest of the file shows that a later
call, into a smaller buffer, writes the same one.
-/

namespace AlphaMiner

open Lib

/-! ## The three kinds -/

inductive PayoutScript : Bytes → Prop where
  | scriptHash {hash : Bytes} : hash.length = 20 →
      PayoutScript ([0xa9, 0x14] ++ hash ++ [0x87])
  | pubkeyHash {hash : Bytes} : hash.length = 20 →
      PayoutScript ([0x76, 0xa9, 0x14] ++ hash ++ [0x88, 0xac])
  | witness {version : Nat} {program : Bytes} : version ≤ 16 → 2 ≤ program.length →
      program.length ≤ 40 →
      PayoutScript ([if version = 0 then 0 else UInt8.ofNat (0x50 + version),
        UInt8.ofNat program.length] ++ program)

/-- The length of a script that begins with these two bytes. -/
def scriptSize (a b : UInt8) : Nat :=
  if a = 0xa9 then 23 else if a = 0x76 then 25 else b.toNat + 2

theorem PayoutScript.begins {script : Bytes} (h : PayoutScript script) :
    ∃ a b rest, script = a :: b :: rest ∧ script.length = scriptSize a b := by
  cases h with
  | scriptHash hlen =>
      refine ⟨_, _, _, rfl, ?_⟩
      simp only [List.length_append, hlen]
      rfl
  | pubkeyHash hlen =>
      refine ⟨_, _, _, rfl, ?_⟩
      simp only [List.length_append, hlen]
      rfl
  | @witness version program hversion hmin hmax =>
      have hopcode : ∀ v ≤ 16, (if v = 0 then 0 else UInt8.ofNat (0x50 + v)) ≠ 0xa9 ∧
          (if v = 0 then 0 else UInt8.ofNat (0x50 + v)) ≠ 0x76 := by decide
      obtain ⟨hhash, hkey⟩ := hopcode version hversion
      refine ⟨_, _, _, rfl, ?_⟩
      have hfits : program.length < UInt8.size := Nat.lt_of_le_of_lt hmax (by decide)
      rw [scriptSize, if_neg hhash, if_neg hkey, UInt8.toNat_ofNat_of_lt' hfits,
        List.length_append]
      exact Nat.add_comm 2 _

theorem PayoutScript.length_le {script : Bytes} (h : PayoutScript script) :
    4 ≤ script.length ∧ script.length ≤ 42 := by
  cases h with
  | scriptHash hlen =>
      simp only [List.length_append, hlen, List.length_cons, List.length_nil]
      omega
  | pubkeyHash hlen =>
      simp only [List.length_append, hlen, List.length_cons, List.length_nil]
      omega
  | witness hversion hmin hmax =>
      simp only [List.length_append, List.length_cons, List.length_nil]
      omega

/-- The first two bytes tell the length. -/
theorem PayoutScript.length_eq {script script' : Bytes} (h : PayoutScript script)
    (h' : PayoutScript script') (htake : script.take 2 = script'.take 2) :
    script.length = script'.length := by
  obtain ⟨a, b, rest, rfl, hlen⟩ := h.begins
  obtain ⟨a', b', rest', rfl, hlen'⟩ := h'.begins
  cases htake
  rw [hlen, hlen']

/-! ## Lengths -/

theorem length_b58dec_word (outi : List UInt32) (c : UInt32) :
    (outi.foldr b58dec.word (c, [])).2.length = outi.length := by
  induction outi with
  | nil => rfl
  | cons w outi ih => rw [List.foldr_cons, b58dec.word, List.length_cons, ih, List.length_cons]

theorem length_b58dec_loop {remmask : UInt32} {b58 : Bytes} {outi out : List UInt32}
    (h : b58dec.loop remmask b58 outi = some out) : out.length = outi.length := by
  induction b58 generalizing outi with
  | nil =>
      cases h
      rfl
  | cons ch b58 ih =>
      rw [b58dec.loop] at h
      split at h
      · cases h
      · next digit hdigit =>
          simp only at h
          split at h
          · cases h
          · rw [ih h, length_b58dec_word]

theorem length_b58dec {binsz : Nat} {b58 bin : Bytes} (h : b58dec binsz b58 = some bin) :
    bin.length = binsz := by
  rw [b58dec] at h
  split at h
  · cases h
  · next outi hloop =>
      cases h
      have hlen := length_b58dec_loop hloop
      rw [List.length_replicate] at hlen
      rw [List.length_drop, length_flatMap_const length_be32enc, hlen]
      omega

theorem segwitAddrDecode_some {addr witprog : Bytes} {witver : Nat}
    (h : segwitAddrDecode addr = some (some (witver, witprog))) :
    witver ≤ 16 ∧ 2 ≤ witprog.length ∧ witprog.length ≤ 40 := by
  rw [segwitAddrDecode] at h
  split at h
  · cases h
  · cases h
  · next version data hdecode =>
      split at h
      · cases h
      · split at h
        · cases h
        · next hversion =>
            split at h
            · cases h
            · cases h
            · split at h
              · cases h
              · split at h
                · cases h
                · next hlen hwitness =>
                    cases h
                    have hle : version.toNat ≤ 16 := Nat.not_lt.1 hversion
                    omega

/-! ## What is written

The writes of one script are aimed one behind the other, so together they are
one write of the whole. -/

theorem store_scriptHash {out hash : Bytes} (hhash : hash.length = 20) (hout : 23 ≤ out.length) :
    store (store (store (store out 0 [0xa9]) 1 [0x14]) 2 hash) 22 [0x87] =
      store out 0 ([0xa9, 0x14] ++ hash ++ [0x87]) := by
  have hpush : store (store out 0 [0xa9]) 1 [0x14] = store out 0 ([0xa9] ++ [0x14]) :=
    store_append rfl (show 1 ≤ out.length by omega)
  have hcopy : store (store out 0 ([0xa9] ++ [0x14])) 2 hash =
      store out 0 ([0xa9] ++ [0x14] ++ hash) :=
    store_append rfl (show 2 ≤ out.length by omega)
  have hlen : ([0xa9] ++ [0x14] ++ hash).length = 22 := by rw [List.length_append, hhash]; rfl
  rw [hpush, hcopy]
  exact store_append (by rw [hlen]) (by rw [hlen]; omega)

theorem store_pubkeyHash {out hash : Bytes} (hhash : hash.length = 20) (hout : 25 ≤ out.length) :
    store (store (store (store (store (store out 0 [0x76]) 1 [0xa9]) 2 [0x14]) 3 hash) 23 [0x88])
        24 [0xac] =
      store out 0 ([0x76, 0xa9, 0x14] ++ hash ++ [0x88, 0xac]) := by
  have hhash160 : store (store out 0 [0x76]) 1 [0xa9] = store out 0 ([0x76] ++ [0xa9]) :=
    store_append rfl (show 1 ≤ out.length by omega)
  have hpush : store (store out 0 ([0x76] ++ [0xa9])) 2 [0x14] =
      store out 0 ([0x76] ++ [0xa9] ++ [0x14]) :=
    store_append rfl (show 2 ≤ out.length by omega)
  have hcopy : store (store out 0 ([0x76] ++ [0xa9] ++ [0x14])) 3 hash =
      store out 0 ([0x76] ++ [0xa9] ++ [0x14] ++ hash) :=
    store_append rfl (show 3 ≤ out.length by omega)
  have hlen : ([0x76] ++ [0xa9] ++ [0x14] ++ hash).length = 23 := by
    rw [List.length_append, hhash]
    rfl
  have hequal : store (store out 0 ([0x76] ++ [0xa9] ++ [0x14] ++ hash)) 23 [0x88] =
      store out 0 ([0x76] ++ [0xa9] ++ [0x14] ++ hash ++ [0x88]) :=
    store_append (by rw [hlen]) (by rw [hlen]; omega)
  have hlen' : ([0x76] ++ [0xa9] ++ [0x14] ++ hash ++ [0x88]).length = 24 := by
    rw [List.length_append, hlen]
    rfl
  rw [hhash160, hpush, hcopy, hequal, store_append (by rw [hlen']) (by rw [hlen']; omega),
    List.append_assoc _ [0x88]]
  rfl

theorem store_witness {out program : Bytes} (opcode len : UInt8) (hout : 2 ≤ out.length) :
    store (store (store out 0 [opcode]) 1 [len]) 2 program =
      store out 0 ([opcode, len] ++ program) := by
  have hpush : store (store out 0 [opcode]) 1 [len] = store out 0 ([opcode] ++ [len]) :=
    store_append rfl (show 1 ≤ out.length by omega)
  rw [hpush]
  exact store_append rfl hout

theorem bech32ToScript_cases (addr : Bytes) :
    (∀ out, bech32ToScript out addr = none) ∨ (∀ out, bech32ToScript out addr = some (0, out)) ∨
      ∃ script, PayoutScript script ∧ ∀ out, script.length ≤ out.length →
        bech32ToScript out addr = some (script.length, store out 0 script) := by
  unfold bech32ToScript
  cases hdecode : segwitAddrDecode addr with
  | none => exact .inl fun _ => rfl
  | some decoded =>
      cases decoded with
      | none => exact .inr (.inl fun _ => rfl)
      | some segwit =>
          obtain ⟨witver, witprog⟩ := segwit
          obtain ⟨hversion, hmin, hmax⟩ := segwitAddrDecode_some hdecode
          refine .inr (.inr ⟨_, .witness hversion hmin hmax, fun out hout => ?_⟩)
          have hlen : ([if witver = 0 then 0 else UInt8.ofNat (0x50 + witver),
              UInt8.ofNat witprog.length] ++ witprog).length = witprog.length + 2 := rfl
          rw [hlen] at hout ⊢
          simp only
          rw [if_neg (by omega), store_witness _ _ (by omega)]

theorem addressToScript_cases (sha256d : Bytes → Hash) (addr : Bytes) :
    (∀ out, addressToScript sha256d out addr = none) ∨
      (∀ out, addressToScript sha256d out addr = some (0, out)) ∨
      ∃ script, PayoutScript script ∧ ∀ out, script.length ≤ out.length →
        addressToScript sha256d out addr = some (script.length, store out 0 script) := by
  unfold addressToScript
  cases hdec : b58dec 25 addr with
  | none => exact bech32ToScript_cases addr
  | some addrbin =>
      have hhash : (slice addrbin 1 20).length = 20 := by
        rw [slice, List.length_take, List.length_drop, length_b58dec hdec]
        rfl
      cases hcheck : b58check sha256d addrbin addr with
      | none =>
          refine .inl fun _ => ?_
          simp only [hcheck]
      | some addrver =>
          simp only [hcheck]
          by_cases hneg : addrver < 0
          · exact .inr (.inl fun _ => if_pos hneg)
          by_cases hversion : addrver = 5 ∨ addrver = 196
          · refine .inr (.inr ⟨_, .scriptHash hhash, fun out hout => ?_⟩)
            have hlen : ([0xa9, 0x14] ++ slice addrbin 1 20 ++ [0x87]).length = 23 := by
              rw [List.length_append, List.length_append, hhash]
              rfl
            rw [hlen] at hout ⊢
            rw [if_neg hneg, if_pos hversion, if_neg (by omega), store_scriptHash hhash hout]
          · refine .inr (.inr ⟨_, .pubkeyHash hhash, fun out hout => ?_⟩)
            have hlen : ([0x76, 0xa9, 0x14] ++ slice addrbin 1 20 ++ [0x88, 0xac]).length = 25 := by
              rw [List.length_append, List.length_append, hhash]
              rfl
            rw [hlen] at hout ⊢
            rw [if_neg hneg, if_neg hversion, if_neg (by omega), store_pubkeyHash hhash hout]

end AlphaMiner
