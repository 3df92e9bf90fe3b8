import AlphaMiner.Proofs.CoinbaseTx

/-!
# Where a coinbase goes wrong

A stage of `gbt_work_decode` ends in one of three ways, and two of them are in
order: it goes on, or it gives up with a message. The third is the fault, which
stands for all that C gives no meaning to. `coinbase_faults` is the exact
condition on the template under which the coinbase stage comes to it.

There are two. A height that is negative as an `int` stays negative however far
it is shifted, so the loop over its bytes never comes to zero and leaves the
buffer on its way. And a script that ends outside a coinbase of the server's
makes the length of a move negative. All else, the fields at their offsets, the
tree of witness hashes, the data added to the script, stays in its buffer.
-/

namespace AlphaMiner

open Lib

namespace Gbt

theorem out_ne_fault {log : String} : GbtStop.out log ≠ .fault := by
  intro h
  cases h

theorem out_no_fault {α : Type} {log : String} {s : GbtState} :
    ¬StopsWith .fault (throw (.out log) : GbtM α) s := fun h => out_ne_fault (stopsWith_throw.1 h)

/-! ## The height -/

/-- The shift of a negative number is negative. -/
theorem pushHeight_negative {fuel : Nat} {n : Int} (h : n < 0) (cbtx : Bytes) (size : Nat) :
    pushHeight fuel n cbtx size = throw .fault := by
  induction fuel generalizing n cbtx size with
  | zero => rfl
  | succ fuel ih =>
      rw [pushHeight, if_neg (by omega)]
      by_cases hfit : size + [UInt8.ofNat (n % 256).toNat].length ≤ cbtx.length
      · rw [poke_of_fits hfit, pure_bind]
        simp only
        rw [if_neg (by omega)]
        exact ih (by omega) _ _
      · rw [poke_of_not_fits hfit, throw_bind]

/-- The loop ends, whatever it is given to run on, and writes at most five bytes. -/
def HeightEnds (height : Int) : Prop :=
  ∃ count ≤ 5, ∀ (fuel : Nat) (cbtx : Bytes) (size : Nat), count < fuel →
    size + count ≤ cbtx.length →
      ∃ cbtx', pushHeight fuel height cbtx size = pure (cbtx', size + count) ∧
        cbtx'.length = cbtx.length

theorem heightEnds_iff {height : Int} (hlt : height < 2 ^ 31) :
    HeightEnds height ↔ 0 ≤ height := by
  constructor
  · rintro ⟨count, -, hrun⟩
    by_contra hneg
    obtain ⟨cbtx', hpure, -⟩ := hrun (count + 1) (List.replicate count 0) 0 (Nat.lt_succ_self _)
      (by rw [List.length_replicate, Nat.zero_add])
    rw [pushHeight_negative (by omega)] at hpure
    exact throw_ok (congrFun hpure sampleStart)
  · intro hpos
    obtain ⟨n, rfl⟩ := Int.eq_ofNat_of_zero_le hpos
    have hcount := length_scriptNum (n := n) (k := 4) (by omega)
    have hdigits : (Nat.digits 256 n).length ≤ (scriptNum n).length := by
      rw [scriptNum]
      split
      · rw [List.length_append, List.length_map]
        exact Nat.le_add_right _ _
      · rw [List.length_map]
    refine ⟨(scriptNum n).length, hcount, fun fuel cbtx size hfuel hroom => ?_⟩
    have hn : n < 256 ^ (Nat.digits 256 n).length := Nat.lt_base_pow_length_digits (by omega)
    exact ⟨_, pushHeight_pure hn (by omega) hroom, length_store hroom⟩

theorem writesHeight_zero : WritesHeight 0 [0] := by
  intro cbtx hlen
  have hfit : 42 + [UInt8.ofNat (43 - 43)].length ≤ cbtx.length := by
    simp [hlen]
  rw [coinbaseHeight, if_neg (by omega), pushHeight_zero (by omega), pure_bind]
  simp only
  rw [poke_of_fits hfit, pure_bind]
  exact ⟨_, rfl, (length_store hfit).trans hlen, take_store_before (by omega) (by omega),
    slice_store hfit⟩

/-- The script of the input for any height that is not negative. -/
def heightBytes (height : Int) : Bytes := if height = 0 then [0] else heightScript height.toNat

theorem heightBytes_fits {height : Int} (hlt : height < 2 ^ 31) :
    (heightBytes height).length ≤ 6 := by
  rw [heightBytes]
  split
  · exact (by decide : 1 ≤ 6)
  · exact (heightScript_fits (by omega)).2

theorem writesHeight_heightBytes {height : Int} (hpos : 0 ≤ height) (hlt : height < 2 ^ 31) :
    WritesHeight height (heightBytes height) := by
  obtain ⟨n, rfl⟩ := Int.eq_ofNat_of_zero_le hpos
  rw [heightBytes]
  rcases Nat.eq_zero_or_pos n with rfl | hn
  · exact writesHeight_zero
  · rw [if_neg (by omega), Int.toNat_natCast]
    exact writesHeight hn (by omega)

theorem coinbaseHeight_negative {height : Int} (h : height < 0) (cbtx : Bytes) :
    coinbaseHeight height cbtx = throw .fault := by
  rw [coinbaseHeight, if_neg (by omega), pushHeight_negative h, throw_bind]

/-! ## The commitment -/

section

variable {txa : List Json} {s : GbtState}

/-- A hash that is rejected is no fault, and one that is taken has its place. -/
theorem witnessRound_sound {wtree : Bytes} {tx : Json} {i : Nat}
    (hroom : 32 * (1 + i) + 32 ≤ wtree.length) :
    ¬StopsWith .fault (witnessRound wtree (tx, i)) s ∧
      ∀ out t, witnessRound wtree (tx, i) s = .ok out t → out.length = wtree.length := by
  rw [witnessRound]
  cases hj : jsonObjectGet (some tx) "hash" with
  | none => exact ⟨out_no_fault, fun _ _ h => absurd h throw_ok⟩
  | some hash =>
      simp only
      rw [peek_of_fits hroom, pure_bind]
      have hlen : (hex2bin (slice wtree (32 * (1 + i)) 32)
          (jsonStringValue (some hash)) 32).2.length = 32 := by
        rw [length_hex2bin (Nat.le_of_eq (length_slice hroom).symm), length_slice hroom]
      rcases hbin : hex2bin (slice wtree (32 * (1 + i)) 32) (jsonStringValue (some hash)) 32
        with ⟨_ | _, leaf⟩
      · exact ⟨out_no_fault, fun _ _ h => absurd h throw_ok⟩
      · rw [hbin] at hlen
        have hfit : 32 * (1 + i) + (memrev leaf).length ≤ wtree.length := by
          rw [memrev, List.length_reverse, hlen]
          exact hroom
        simp only
        rw [poke_of_fits hfit]
        refine ⟨stopsWith_pure, fun out t h => ?_⟩
        rw [← (pure_ok.1 h).1, length_store hfit]

theorem witnessLeaves_sound {k : Nat} {wtree : Bytes}
    (hroom : 32 * (1 + k + txa.length) ≤ wtree.length) :
    ¬StopsWith .fault ((txa.zipIdx k).foldlM witnessRound wtree) s ∧
      ∀ out t, (txa.zipIdx k).foldlM witnessRound wtree s = .ok out t →
        out.length = wtree.length := by
  induction txa generalizing k wtree s with
  | nil => exact ⟨stopsWith_pure, fun _ _ h => congrArg List.length (pure_ok.1 h).1.symm⟩
  | cons tx txa ih =>
      rw [List.length_cons] at hroom
      have hroom₁ : 32 * (1 + k) + 32 ≤ wtree.length := by omega
      obtain ⟨hround, hlen⟩ := @witnessRound_sound s wtree tx k hroom₁
      rw [List.zipIdx_cons, List.foldlM_cons]
      constructor
      · rw [stopsWith_bind, not_or]
        refine ⟨hround, ?_⟩
        rintro ⟨wtree₁, t, hok, hstop⟩
        have hlen₁ := hlen wtree₁ t hok
        exact (ih (by omega)).1 hstop
      · intro out t h
        obtain ⟨wtree₁, t₁, hok, hrest⟩ := bind_ok.1 h
        have hlen₁ := hlen wtree₁ t₁ hok
        rw [(ih (by omega)).2 out t hrest, hlen₁]

/-- The commitment takes its forty-seven bytes, and nothing in front of them changes. -/
theorem witnessOutput_sound (sha256d : Bytes → Hash) {cbtx bs : Bytes} {size : Nat}
    (hfilled : Filled cbtx size bs) (hroom : size + 47 ≤ 256) :
    ¬StopsWith .fault (witnessOutput sha256d txa cbtx size) s ∧
      ∀ cbtx' size' t, witnessOutput sha256d txa cbtx size s = .ok (cbtx', size') t →
        size' = size + 47 ∧ ∃ more, more.length = 47 ∧ Filled cbtx' size' (bs ++ more) := by
  obtain ⟨cbtx₁, hvalue, hfilled₁⟩ :=
    hfilled.poke (x := List.replicate 8 0) (n := 8) List.length_replicate (by omega)
  obtain ⟨cbtx₂, hscript, hfilled₂⟩ :=
    hfilled₁.poke (x := [38, 0x6a, 0x24, 0xaa, 0x21, 0xa9, 0xed]) (n := 7) rfl (by omega)
  have hlen₀ : (List.replicate (32 * (txa.length + 2)) (0 : UInt8)).length =
      32 * (txa.length + 2) := List.length_replicate
  have hroom₀ : 32 * (1 + 0 + txa.length) ≤
      (List.replicate (32 * (txa.length + 2)) (0 : UInt8)).length := by omega
  obtain ⟨hleaves, hlen⟩ := @witnessLeaves_sound txa s 0 _ hroom₀
  -- behind the leaves nothing can stop
  have hrest : ∀ leaves : Bytes, leaves.length = 32 * (txa.length + 2) →
      ∃ cbtx₃ x, x.length = 32 ∧ Filled cbtx₃ (size + 8 + 7 + 32) (bs ++ List.replicate 8 0 ++
          [38, 0x6a, 0x24, 0xaa, 0x21, 0xa9, 0xed] ++ x) ∧
        (do
          let wtree ← foldTree sha256d (txa.length + 1) (txa.length + 1) leaves
          let wtree ← poke wtree 32 (List.replicate 32 0)
          let root ← peek wtree 0 64
          let cbtx ← poke cbtx₂ (size + 15) (sha256d root).toList
          pure (cbtx, size + 47) : GbtM (Bytes × Nat)) = pure (cbtx₃, size + 47) := by
    intro leaves hleaves
    have hfold : 32 * (2 * ((txa.length + 1 + 1) / 2)) ≤ leaves.length := by omega
    obtain ⟨wtree, hrun, hwtree⟩ := foldTree_pure sha256d (Nat.le_add_left 1 txa.length) hfold
    have hfit : 32 + (List.replicate 32 (0 : UInt8)).length ≤ wtree.length := by
      rw [List.length_replicate]
      omega
    have hpeek : 0 + 64 ≤ (store wtree 32 (List.replicate 32 0)).length := by
      rw [length_store hfit]
      omega
    have hroot : (sha256d (slice (store wtree 32 (List.replicate 32 0)) 0 64)).toList.length = 32 :=
      Vector.length_toList
    obtain ⟨cbtx₃, hwrite, hfilled₃⟩ := hfilled₂.poke hroot (by omega)
    refine ⟨cbtx₃, _, hroot, hfilled₃, ?_⟩
    rw [hrun _ (Nat.le_refl _), pure_bind, poke_of_fits hfit, pure_bind, peek_of_fits hpeek,
      pure_bind, hwrite, pure_bind]
  unfold witnessOutput
  rw [hvalue, pure_bind, hscript, pure_bind]
  constructor
  · rw [stopsWith_bind, not_or]
    refine ⟨hleaves, ?_⟩
    rintro ⟨leaves, t, hok, hstop⟩
    obtain ⟨_, _, -, -, hpure⟩ := hrest leaves ((hlen leaves t hok).trans hlen₀)
    rw [hpure] at hstop
    exact stopsWith_pure hstop
  · intro cbtx' size' t h
    obtain ⟨leaves, t₁, hok, h⟩ := bind_ok.1 h
    obtain ⟨cbtx₃, x, hx, hfilled₃, hpure⟩ := hrest leaves ((hlen leaves t₁ hok).trans hlen₀)
    rw [hpure] at h
    cases (pure_ok.1 h).1
    refine ⟨rfl, _, ?_, by simpa only [List.append_assoc] using hfilled₃⟩
    simp [hx]

end

/-! ## The miner's own coinbase -/

section

variable {sha256d : Bytes → Hash} {cfg : GbtConfig} {val : Option Json} {txa : List Json}
  {s : GbtState}

/-- The value of the coinbase is a number. -/
def ValueGiven (val : Option Json) : Prop :=
  (∃ i, jsonObjectGet val "coinbasevalue" = some (.integer i)) ∨
    ∃ r, jsonObjectGet val "coinbasevalue" = some (.real r)

theorem buildCoinbase_no_script (h : cfg.pkScriptSize = 0) (segwit : Bool) :
    ¬StopsWith .fault (buildCoinbase sha256d cfg val segwit txa) s := by
  unfold buildCoinbase
  rw [if_pos h]
  simp only [throw_bind]
  split
  · rw [stopsWith_bind, not_or]
    exact ⟨stopsWith_modify, fun ⟨_, _, _, hstop⟩ => out_no_fault hstop⟩
  · exact out_no_fault

theorem buildCoinbase_no_value (hscript : cfg.pkScriptSize ≠ 0) (h : ¬ValueGiven val)
    (segwit : Bool) : ¬StopsWith .fault (buildCoinbase sha256d cfg val segwit txa) s := by
  obtain ⟨hv, -⟩ | ⟨-, hv⟩ := coinbaseValue_cases val
  · exact absurd hv h
  · unfold buildCoinbase
    rw [if_neg hscript, hv, throw_bind]
    exact out_no_fault

/-- What comes behind the outputs: the commitment, where there is one. -/
def commitmentSize (val : Option Json) : Nat := if segwit val then 47 else 0

/-- Where a coinbase of the miner's own is written, and its size. -/
structure OwnFits (cfg : GbtConfig) (val : Option Json) (script cbtx : Bytes) (size : Nat) :
    Prop where
  length : cbtx.length = 256
  scriptLen : scriptLength cbtx = script.length
  size : size = 60 + script.length + cfg.pkScriptSize + commitmentSize val

theorem ownFits {cbtx script more pkScript : Bytes} {amount : UInt64} {outs size : Nat}
    (hscript : script.length ≤ 6) (hpkScript : pkScript.length = cfg.pkScriptSize)
    (hmore : more.length = 4 + commitmentSize val)
    (h : Filled cbtx size (paidBytes script amount outs pkScript ++ more)) :
    OwnFits cfg val script cbtx size := by
  have hfront : coinbaseFront.length = 41 := by decide
  have hcount := h.count
  simp only [paidBytes, List.length_append, hfront, List.length_singleton, length_le32enc] at hcount
  refine ⟨h.length, ?_, by omega⟩
  rw [scriptLength, ← getD_take (n := size) (by omega), h.front, paidBytes,
    List.getD_eq_getElem?_getD]
  simp only [List.append_assoc]
  rw [List.getElem?_append_right (by omega), hfront]
  exact UInt8.toNat_ofNat_of_lt' (Nat.lt_of_le_of_lt hscript (by decide))

theorem buildCoinbase_sound (hpk : ScriptThere cfg)
    (hsafe : cfg.pkScriptSize ≠ 0 → ValueGiven val → 0 ≤ s.work.height)
    (hlt : s.work.height < 2 ^ 31) :
    ¬StopsWith .fault (buildCoinbase sha256d cfg val (segwit val) txa) s ∧
      ∀ cbtx size t, buildCoinbase sha256d cfg val (segwit val) txa s = .ok (cbtx, size) t →
        OwnFits cfg val (heightBytes s.work.height) cbtx size := by
  by_cases hscript : cfg.pkScriptSize = 0
  · exact ⟨buildCoinbase_no_script hscript _,
      fun _ _ _ h => absurd hscript (buildCoinbase_accepted h).script⟩
  by_cases hgiven : ValueGiven val
  swap
  · exact ⟨buildCoinbase_no_value hscript hgiven _,
      fun _ _ _ h => absurd (buildCoinbase_accepted h).value hgiven⟩
  obtain ⟨amount, hvalue⟩ : ∃ v, coinbaseValue val = pure v :=
    (coinbaseValue_cases val).elim And.right fun h => absurd hgiven h.1
  have hwrites := writesHeight_heightBytes (hsafe hscript hgiven) hlt
  have hsigLe := heightBytes_fits hlt
  generalize heightBytes s.work.height = script at hwrites hsigLe ⊢
  obtain ⟨cbtx₀, size₀, hsize₀, hfilled, hrun⟩ :=
    @buildCoinbase_paid cfg val txa sha256d hpk hscript amount hvalue script hsigLe (segwit val) s
      hwrites
  have hpkLe := hpk.le
  have hpkLen := hpk.length
  have hstops : StopsWith .fault (buildCoinbase sha256d cfg val (segwit val) txa) s ↔
      StopsWith .fault ((if segwit val then witnessOutput sha256d txa cbtx₀ size₀
        else pure (cbtx₀, size₀)) >>= fun r =>
          poke r.1 r.2 (le32enc 0) >>= fun cbtx => pure (cbtx, r.2 + 4)) s := by
    rw [StopsWith, StopsWith, hrun]
  rw [hstops, hrun]
  by_cases hsegwit : segwit val = true
  · simp only [if_pos hsegwit] at hfilled ⊢
    obtain ⟨hsound, hends⟩ := @witnessOutput_sound txa s sha256d _ _ _ hfilled (by omega)
    have hlock : ∀ cbtx size t, witnessOutput sha256d txa cbtx₀ size₀ s = .ok (cbtx, size) t →
        ∃ cbtx', poke cbtx size (le32enc 0) = pure cbtx' ∧
          OwnFits cfg val script cbtx' (size + 4) := by
      intro cbtx size t h
      obtain ⟨hsize, more, hmore, hfilled₁⟩ := hends cbtx size t h
      obtain ⟨cbtx', hpoke, hfilled₂⟩ := hfilled₁.poke (x := le32enc 0) (n := 4) rfl (by omega)
      rw [List.append_assoc] at hfilled₂
      have hlen : (more ++ le32enc 0).length = 4 + commitmentSize val := by
        rw [List.length_append, hmore, commitmentSize, if_pos hsegwit]
        rfl
      exact ⟨cbtx', hpoke, ownFits hsigLe hpkLen hlen hfilled₂⟩
    constructor
    · rw [stopsWith_bind, not_or]
      refine ⟨hsound, ?_⟩
      rintro ⟨⟨cbtx, size⟩, t, hok, hstop⟩
      obtain ⟨cbtx', hpoke, -⟩ := hlock cbtx size t hok
      simp only [hpoke, pure_bind] at hstop
      exact stopsWith_pure hstop
    · intro cbtx size t h
      obtain ⟨⟨cbtx₁, size₁⟩, t₁, hok, h⟩ := bind_ok.1 h
      obtain ⟨cbtx', hpoke, hfits⟩ := hlock cbtx₁ size₁ t₁ hok
      simp only [hpoke, pure_bind] at h
      cases (pure_ok.1 h).1
      exact hfits
  · simp only [if_neg hsegwit] at hfilled ⊢
    obtain ⟨cbtx', hpoke, hfilled₁⟩ := hfilled.poke (x := le32enc 0) (n := 4) rfl (by omega)
    simp only [pure_bind, hpoke]
    refine ⟨stopsWith_pure, fun cbtx size t h => ?_⟩
    cases (pure_ok.1 h).1
    have hlen : (le32enc 0).length = 4 + commitmentSize val := by
      rw [commitmentSize, if_neg hsegwit]
      rfl
    exact ownFits hsigLe hpkLen hlen hfilled₁

theorem buildCoinbase_negative (hscript : cfg.pkScriptSize ≠ 0) (hgiven : ValueGiven val)
    (hheight : s.work.height < 0) (segwit : Bool) :
    StopsWith .fault (buildCoinbase sha256d cfg val segwit txa) s := by
  obtain ⟨amount, hvalue⟩ : ∃ v, coinbaseValue val = pure v :=
    (coinbaseValue_cases val).elim And.right fun h => absurd hgiven h.1
  obtain ⟨c₁, h₁, f₁⟩ := (Filled.start cfg.heap).poke (x := le32enc 1) (n := 4) rfl (by omega)
  obtain ⟨c₂, h₂, f₂⟩ := f₁.poke (x := [1]) (n := 1) rfl (by omega)
  obtain ⟨c₃, h₃, f₃⟩ := f₂.poke (x := List.replicate 32 0) (n := 32) rfl (by omega)
  obtain ⟨c₄, h₄, f₄⟩ := f₃.poke (x := le32enc 0xffffffff) (n := 4) rfl (by omega)
  unfold buildCoinbase
  rw [if_neg hscript, hvalue, pure_bind, h₁, pure_bind, h₂, pure_bind, h₃, pure_bind, h₄,
    pure_bind]
  refine stopsWith_bind.2 (.inr ⟨s, s, rfl, stopsWith_bind.2 (.inl ?_)⟩)
  rw [coinbaseHeight_negative hheight]
  exact stopsWith_throw.2 rfl

/-! ## The coinbase of a template -/

/-- The template gives a coinbase without a fault: one of the server's is not
extended, or its script ends inside it, or nothing is added; one of the miner's
own has a height that is not negative, where it comes to that. -/
def CoinbaseSafe (cfg : GbtConfig) (val : Option Json) (height : Int) : Prop :=
  match jsonObjectGet val "coinbasetxn" with
  | some coinbasetxn =>
      mutableHas val "coinbase/append" = true → ∀ hex tx,
        jsonStringValue (jsonObjectGet (some coinbasetxn) "data") = some hex →
        unhex hex = some tx → 60 ≤ tx.length →
          42 + scriptLength tx ≤ tx.length ∨ NothingFits cfg val (scriptLength tx)
  | none => cfg.pkScriptSize ≠ 0 → ValueGiven val → 0 ≤ height

/-- The bytes of the coinbase, where the stage comes to one. -/
def coinbaseSize (cfg : GbtConfig) (val : Option Json) (height : Int) : Nat :=
  match jsonObjectGet val "coinbasetxn" with
  | some coinbasetxn =>
      let tx := ((jsonStringValue (jsonObjectGet (some coinbasetxn) "data")).bind unhex).getD []
      tx.length + if mutableHas val "coinbase/append" then (addedScript cfg val tx).length else 0
  | none =>
      let scriptLen := (heightBytes height).length
      60 + scriptLen + cfg.pkScriptSize + commitmentSize val +
        (extraScript scriptLen (coinbaseExtra cfg val scriptLen)).length

theorem appendCoinbase_own (hpk : ScriptThere cfg) {script cbtx : Bytes} {size : Nat}
    (hscript : script.length ≤ 6) (h : OwnFits cfg val script cbtx size) :
    ∃ cbtx', appendCoinbase cfg val cbtx size =
        pure (cbtx', size + (extraScript script.length
          (coinbaseExtra cfg val script.length)).length) ∧
      size + (extraScript script.length (coinbaseExtra cfg val script.length)).length ≤
        cbtx'.length := by
  have hlen := h.length
  have hsize := h.size
  have hpkLe := hpk.le
  have hcommitment : commitmentSize val ≤ 47 := by
    rw [commitmentSize]
    split
    · exact Nat.le_refl 47
    · exact Nat.zero_le 47
  have hadded : addedScript cfg val cbtx =
      extraScript script.length (coinbaseExtra cfg val script.length) := by
    rw [addedScript, h.scriptLen]
  have hscriptLen := h.scriptLen
  have hfits : scriptLength cbtx + (addedScript cfg val cbtx).length ≤ 100 :=
    scriptLength_added_le cfg val (by omega)
  have hroom : size + (addedScript cfg val cbtx).length ≤ cbtx.length := by omega
  have hend : 42 + scriptLength cbtx ≤ size := by omega
  obtain ⟨cbtx', hpure, hlen', -⟩ := appendCoinbase_pure (by omega) (.inr hend) hroom
  rw [hadded] at hpure hroom
  exact ⟨cbtx', hpure, hlen' ▸ hroom⟩

theorem serverCoinbaseAccepted_iff {coinbasetxn : Json} :
    ServerCoinbaseAccepted coinbasetxn ↔ ∃ hex tx,
      jsonStringValue (jsonObjectGet (some coinbasetxn) "data") = some hex ∧
      unhex hex = some tx ∧ 60 ≤ tx.length := by
  constructor
  · rintro ⟨hex, hdata, hlen, hfits⟩
    obtain ⟨tx, htx, -⟩ := unhex_of_hex2bin hfits
    have hhex := length_of_unhex htx
    exact ⟨hex, tx, hdata, htx, by omega⟩
  · rintro ⟨hex, tx, hdata, htx, hlen⟩
    have hhex := length_of_unhex htx
    refine ⟨hex, hdata, by omega, ?_⟩
    rw [hexFits, hex2bin_front htx (by omega)]

/-- The whole stage, with a coinbase from the server. -/
theorem coinbase_server {coinbasetxn : Json}
    (hserver : jsonObjectGet val "coinbasetxn" = some coinbasetxn) :
    (¬CoinbaseSafe cfg val s.work.height ∧ coinbase sha256d cfg val txa = throw .fault) ∨
      CoinbaseSafe cfg val s.work.height ∧
        ((∃ cbtx, coinbase sha256d cfg val txa = pure (cbtx, coinbaseSize cfg val s.work.height) ∧
            coinbaseSize cfg val s.work.height ≤ cbtx.length) ∨
          ∃ log, coinbase sha256d cfg val txa = throw (.out log)) := by
  rw [CoinbaseSafe, coinbaseSize, coinbase, hserver]
  simp only
  by_cases haccept : ServerCoinbaseAccepted coinbasetxn
  · obtain ⟨hex, tx, hdata, hhex, hlen⟩ := serverCoinbaseAccepted_iff.1 haccept
    obtain ⟨spare, hpure, hspare⟩ := serverCoinbase_pure cfg hdata hhex hlen
    obtain ⟨hinside, hfault⟩ := appendCoinbase_server cfg val hspare hlen
    have htx : ((jsonStringValue (jsonObjectGet (some coinbasetxn) "data")).bind unhex).getD [] =
        tx := by
      rw [hdata, Option.bind_some, hhex, Option.getD_some]
    rw [hpure, pure_bind, htx]
    simp only
    by_cases happend : mutableHas val "coinbase/append" = true
    · rw [if_pos happend, if_pos happend]
      by_cases hcond : 42 + scriptLength tx ≤ tx.length ∨ NothingFits cfg val (scriptLength tx)
      · obtain ⟨cbtx, hok, hbuf, -, hfits⟩ := hinside hcond
        refine .inr ⟨fun _ hex' tx' hdata' hhex' _ => ?_, .inl ⟨cbtx, hok, ?_⟩⟩
        · cases hdata.symm.trans hdata'
          cases hhex.symm.trans hhex'
          exact hcond
        · rw [hbuf]
          by_cases hnil : addedScript cfg val tx = []
          · rw [hnil, List.length_nil]
            omega
          · have hle := hfits hnil
            omega
      · exact .inl ⟨fun hsafe => hcond (hsafe happend hex tx hdata hhex hlen), hfault hcond⟩
    · rw [if_neg happend, if_neg happend]
      refine .inr ⟨fun h => absurd h happend, .inl ⟨_, rfl, ?_⟩⟩
      rw [List.length_append]
      omega
  · obtain ⟨h, -⟩ | ⟨-, hout⟩ := serverCoinbase_cases cfg coinbasetxn
    · exact absurd h haccept
    · refine .inr ⟨fun _ hex tx hdata hhex hlen => ?_, .inr ⟨"JSON invalid coinbasetxn", ?_⟩⟩
      · exact absurd (serverCoinbaseAccepted_iff.2 ⟨hex, tx, hdata, hhex, hlen⟩) haccept
      · rw [hout, throw_bind]

/-- The coinbase stage comes to a fault just where the template is not safe. -/
theorem coinbase_faults (hpk : ScriptThere cfg) (hlt : s.work.height < 2 ^ 31) :
    StopsWith .fault (coinbase sha256d cfg val txa) s ↔ ¬CoinbaseSafe cfg val s.work.height := by
  cases hserver : jsonObjectGet val "coinbasetxn" with
  | some coinbasetxn =>
      obtain ⟨hnotSafe, hrun⟩ | ⟨hsafe, hrun⟩ :=
        @coinbase_server sha256d cfg val txa s coinbasetxn hserver
      · rw [hrun]
        exact iff_of_true (stopsWith_throw.2 rfl) hnotSafe
      · refine iff_of_false ?_ (not_not.2 hsafe)
        obtain ⟨cbtx, hpure, -⟩ | ⟨log, hout⟩ := hrun
        · rw [hpure]
          exact stopsWith_pure
        · rw [hout]
          exact out_no_fault
  | none =>
      rw [CoinbaseSafe, coinbase, hserver]
      simp only
      constructor
      · intro hstop hsafe
        obtain ⟨hsound, hends⟩ := @buildCoinbase_sound sha256d cfg val txa s hpk hsafe hlt
        rcases stopsWith_bind.1 hstop with hstop | ⟨⟨cbtx, size⟩, t, hok, hstop⟩
        · exact hsound hstop
        · obtain ⟨cbtx', hpure, -⟩ :=
            appendCoinbase_own hpk (heightBytes_fits hlt) (hends cbtx size t hok)
          rw [hpure] at hstop
          exact stopsWith_pure hstop
      · intro hnotSafe
        rw [Classical.not_imp, Classical.not_imp, Int.not_le] at hnotSafe
        obtain ⟨hscript, hgiven, hneg⟩ := hnotSafe
        exact stopsWith_bind.2 (.inl (buildCoinbase_negative hscript hgiven hneg _))

/-- The transaction that comes out of the stage has its size and is in its buffer. -/
theorem coinbase_room (hpk : ScriptThere cfg) (hlt : s.work.height < 2 ^ 31) {cbtx : Bytes}
    {size : Nat} {t : GbtState} (h : coinbase sha256d cfg val txa s = .ok (cbtx, size) t) :
    size = coinbaseSize cfg val s.work.height ∧ size ≤ cbtx.length := by
  have hsafe : CoinbaseSafe cfg val s.work.height := by
    by_contra hnotSafe
    obtain ⟨t', hstop⟩ := (coinbase_faults hpk hlt).2 hnotSafe
    rw [h] at hstop
    cases hstop
  cases hserver : jsonObjectGet val "coinbasetxn" with
  | some coinbasetxn =>
      obtain ⟨hnotSafe, -⟩ | ⟨-, ⟨cbtx', hpure, hroom⟩ | ⟨log, hout⟩⟩ :=
        @coinbase_server sha256d cfg val txa s coinbasetxn hserver
      · exact absurd hsafe hnotSafe
      · rw [hpure] at h
        obtain ⟨rfl, rfl⟩ := Prod.mk.inj (pure_ok.1 h).1
        exact ⟨rfl, hroom⟩
      · rw [hout] at h
        exact absurd h throw_ok
  | none =>
      rw [CoinbaseSafe, hserver] at hsafe
      rw [coinbaseSize, hserver]
      rw [coinbase, hserver] at h
      obtain ⟨⟨cbtx₁, size₁⟩, t₁, hok, h⟩ := bind_ok.1 h
      obtain ⟨-, hends⟩ := @buildCoinbase_sound sha256d cfg val txa s hpk hsafe hlt
      have hfits := hends cbtx₁ size₁ t₁ hok
      obtain ⟨cbtx', hpure, hroom⟩ := appendCoinbase_own hpk (heightBytes_fits hlt) hfits
      simp only [hpure] at h
      obtain ⟨rfl, rfl⟩ := Prod.mk.inj (pure_ok.1 h).1
      simp only
      rw [hfits.size] at hroom ⊢
      exact ⟨rfl, hroom⟩

end

end Gbt

end AlphaMiner
