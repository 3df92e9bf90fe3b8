import AlphaMiner.Proofs.GbtSpec
import AlphaMiner.Proofs.Hex

/-!
# What a rejected template leaves in the record

`gbt_work_decode` writes as it reads. The height is written as soon as it has
been found to be an integer, before anything else is looked at, and the
transactions as soon as there is a coinbase, before any of them is decoded; the
header and its seed follow before the target has been looked at, and the target
before the work id. A template that is rejected on the way leaves what was
written.

So the record is what it was if the template has no height, or if it is
rejected before its transactions are taken over and has the height that the
record has already. `gbt_failure_atomic` says that, and that nothing else keeps
the record but a coincidence: the record already holds the transactions of a
block with as many.
-/

namespace AlphaMiner

open Lib

/-! ## What is wanted, and when it is had -/

/-- The fields that a miner takes from the record. -/
structure SameRecord (w w' : Work) : Prop where
  data : w'.data = w.data
  target : w'.target = w.target
  height : w'.height = w.height
  txs : w'.txs = w.txs
  workid : w'.workid = w.workid
  seed : w'.randomxSeedHash = w.randomxSeedHash

theorem SameRecord.refl (w : Work) : SameRecord w w := ⟨rfl, rfl, rfl, rfl, rfl, rfl⟩

def integerOf (val : Option Json) (key : String) : Option Int :=
  match jsonObjectGet val key with
  | some (.integer i) => some i
  | _ => none

/-- Whether `hex2bin` takes the string for a buffer of `len` bytes. -/
def hexFits (hexstr : Option Bytes) (len : Nat) : Bool :=
  (hex2bin (List.replicate len 0) hexstr len).1

/-- The checks on the fields that are read behind the height. -/
structure FieldsAccepted (val : Option Json) : Prop where
  version : (integerOf val "version").isSome = true
  prevhash : hexFits (jsonStringValue (jsonObjectGet val "previousblockhash")) 32 = true
  epochDuration : (integerOf val "rx_epoch_duration").isSome = true
  curtime : (integerOf val "curtime").isSome = true
  bits : hexFits (jsonStringValue (jsonObjectGet val "bits")) 4 = true
  transactions : ∃ txa, jsonObjectGet val "transactions" = some (.array txa) ∧
    ∀ tx ∈ txa, (Gbt.txHex tx).isSome = true

/-- The checks on a coinbase that the server supplies. -/
def ServerCoinbaseAccepted (coinbasetxn : Json) : Prop :=
  ∃ hex, jsonStringValue (jsonObjectGet (some coinbasetxn) "data") = some hex ∧
    60 ≤ hex.length / 2 ∧ hexFits (some hex) (hex.length / 2) = true

/-- The checks on what a coinbase of the miner's own is made of. -/
structure OwnCoinbaseAccepted (cfg : GbtConfig) (val : Option Json) (txa : List Json) :
    Prop where
  script : cfg.pkScriptSize ≠ 0
  value : (∃ i, jsonObjectGet val "coinbasevalue" = some (.integer i)) ∨
    ∃ r, jsonObjectGet val "coinbasevalue" = some (.real r)
  hashes : Gbt.segwit val = true → ∀ tx ∈ txa, ∃ hash,
    jsonObjectGet (some tx) "hash" = some hash ∧
      hexFits (jsonStringValue (some hash)) 32 = true

def CoinbaseAccepted (cfg : GbtConfig) (val : Option Json) (txa : List Json) : Prop :=
  match jsonObjectGet val "coinbasetxn" with
  | some coinbasetxn => ServerCoinbaseAccepted coinbasetxn
  | none => OwnCoinbaseAccepted cfg val txa

/-- The template gets as far as its transactions. -/
def TakesTransactions (cfg : GbtConfig) (val : Option Json) : Prop :=
  FieldsAccepted val ∧ ∃ txa, jsonObjectGet val "transactions" = some (.array txa) ∧
    CoinbaseAccepted cfg val txa

/-- The template has no height, or the height of the record and a fault that is
found before its transactions are taken over. -/
def RejectedInTime (cfg : GbtConfig) (val : Option Json) (w : Work) : Prop :=
  integerOf val "height" = none ∨
    ∃ height, integerOf val "height" = some height ∧ w.height = height.bmod (2 ^ 32) ∧
      ¬TakesTransactions cfg val

/-- The record holds a block of as many transactions. -/
def HoldsBlock (val : Option Json) (w : Work) : Prop :=
  ∃ txa block, jsonObjectGet val "transactions" = some (.array txa) ∧
    w.txs = some (bin2hex (varintEncode (UInt64.ofNat (1 + txa.length))) ++ block)

/-! ## The checks as the stages make them -/

theorem hex2bin_loop_fst : ∀ (s : Bytes) (i : Nat) (p q : Bytes),
    (hex2bin.loop s i p).1 = (hex2bin.loop s i q).1 := by
  intro s
  induction s with
  | nil => exact fun _ _ _ => rfl
  | cons c rest ih =>
      intro i p q
      rw [hex2bin.loop, hex2bin.loop]
      cases hexNibble c with
      | none => rfl
      | some nibble => exact ih (i + 1) _ _

/-- Whether a string is taken does not depend on the buffer. -/
theorem hex2bin_fst (p : Bytes) (hexstr : Option Bytes) (len : Nat) :
    (hex2bin p hexstr len).1 = hexFits hexstr len := by
  unfold hexFits hex2bin
  cases hexstr with
  | none => rfl
  | some s =>
      simp only
      split
      · rfl
      · split
        · rfl
        · exact hex2bin_loop_fst _ _ _ _

theorem jobjBinary_fst (obj : Option Json) (key : String) (buf : Bytes) (n : Nat) :
    (jobjBinary obj key buf n).1 = hexFits (jsonStringValue (jsonObjectGet obj key)) n := by
  rw [jobjBinary]
  cases jsonObjectGet obj key with
  | none => rfl
  | some j =>
      cases hs : jsonStringValue (some j) with
      | none =>
          simp only [hs]
          rfl
      | some s =>
          simp only [hs]
          rw [hex2bin_fst]

namespace Gbt

theorem integerField_isSome {val : Option Json} {key log : String} {s s' : GbtState} {i : Int}
    (h : integerField val key log s = .ok i s') : integerOf val key = some i := by
  rw [integerOf, (integerField_ok h).1]

theorem integerField_of {val : Option Json} {key : String} (log : String) {i : Int}
    (h : integerOf val key = some i) : integerField val key log = pure i := by
  have hj : jsonObjectGet val key = some (.integer i) := by
    rw [integerOf] at h
    split at h
    · next hj =>
        cases h
        exact hj
    · cases h
  rw [integerField, hj]

theorem integerField_none {val : Option Json} {key : String} (log : String) {s : GbtState}
    (h : integerOf val key = none) : integerField val key log s = .error (.out log) s := by
  cases hrun : integerField val key log s with
  | ok i s' =>
      rw [integerField_isSome hrun] at h
      cases h
  | error e s' =>
      rw [integerField] at hrun
      cases hj : jsonObjectGet val key with
      | none =>
          rw [hj] at hrun
          obtain ⟨rfl, rfl⟩ := throw_error.mp hrun
          rfl
      | some j =>
          rw [hj] at hrun
          cases j with
          | integer i => exact absurd hrun pure_error
          | _ =>
              obtain ⟨rfl, rfl⟩ := throw_error.mp hrun
              rfl

theorem binaryField_ok {heap : Nat → UInt8} {val : Option Json} {key log : String} {n : Nat}
    {buf : Bytes} {s s' : GbtState} (h : binaryField heap val key log n s = .ok buf s') :
    hexFits (jsonStringValue (jsonObjectGet val key)) n = true := by
  rw [← jobjBinary_fst val key (malloc heap n)]
  rw [binaryField] at h
  rcases hj : jobjBinary val key (malloc heap n) n with ⟨_ | _, out⟩
  · rw [hj] at h
    exact absurd h throw_ok
  · rfl

theorem stops_binaryField {E : GbtStop → Prop} {heap : Nat → UInt8} {val : Option Json}
    {key log : String} {n : Nat}
    (h : hexFits (jsonStringValue (jsonObjectGet val key)) n = true) :
    Stops E (binaryField heap val key log n) := by
  rw [← jobjBinary_fst val key (malloc heap n)] at h
  rw [binaryField]
  rcases hj : jobjBinary val key (malloc heap n) n with ⟨_ | _, out⟩
  · rw [hj] at h
    cases h
  · exact .pure _

theorem transactions_ok {val : Option Json} {txa : List Json} {s s' : GbtState}
    (h : transactions val s = .ok txa s') :
    jsonObjectGet val "transactions" = some (.array txa) := by
  rw [transactions] at h
  cases hj : jsonObjectGet val "transactions" with
  | none =>
      rw [hj] at h
      exact absurd h throw_ok
  | some j =>
      rw [hj] at h
      cases j with
      | array elems => rw [(pure_ok.mp h).1]
      | _ => exact absurd h throw_ok

theorem txSizes_ok {txa : List Json} {n : Int} {s s' : GbtState}
    (h : txSizes txa s = .ok n s') : ∀ tx ∈ txa, (txHex tx).isSome = true := by
  intro tx htx
  obtain ⟨size, t, size', t', hrun⟩ := foldlM_ok_mem h tx htx
  cases hhex : txHex tx with
  | none =>
      rw [hhex] at hrun
      exact absurd hrun throw_ok
  | some hex => rfl

theorem stops_txSizes {E : GbtStop → Prop} {txa : List Json}
    (h : ∀ tx ∈ txa, (txHex tx).isSome = true) : Stops E (txSizes txa) := by
  refine Stops.foldlM_mem txa (fun size tx htx => ?_) 0
  obtain ⟨hex, hhex⟩ := Option.isSome_iff_exists.mp (h tx htx)
  rw [hhex]
  exact .pure _

/-- The state once the height has been written. -/
def withHeight (height : Int) (s : GbtState) : GbtState :=
  { s with work := { s.work with height := height.bmod (2 ^ 32) } }

theorem fields_none {cfg : GbtConfig} {val : Option Json} {s : GbtState}
    (h : integerOf val "height" = none) :
    fields cfg val s = .error (.out "JSON invalid height") s := by
  rw [fields]
  exact bind_error.mpr (.inl (integerField_none _ h))

/-- Behind the height nothing is read from the state and nothing written to it. -/
theorem fields_eq {cfg : GbtConfig} {val : Option Json} {height : Int}
    (h : integerOf val "height" = some height) :
    ∃ rest : GbtM Fields, Stateless rest ∧ ∀ s, fields cfg val s = rest (withHeight height s) := by
  rw [fields]
  rw [integerField_of _ h, pure_bind]
  refine ⟨_, ?_, fun s => bind_of_ok rfl⟩
  exact (stateless_integerField _ _ _).bind fun _ => (stateless_binaryField _ _ _ _ _).bind fun _ =>
    (stateless_integerField _ _ _).bind fun _ => (stateless_integerField _ _ _).bind fun _ =>
      (stateless_binaryField _ _ _ _ _).bind fun _ => (stateless_transactions _).bind fun _ =>
        (stateless_txSizes _).bind fun _ => .pure _

theorem fields_final (cfg : GbtConfig) {val : Option Json} {height : Int}
    (h : integerOf val "height" = some height) (s : GbtState) :
    finalState (fields cfg val s) = withHeight height s := by
  obtain ⟨rest, hrest, heq⟩ := @fields_eq cfg val height h
  rw [heq]
  exact hrest.preserves (· = withHeight height s) _ rfl

theorem fields_accepted {cfg : GbtConfig} {val : Option Json} {s s' : GbtState} {f : Fields}
    (h : fields cfg val s = .ok f s') :
    FieldsAccepted val ∧ jsonObjectGet val "transactions" = some (.array f.txa) := by
  rw [fields] at h
  obtain ⟨_, _, -, h⟩ := bind_ok.mp h
  obtain ⟨_, _, -, h⟩ := bind_ok.mp h
  obtain ⟨_, _, hversion, h⟩ := bind_ok.mp h
  obtain ⟨_, _, hprevhash, h⟩ := bind_ok.mp h
  obtain ⟨_, _, hepoch, h⟩ := bind_ok.mp h
  obtain ⟨_, _, hcurtime, h⟩ := bind_ok.mp h
  obtain ⟨_, _, hbits, h⟩ := bind_ok.mp h
  obtain ⟨txa, _, htxa, h⟩ := bind_ok.mp h
  obtain ⟨_, _, hsize, h⟩ := bind_ok.mp h
  obtain ⟨rfl, -⟩ := pure_ok.mp h
  refine ⟨⟨?_, binaryField_ok hprevhash, ?_, ?_, binaryField_ok hbits, txa,
    transactions_ok htxa, txSizes_ok hsize⟩, transactions_ok htxa⟩
  · rw [integerField_isSome hversion]
    rfl
  · rw [integerField_isSome hepoch]
    rfl
  · rw [integerField_isSome hcurtime]
    rfl

theorem stops_integerField {E : GbtStop → Prop} {val : Option Json} {key log : String}
    (h : (integerOf val key).isSome = true) : Stops E (integerField val key log) := by
  obtain ⟨i, hi⟩ := Option.isSome_iff_exists.mp h
  rw [integerField_of log hi]
  exact .pure _

theorem stops_fields {E : GbtStop → Prop} {cfg : GbtConfig} {val : Option Json}
    (hheight : (integerOf val "height").isSome = true) (h : FieldsAccepted val) :
    Stops E (fields cfg val) := by
  obtain ⟨txa, htxa, hdata⟩ := h.transactions
  have hlist : Stops E (transactions val) := by
    rw [transactions, htxa]
    exact .pure _
  rw [fields]
  exact (stops_integerField hheight).bind fun _ => Stops.modify.bind fun _ =>
    (stops_integerField h.version).bind fun _ => (stops_binaryField h.prevhash).bind fun _ =>
      (stops_integerField h.epochDuration).bind fun _ =>
        (stops_integerField h.curtime).bind fun _ => (stops_binaryField h.bits).bind fun _ =>
          hlist.bind_of fun s txa' s' hrun => by
            rw [transactions_ok hrun] at htxa
            cases htxa
            exact (stops_txSizes hdata).bind fun _ => .pure _

/-! ## The coinbase -/

section

variable {sha256d : Bytes → Hash} {cfg : GbtConfig} {val : Option Json} {txa : List Json}

theorem preserves_buildCoinbase (w : Work) (segwit : Bool) :
    Preserves (fun s => s.work = w) (buildCoinbase sha256d cfg val segwit txa) := by
  by_cases hscript : cfg.pkScriptSize = 0
  · rw [buildCoinbase]
    rw [if_pos hscript]
    simp only [throw_bind]
    split
    · exact Preserves.bind (Preserves.modify fun s hs => hs) fun _ => .throw _
    · exact .throw _
  · exact (reads_buildCoinbase hscript sha256d val segwit txa).preserves _

/-- The coinbase is built without touching the record. -/
theorem preserves_coinbase (w : Work) :
    Preserves (fun s => s.work = w) (coinbase sha256d cfg val txa) := by
  rw [coinbase]
  split
  · refine ((stateless_serverCoinbase _ _).preserves _).bind fun _ => ?_
    simp only
    split
    · exact (stateless_appendCoinbase _ _ _ _).preserves _
    · exact .pure _
  · exact (preserves_buildCoinbase w _).bind fun _ =>
      (stateless_appendCoinbase _ _ _ _).preserves _

theorem serverCoinbase_cases (cfg : GbtConfig) (coinbasetxn : Json) :
    (ServerCoinbaseAccepted coinbasetxn ∧ ∃ r, serverCoinbase cfg coinbasetxn = pure r) ∨
      ¬ServerCoinbaseAccepted coinbasetxn ∧
        serverCoinbase cfg coinbasetxn = throw (.out "JSON invalid coinbasetxn") := by
  unfold serverCoinbase ServerCoinbaseAccepted
  cases hhex : jsonStringValue (jsonObjectGet (some coinbasetxn) "data") with
  | none => exact .inr ⟨nofun, rfl⟩
  | some hex =>
      simp only
      split
      · next hshort =>
          refine .inr ⟨?_, rfl⟩
          rintro ⟨_, ⟨⟩, hlong, -⟩
          omega
      · next hlong =>
          have hfits := hex2bin_fst (malloc cfg.heap (hex.length / 2 + 100)) (some hex)
            (hex.length / 2)
          rcases hrun : hex2bin (malloc cfg.heap (hex.length / 2 + 100)) (some hex)
            (hex.length / 2) with ⟨_ | _, out⟩
          · rw [hrun] at hfits
            refine .inr ⟨?_, rfl⟩
            rintro ⟨_, ⟨⟩, -, haccept⟩
            rw [← hfits] at haccept
            cases haccept
          · rw [hrun] at hfits
            exact .inl ⟨⟨hex, rfl, by omega, hfits.symm⟩, _, rfl⟩

theorem coinbaseValue_cases (val : Option Json) :
    (((∃ i, jsonObjectGet val "coinbasevalue" = some (.integer i)) ∨
        ∃ r, jsonObjectGet val "coinbasevalue" = some (.real r)) ∧
      ∃ v, coinbaseValue val = pure v) ∨
    ¬((∃ i, jsonObjectGet val "coinbasevalue" = some (.integer i)) ∨
        ∃ r, jsonObjectGet val "coinbasevalue" = some (.real r)) ∧
      coinbaseValue val = throw (.out "JSON invalid coinbasevalue") := by
  rw [coinbaseValue]
  cases hj : jsonObjectGet val "coinbasevalue" with
  | none => exact .inr ⟨by simp, rfl⟩
  | some j =>
      cases j with
      | integer i => exact .inl ⟨.inl ⟨i, rfl⟩, _, rfl⟩
      | real r => exact .inl ⟨.inr ⟨r, rfl⟩, _, rfl⟩
      | _ => exact .inr ⟨by simp, rfl⟩

/-- The check on one transaction of the witness tree. -/
def HashAccepted (tx : Json) : Prop :=
  ∃ hash, jsonObjectGet (some tx) "hash" = some hash ∧
    hexFits (jsonStringValue (some hash)) 32 = true

theorem witnessLeaves_ok {wtree wtree' : Bytes} {s s' : GbtState}
    (h : witnessLeaves txa wtree s = .ok wtree' s') : ∀ tx ∈ txa, HashAccepted tx := by
  intro tx htx
  obtain ⟨i, hi⟩ := List.mem_iff_getElem?.mp htx
  obtain ⟨tree, t, tree', t', hrun⟩ :=
    foldlM_ok_mem h (tx, i) (List.mem_zipIdx_iff_getElem?.mpr hi)
  cases hj : jsonObjectGet (some tx) "hash" with
  | none =>
      simp only [hj] at hrun
      exact absurd hrun throw_ok
  | some hash =>
      simp only [hj] at hrun
      obtain ⟨leaf, u, -, hrun⟩ := bind_ok.mp hrun
      have hfits := hex2bin_fst leaf (jsonStringValue (some hash)) 32
      rcases hhex : hex2bin leaf (jsonStringValue (some hash)) 32 with ⟨_ | _, out⟩
      · rw [hhex] at hrun
        exact absurd hrun throw_ok
      · rw [hhex] at hfits
        exact ⟨hash, hj, hfits.symm⟩

/-! ## Stages that can only fault -/

theorem faults_poke (buf : Bytes) (off : Nat) (bs : Bytes) :
    Stops (· = .fault) (poke buf off bs) := by
  rw [poke]
  split
  · exact .pure _
  · exact .throw rfl

theorem faults_peek (buf : Bytes) (off n : Nat) : Stops (· = .fault) (peek buf off n) := by
  rw [peek]
  split
  · exact .pure _
  · exact .throw rfl

theorem faults_mallocInt (bytes : Int) : Stops (· = .fault) (mallocInt bytes) := by
  rw [mallocInt]
  split
  · exact .pure _
  · exact .throw rfl

theorem faults_beginTxs (capacity : Nat) (count cbtx : Bytes) :
    Stops (· = .fault) (beginTxs capacity count cbtx) := by
  rw [beginTxs]
  split
  · exact .modify
  · exact .throw rfl

theorem faults_padLevel (n : Nat) (tree : Bytes) : Stops (· = .fault) (padLevel n tree) := by
  rw [padLevel]
  split
  · exact (faults_peek _ _ _).bind fun _ => faults_poke _ _ _
  · exact .pure _

theorem faults_hashPairs (n : Nat) (tree : Bytes) :
    Stops (· = .fault) (hashPairs sha256d n tree) :=
  Stops.foldlM_mem _ (fun _ _ _ => (faults_peek _ _ _).bind fun _ => faults_poke _ _ _) _

theorem faults_foldTree : ∀ (fuel n : Nat) (tree : Bytes),
    Stops (· = .fault) (foldTree sha256d fuel n tree) := by
  intro fuel
  induction fuel with
  | zero => exact fun _ tree => .pure tree
  | succ fuel ih =>
      intro n tree
      rw [foldTree]
      split
      · exact (faults_padLevel n tree).bind fun tree =>
          (faults_hashPairs _ tree).bind fun tree => ih _ tree
      · exact .pure _

theorem faults_foldMerkleTree (fuel n : Nat) (tree : Bytes) :
    Stops (· = .fault) (foldMerkleTree sha256d fuel n tree) := by
  rw [foldMerkleTree_eq]
  exact faults_foldTree fuel n tree

theorem faults_pushHeight : ∀ (fuel : Nat) (n : Int) (cbtx : Bytes) (size : Nat),
    Stops (· = .fault) (pushHeight fuel n cbtx size) := by
  intro fuel
  induction fuel with
  | zero => exact fun _ _ _ => .throw rfl
  | succ fuel ih =>
      intro n cbtx size
      rw [pushHeight]
      split
      · exact .pure _
      · refine (faults_poke _ _ _).bind fun cbtx => ?_
        simp only
        split
        · exact (faults_poke _ _ _).bind fun cbtx => ih _ _ _
        · exact ih _ _ _

theorem faults_coinbaseHeight (height : Int) (cbtx : Bytes) :
    Stops (· = .fault) (coinbaseHeight height cbtx) := by
  rw [coinbaseHeight]
  split
  · exact (faults_poke _ _ _).bind fun _ => (faults_poke _ _ _).bind fun _ => .pure _
  · exact (faults_pushHeight _ _ _ _).bind fun _ => (faults_poke _ _ _).bind fun _ => .pure _

theorem faults_witnessLeaves {wtree : Bytes} (h : ∀ tx ∈ txa, HashAccepted tx) :
    Stops (· = .fault) (witnessLeaves txa wtree) := by
  refine Stops.foldlM_mem _ (fun wtree (tx, i) hi => ?_) _
  obtain ⟨hash, hj, hfits⟩ :=
    h tx (List.fst_mem_of_mem_zipIdx hi)
  simp only [hj]
  refine (faults_peek _ _ _).bind fun leaf => ?_
  rw [← hex2bin_fst leaf] at hfits
  rcases hhex : hex2bin leaf (jsonStringValue (some hash)) 32 with ⟨_ | _, out⟩
  · rw [hhex] at hfits
    cases hfits
  · exact faults_poke _ _ _

theorem faults_witnessOutput (h : ∀ tx ∈ txa, HashAccepted tx) (cbtx : Bytes) (size : Nat) :
    Stops (· = .fault) (witnessOutput sha256d txa cbtx size) :=
  (faults_poke _ _ _).bind fun _ => (faults_poke _ _ _).bind fun _ =>
    (faults_witnessLeaves h).bind fun _ => (faults_foldTree _ _ _).bind fun _ =>
      (faults_poke _ _ _).bind fun _ => (faults_peek _ _ _).bind fun _ =>
        (faults_poke _ _ _).bind fun _ => .pure _

theorem faults_writeExtra (pushLen : Nat) (xsig : Bytes) (ssigEnd : Nat) (cbtx : Bytes) :
    Stops (· = .fault) (writeExtra pushLen xsig ssigEnd cbtx) := by
  rw [writeExtra]
  split
  · exact (faults_poke _ _ _).bind fun _ => (faults_poke _ _ _).bind fun _ => faults_poke _ _ _
  · split
    · exact (faults_poke _ _ _).bind fun _ => faults_poke _ _ _
    · exact faults_poke _ _ _

theorem faults_insertExtra (scriptLen : UInt8) (pushLen : Nat) (xsig cbtx : Bytes)
    (size : Nat) : Stops (· = .fault) (insertExtra scriptLen pushLen xsig cbtx size) := by
  rw [insertExtra]
  split
  · exact .throw rfl
  · exact (faults_peek _ _ _).bind fun _ => (faults_poke _ _ _).bind fun _ =>
      (faults_poke _ _ _).bind fun _ => (faults_writeExtra _ _ _ _).bind fun _ => .pure _

theorem faults_appendCoinbase (cbtx : Bytes) (size : Nat) :
    Stops (· = .fault) (appendCoinbase cfg val cbtx size) := by
  rw [appendCoinbase_eq]
  refine (faults_peek _ _ _).bind fun script => ?_
  simp only
  split
  · exact .pure _
  · exact faults_insertExtra _ _ _ _ _

theorem faults_buildCoinbase (h : OwnCoinbaseAccepted cfg val txa) :
    Stops (· = .fault) (buildCoinbase sha256d cfg val (segwit val) txa) := by
  unfold buildCoinbase
  rw [if_neg h.script]
  have hvalue : Stops (· = .fault) (coinbaseValue val) := by
    rcases coinbaseValue_cases val with ⟨-, v, hv⟩ | ⟨hv, -⟩
    · rw [hv]
      exact .pure _
    · exact absurd h.value hv
  refine hvalue.bind fun _ => (faults_poke _ _ _).bind fun _ => (faults_poke _ _ _).bind fun _ =>
    (faults_poke _ _ _).bind fun _ => (faults_poke _ _ _).bind fun _ => Stops.get.bind fun _ =>
      (faults_coinbaseHeight _ _).bind fun (_, _) => (faults_poke _ _ _).bind fun _ =>
        (faults_poke _ _ _).bind fun _ => (faults_poke _ _ _).bind fun _ =>
          (faults_poke _ _ _).bind fun _ => (faults_poke _ _ _).bind fun _ =>
            (faults_poke _ _ _).bind fun _ => (faults_peek _ _ _).bind fun _ =>
              (faults_poke _ _ _).bind fun _ => ?_
  simp only
  split
  · next hsegwit =>
      exact (faults_witnessOutput (h.hashes hsegwit) _ _).bind fun _ =>
        (faults_poke _ _ _).bind fun _ => .pure _
  · exact (faults_poke _ _ _).bind fun _ => .pure _

theorem faults_coinbase (h : CoinbaseAccepted cfg val txa) :
    Stops (· = .fault) (coinbase sha256d cfg val txa) := by
  rw [CoinbaseAccepted] at h
  rw [coinbase]
  split
  · next coinbasetxn hj =>
      rw [hj] at h
      rcases serverCoinbase_cases cfg coinbasetxn with ⟨-, r, hr⟩ | ⟨hc, -⟩
      · rw [hr, pure_bind]
        simp only
        split
        · exact faults_appendCoinbase _ _
        · exact .pure _
      · exact absurd h hc
  · next hj =>
      rw [hj] at h
      exact (faults_buildCoinbase h).bind fun _ => faults_appendCoinbase _ _

theorem buildCoinbase_accepted {r : Bytes × Nat} {s s' : GbtState}
    (h : buildCoinbase sha256d cfg val (segwit val) txa s = .ok r s') :
    OwnCoinbaseAccepted cfg val txa := by
  rw [buildCoinbase] at h
  by_cases hscript : cfg.pkScriptSize = 0
  · rw [if_pos hscript] at h
    simp only [throw_bind] at h
    split at h
    · obtain ⟨_, _, -, h⟩ := bind_ok.mp h
      exact absurd h throw_ok
    · exact absurd h throw_ok
  · rw [if_neg hscript] at h
    obtain ⟨v, _, hvalue, h⟩ := bind_ok.mp h
    refine ⟨hscript, ?_, fun hsegwit => ?_⟩
    · rcases coinbaseValue_cases val with ⟨hv, -⟩ | ⟨-, hv⟩
      · exact hv
      · rw [hv] at hvalue
        exact absurd hvalue throw_ok
    · -- down to the second output, which is where the hashes are read
      obtain ⟨_, _, -, h⟩ := bind_ok.mp h
      obtain ⟨_, _, -, h⟩ := bind_ok.mp h
      obtain ⟨_, _, -, h⟩ := bind_ok.mp h
      obtain ⟨_, _, -, h⟩ := bind_ok.mp h
      obtain ⟨_, _, -, h⟩ := bind_ok.mp h
      obtain ⟨⟨_, _⟩, _, -, h⟩ := bind_ok.mp h
      obtain ⟨_, _, -, h⟩ := bind_ok.mp h
      obtain ⟨_, _, -, h⟩ := bind_ok.mp h
      obtain ⟨_, _, -, h⟩ := bind_ok.mp h
      obtain ⟨_, _, -, h⟩ := bind_ok.mp h
      obtain ⟨_, _, -, h⟩ := bind_ok.mp h
      obtain ⟨_, _, -, h⟩ := bind_ok.mp h
      obtain ⟨_, _, -, h⟩ := bind_ok.mp h
      obtain ⟨_, _, -, h⟩ := bind_ok.mp h
      simp only [hsegwit, if_true] at h
      obtain ⟨_, _, houtput, -⟩ := bind_ok.mp h
      rw [witnessOutput] at houtput
      obtain ⟨_, _, -, houtput⟩ := bind_ok.mp houtput
      obtain ⟨_, _, -, houtput⟩ := bind_ok.mp houtput
      obtain ⟨_, _, hleaves, -⟩ := bind_ok.mp houtput
      exact witnessLeaves_ok hleaves

theorem coinbase_accepted {r : Bytes × Nat} {s s' : GbtState}
    (h : coinbase sha256d cfg val txa s = .ok r s') : CoinbaseAccepted cfg val txa := by
  rw [CoinbaseAccepted]
  rw [coinbase] at h
  cases hj : jsonObjectGet val "coinbasetxn" with
  | none =>
      rw [hj] at h
      obtain ⟨_, _, hbuild, -⟩ := bind_ok.mp h
      exact buildCoinbase_accepted hbuild
  | some coinbasetxn =>
      rw [hj] at h
      obtain ⟨_, _, hserver, -⟩ := bind_ok.mp h
      rcases serverCoinbase_cases cfg coinbasetxn with ⟨hc, -⟩ | ⟨-, hc⟩
      · exact hc
      · rw [hc] at hserver
        exact absurd hserver throw_ok

/-! ## Behind the coinbase -/

/-- The height of the template, and transactions that begin with their number. -/
def Begun (height : Int) (txa : List Json) (s : GbtState) : Prop :=
  s.work.height = height ∧ ∃ block,
    s.work.txs = some (bin2hex (varintEncode (UInt64.ofNat (1 + txa.length))) ++ block)

theorem appendTx_stop {capacity : Nat} {hex : Option Bytes} {s s' : GbtState} {e : GbtStop}
    (h : appendTx capacity hex s = .error e s') : s' = s := by
  rw [appendTx] at h
  rcases bind_error.mp h with hget | ⟨_, _, hget, h⟩
  · cases hget
  · cases hget
    cases htxs : s.work.txs with
    | none =>
        rw [htxs] at h
        exact (throw_error.mp h).2.symm
    | some txs =>
        cases hex with
        | none =>
            rw [htxs] at h
            exact (throw_error.mp h).2.symm
        | some hex =>
            rw [htxs] at h
            simp only at h
            split at h
            · exact absurd h modify_error
            · exact (throw_error.mp h).2.symm

theorem preserves_appendTx (height : Int) (capacity : Nat) (hex : Option Bytes) :
    Preserves (Begun height txa) (appendTx capacity hex) := by
  intro s hs
  cases hrun : appendTx capacity hex s with
  | ok u s' =>
      obtain ⟨hheight, block, hblock⟩ := hs
      obtain ⟨txs, hex', htxs, -, rfl⟩ := appendTx_ok hrun
      rw [htxs] at hblock
      cases hblock
      exact ⟨hheight, block ++ hex', by rw [← List.append_assoc]; rfl⟩
  | error e s' =>
      obtain rfl := appendTx_stop hrun
      exact hs

theorem merkleRoot_begun {height txSize : Int} {size : Nat} {cbtx : Bytes} {s : GbtState}
    (h : s.work.height = height) :
    StopsWith .fault (merkleRoot sha256d cfg val txa txSize cbtx size) s ∨
      Begun height txa (finalState (merkleRoot sha256d cfg val txa txSize cbtx size s)) := by
  unfold merkleRoot
  refine (faults_mallocInt _).or_bind fun capacity t₁ hmalloc => (faults_peek _ _ _).or_bind
    fun cbtx' t₂ hpeek => (faults_beginTxs _ _ _).or_bind fun _ t₃ hbegin => .inr ?_
  have hbegun : Begun height txa t₃ := by
    obtain ⟨rfl, -⟩ := (stateless_mallocInt _).ok_state hmalloc
    obtain ⟨rfl, -⟩ := (stateless_peek _ _ _).ok_state hpeek
    rw [beginTxs_ok hbegin]
    exact ⟨h, _, rfl⟩
  refine Preserves.bind ((stateless_mallocInt _).preserves _) (fun treeSize =>
    Preserves.bind ((stateless_poke _ _ _).preserves _) fun tree => Preserves.bind
      (Preserves.foldlM (fun tree (tx, i) => ?_) _ _) fun tree =>
        ((stateless_foldMerkleTree _ _ _ _).bind fun tree => stateless_peek _ _ _).preserves _)
    t₃ hbegun
  refine ((stateless_peek _ _ _).preserves _).bind fun old =>
    ((stateless_merkleLeaf _ _ _ _ _).preserves _).bind fun leaf =>
      ((stateless_poke _ _ _).preserves _).bind fun tree => ?_
  split
  · exact (preserves_appendTx _ _ _).bind fun _ => .pure _
  · exact .pure _

/-- What follows the transactions leaves them and the height alone. -/
theorem preserves_rest (height : Int) (f : Fields) (root : Bytes) :
    Preserves (Begun height txa) (do
      assembleHeader sha256d f root
      readTarget cfg val
      readWorkid val
      longPolling cfg val) := by
  refine Preserves.bind ?_ fun _ => Preserves.bind ?_ fun _ => Preserves.bind ?_ fun _ => ?_
  · unfold assembleHeader
    split
    · exact .throw _
    · exact .modify fun _ ⟨hheight, hblock⟩ => ⟨hheight, hblock⟩
  · exact ((stateless_binaryField _ _ _ _ _).preserves _).bind fun _ =>
      .modify fun _ ⟨hheight, hblock⟩ => ⟨hheight, hblock⟩
  · unfold readWorkid
    split
    · exact .pure _
    · exact .modify fun _ ⟨hheight, hblock⟩ => ⟨hheight, hblock⟩
    · exact .throw _
  · unfold longPolling
    split
    · refine Preserves.bind (.modify fun _ ⟨hheight, hblock⟩ => ⟨hheight, hblock⟩) fun _ =>
        Preserves.get.bind fun s => ?_
      split
      · exact .modify fun _ ⟨hheight, hblock⟩ => ⟨hheight, hblock⟩
      · exact .pure _
    · exact .pure _

end

end Gbt

/-! ## The whole function -/

section

variable {sha256d : Bytes → Hash} {cfg : GbtConfig} {val : Option Json} {s s' : GbtState}
  {log : String}

/-- A template with a height that is rejected before its transactions are taken
over has written the height. -/
theorem rejected_early {height : Int} (hheight : integerOf val "height" = some height)
    (htakes : ¬TakesTransactions cfg val)
    (h : gbtWorkDecode sha256d cfg val s = .error (.out log) s') :
    s'.work = { s.work with height := height.bmod (2 ^ 32) } := by
  have hfinal := Gbt.fields_final cfg hheight s
  rw [gbtWorkDecode] at h
  rcases bind_error.mp h with h | ⟨f, t, hf, h⟩
  · rw [h] at hfinal
    rw [show s' = _ from hfinal]
    rfl
  · rw [hf] at hfinal
    obtain ⟨hfields, htxa⟩ := Gbt.fields_accepted hf
    rcases bind_error.mp h with h | ⟨r, u, hr, -⟩
    · have hkept : (finalState (Gbt.coinbase sha256d cfg val f.txa t)).work = t.work :=
        Gbt.preserves_coinbase t.work t rfl
      rw [h] at hkept
      rw [show s'.work = t.work from hkept, show t = _ from hfinal]
      rfl
    · exact absurd ⟨hfields, f.txa, htxa, Gbt.coinbase_accepted hr⟩ htakes

/-- One that is rejected later has written its height and its transactions. -/
theorem rejected_late {height : Int} (hheight : integerOf val "height" = some height)
    (htakes : TakesTransactions cfg val)
    (h : gbtWorkDecode sha256d cfg val s = .error (.out log) s') :
    s'.work.height = height.bmod (2 ^ 32) ∧ HoldsBlock val s'.work := by
  obtain ⟨hfields, txa, htxa, hcoinbase⟩ := htakes
  have hfinal := Gbt.fields_final cfg hheight s
  unfold gbtWorkDecode at h
  rcases bind_error.mp h with h | ⟨f, t, hf, h⟩
  · exact absurd (Gbt.stops_fields (E := (· = .fault)) (by rw [hheight]; rfl) hfields _ _ _ h) nofun
  · rw [hf] at hfinal
    obtain rfl : txa = f.txa := by
      have htxa' := (Gbt.fields_accepted hf).2
      rw [htxa] at htxa'
      cases htxa'
      rfl
    rcases bind_error.mp h with h | ⟨⟨cbtx, size⟩, u, hr, h⟩
    · exact absurd (Gbt.faults_coinbase hcoinbase _ _ _ h) nofun
    · have hkept : (finalState (Gbt.coinbase sha256d cfg val f.txa t)).work = t.work :=
        Gbt.preserves_coinbase t.work t rfl
      rw [hr] at hkept
      have hu : u.work.height = height.bmod (2 ^ 32) := by
        rw [show u.work = t.work from hkept, show t = _ from hfinal]
        rfl
      have hbegun : Gbt.Begun (height.bmod (2 ^ 32)) f.txa s' := by
        rcases @Gbt.merkleRoot_begun sha256d cfg val f.txa _ f.txSize size cbtx u hu with
          ⟨v, hv⟩ | hv
        · rcases bind_error.mp h with h | ⟨root, v', hroot, -⟩
          · rw [hv] at h
            cases h
          · rw [hv] at hroot
            cases hroot
        · rcases bind_error.mp h with h | ⟨root, v', hroot, h⟩
          · rw [h] at hv
            exact hv
          · rw [hroot] at hv
            have hrest := @Gbt.preserves_rest sha256d cfg val f.txa _ f root v' hv
            rw [h] at hrest
            exact hrest
      obtain ⟨hh, block, hblock⟩ := hbegun
      exact ⟨hh, f.txa, block, htxa, hblock⟩

/-- A template that is rejected in time leaves the record as it was; and one
that is not leaves it so only if it holds a block of as many transactions. -/
theorem gbt_failure_atomic (h : gbtWorkDecode sha256d cfg val s = .error (.out log) s') :
    (RejectedInTime cfg val s.work → SameRecord s.work s'.work) ∧
      (SameRecord s.work s'.work → RejectedInTime cfg val s.work ∨ HoldsBlock val s.work) := by
  cases hheight : integerOf val "height" with
  | none =>
      have hs : s' = s := by
        rw [gbtWorkDecode] at h
        rcases bind_error.mp h with h | ⟨f, t, hf, -⟩
        · rw [Gbt.fields_none hheight] at h
          cases h
          rfl
        · rw [Gbt.fields_none hheight] at hf
          cases hf
      exact ⟨fun _ => hs ▸ .refl _, fun _ => .inl (.inl hheight)⟩
  | some height =>
      by_cases htakes : TakesTransactions cfg val
      · obtain ⟨hh, txa, block, htxa, hblock⟩ := rejected_late hheight htakes h
        constructor
        · rintro (hnone | ⟨_, -, -, hnot⟩)
          · rw [hheight] at hnone
            cases hnone
          · exact absurd htakes hnot
        · intro hsame
          exact .inr ⟨txa, block, htxa, hsame.txs ▸ hblock⟩
      · have hwork := rejected_early hheight htakes h
        constructor
        · rintro (hnone | ⟨height', hheight', hsame, -⟩)
          · rw [hheight] at hnone
            cases hnone
          · rw [hheight] at hheight'
            cases hheight'
            rw [hwork, ← hsame]
            exact .refl _
        · intro hsame
          refine .inl (.inr ⟨height, hheight, ?_, htakes⟩)
          rw [← hsame.height, hwork]

end

/-! ## A header without its target

The next block's template, with its target missing, on the record of this one. -/

def untargetedTemplate : Json := .object
  [("height", .integer 101), ("version", .integer 1),
    ("previousblockhash", .string (List.replicate 64 50)),
    ("rx_epoch_duration", .integer 604800), ("curtime", .integer 1708560600),
    ("bits", .string (List.replicate 8 49)), ("transactions", .array []),
    ("coinbasetxn", .object [("data", .string (List.replicate 120 50))])]

def untargetedRun : EStateM.Result GbtStop GbtState Unit :=
  gbtWorkDecode sampleHash sampleConfig (some untargetedTemplate) sampleFilled

theorem untargetedRun_error :
    untargetedRun = .error (.out "JSON invalid target") (finalState untargetedRun) :=
  error_of_stoppedBy (by decide +kernel)

theorem gbt_failure_atomic_untargeted :
    (RejectedInTime sampleConfig (some untargetedTemplate) sampleFilled.work →
      SameRecord sampleFilled.work (finalState untargetedRun).work) ∧
    (SameRecord sampleFilled.work (finalState untargetedRun).work →
      RejectedInTime sampleConfig (some untargetedTemplate) sampleFilled.work ∨
        HoldsBlock (some untargetedTemplate) sampleFilled.work) :=
  gbt_failure_atomic untargetedRun_error

/-- The decoding fails, and the record has the new height, transactions and
header with the old target. -/
theorem gbt_failure_mixes :
    ∃ s', gbtWorkDecode sampleHash sampleConfig (some untargetedTemplate) sampleFilled =
        .error (.out "JSON invalid target") s' ∧
      s'.work.height = 101 ∧ sampleFilled.work.height = 100 ∧
      s'.work.data ≠ sampleFilled.work.data ∧ s'.work.txs ≠ sampleFilled.work.txs ∧
      s'.work.target = sampleFilled.work.target ∧ ¬SameRecord sampleFilled.work s'.work := by
  refine ⟨_, untargetedRun_error, by decide +kernel, by decide +kernel, by decide +kernel,
    by decide +kernel, by decide +kernel, fun h => ?_⟩
  exact absurd h.height (by decide +kernel)

end AlphaMiner
