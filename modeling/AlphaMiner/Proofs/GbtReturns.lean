import AlphaMiner.Proofs.TxsBuffer

/-!
# When a template is decoded at all

The integers of a template are checked to be integers and no more. Two of them
can do harm: a height that is negative as an `int`, to the loop that serialises
it, and an epoch of zero seconds, or of a multiple of 2³², to the division by
it. Each is reached only if nothing in front of it has given up, so that
`finishes_iff`, which says exactly which templates the function comes back from,
is about the order of its checks as well. The two overruns, of the coinbase and
of the transactions, and the sizes that no `int` holds are conditions in it like
the others, because a run that has left a buffer does not return by any rule of
the language.
-/

namespace AlphaMiner

open Lib

namespace Gbt

/-! ## Behind the coinbase -/

/-- Every transaction has a leaf. -/
def LeavesAccepted (val : Option Json) (txa : List Json) : Prop :=
  ∀ tx ∈ txa, leafAccepted (segwit val) tx = true

section

variable {sha256d : Bytes → Hash} {cfg : GbtConfig} {val : Option Json} {txa : List Json}
  {s : GbtState}

theorem faults_appendTx (capacity : Nat) (hex : Option Bytes) :
    Stops (· = .fault) (appendTx capacity hex) := by
  rw [appendTx]
  refine Stops.get.bind fun s => ?_
  split
  · split
    · exact .modify
    · exact .throw rfl
  · exact .throw rfl

theorem faults_merkleLeaf {heap : Nat → UInt8} {old : Bytes} (hold : old.length = 32) {tx : Json}
    (h : leafAccepted (segwit val) tx = true) :
    Stops (· = .fault) (merkleLeaf sha256d heap (segwit val) old tx) := by
  obtain ⟨-, leaf, hpure, -⟩ | ⟨hreject, -⟩ := merkleLeaf_cases sha256d heap (segwit val) hold tx
  · rw [hpure]
    exact .pure leaf
  · rw [h] at hreject
    cases hreject

theorem faults_merkleRoot (h : LeavesAccepted val txa) (txSize : Int) (cbtx : Bytes) (size : Nat) :
    Stops (· = .fault) (merkleRoot sha256d cfg val txa txSize cbtx size) := by
  unfold merkleRoot
  simp only
  refine (faults_mallocInt _).bind fun _ => (faults_peek _ _ _).bind fun _ =>
    (faults_beginTxs _ _ _).bind fun _ => (faults_mallocInt _).bind fun _ =>
      (faults_poke _ _ _).bind fun _ => (Stops.foldlM_mem _ (fun tree (tx, i) hi => ?_) _).bind
        fun _ => (faults_foldMerkleTree _ _ _).bind fun _ => faults_peek _ _ _
  refine (faults_peek _ _ _).bind_of fun _ old _ hpeek => ?_
  obtain ⟨hfit, rfl⟩ := peek_ok hpeek
  refine (faults_merkleLeaf (length_slice hfit) (h tx (List.fst_mem_of_mem_zipIdx hi))).bind
    fun _ => (faults_poke _ _ _).bind fun _ => ?_
  split
  · exact (faults_appendTx _ _).bind fun _ => .pure _
  · exact .pure _

theorem merkleRoot_accepted {txSize : Int} {size : Nat} {cbtx root : Bytes} {t : GbtState}
    (h : merkleRoot sha256d cfg val txa txSize cbtx size s = .ok root t) :
    LeavesAccepted val txa := by
  intro tx htx
  obtain ⟨i, hi⟩ := List.mem_iff_getElem?.mp htx
  rw [merkleRoot] at h
  obtain ⟨_, _, -, h⟩ := bind_ok.mp h
  obtain ⟨_, _, -, h⟩ := bind_ok.mp h
  obtain ⟨_, _, -, h⟩ := bind_ok.mp h
  obtain ⟨_, _, -, h⟩ := bind_ok.mp h
  obtain ⟨_, _, -, h⟩ := bind_ok.mp h
  obtain ⟨_, _, hloop, -⟩ := bind_ok.mp h
  obtain ⟨tree, t₁, tree', t₂, hround⟩ :=
    foldlM_ok_mem hloop (tx, i) (List.mem_zipIdx_iff_getElem?.mpr hi)
  obtain ⟨old, t₃, hpeek, hround⟩ := bind_ok.mp hround
  obtain ⟨hfit, rfl⟩ := peek_ok hpeek
  obtain ⟨leaf, t₄, hleaf, -⟩ := bind_ok.mp hround
  obtain ⟨haccept, -⟩ | ⟨-, log, hout⟩ :=
    merkleLeaf_cases sha256d cfg.heap (segwit val) (length_slice hfit) tx
  · exact haccept
  · rw [hout] at hleaf
    exact absurd hleaf throw_ok

theorem sound_readTarget : Stops (· ≠ .fault) (readTarget cfg val) := by
  have hbinary : Stops (· ≠ .fault)
      (binaryField cfg.heap val "target" "JSON invalid target" 32) := by
    rw [binaryField]
    split
    · exact .pure _
    · exact .throw out_ne_fault
  exact hbinary.bind fun _ => Stops.modify

theorem sound_readWorkid : Stops (· ≠ .fault) (readWorkid val) := by
  rw [readWorkid]
  split
  · exact .pure _
  · exact Stops.modify
  · exact .throw out_ne_fault

theorem sound_longPolling : Stops (· ≠ .fault) (longPolling cfg val) := by
  rw [longPolling]
  split
  · refine Stops.modify.bind fun _ => Stops.get.bind fun _ => ?_
    split
    · exact Stops.modify
    · exact .pure _
  · exact .pure _

/-- The division is all that can fault behind the transactions. -/
theorem header_faults (f : Fields) (root : Bytes) :
    StopsWith .fault (assembleHeader sha256d f root >>= fun _ => readTarget cfg val >>= fun _ =>
      readWorkid val >>= fun _ => longPolling cfg val) s ↔ f.epochDuration = 0 := by
  rw [assembleHeader]
  by_cases hzero : f.epochDuration = 0
  · rw [if_pos hzero, throw_bind]
    exact iff_of_true (stopsWith_throw.2 rfl) hzero
  · rw [if_neg hzero]
    have hsound : Stops (· ≠ .fault) (readTarget cfg val >>= fun _ => readWorkid val >>= fun _ =>
        longPolling cfg val) :=
      sound_readTarget.bind fun _ => sound_readWorkid.bind fun _ => sound_longPolling
    exact iff_of_false ((Stops.modify.bind fun _ => hsound).excludes (not_not.2 rfl)) hzero

/-! ## The whole function -/

/-- What a template has to be like for the function to come back: its coinbase is
safe, the blocks for its transactions have a size that is an `int`, the data that is
copied has been counted, and the duration of an epoch is not zero as a word; each where
the checks in front of it let it be reached. -/
def DecodeSafe (cfg : GbtConfig) (val : Option Json) : Prop :=
  ∀ height, integerOf val "height" = some height → FieldsAccepted val →
    CoinbaseSafe cfg val (height.bmod (2 ^ 32)) ∧
    ∀ txa, jsonObjectGet val "transactions" = some (.array txa) → CoinbaseAccepted cfg val txa →
      TxsFit cfg val txa ∧
      (LeavesAccepted val txa → ∀ duration, integerOf val "rx_epoch_duration" = some duration →
        UInt32.ofInt duration ≠ 0)

theorem fields_no_fault : ¬StopsWith .fault (fields cfg val) s := by
  have hinteger : ∀ key log, Stops (· ≠ .fault) (integerField val key log) := by
    intro key log
    rw [integerField]
    split
    · exact .pure _
    · exact .throw out_ne_fault
  have hbinary : ∀ key log n, Stops (· ≠ .fault) (binaryField cfg.heap val key log n) := by
    intro key log n
    rw [binaryField]
    split
    · exact .pure _
    · exact .throw out_ne_fault
  have hlist : Stops (· ≠ .fault) (transactions val) := by
    rw [transactions]
    split
    · exact .pure _
    · exact .throw out_ne_fault
  have hsizes : ∀ txa, Stops (· ≠ .fault) (txSizes txa) := by
    intro txa
    refine Stops.foldlM_mem txa (fun size tx _ => ?_) 0
    split
    · exact .pure _
    · exact .throw out_ne_fault
  refine Stops.excludes (E := (· ≠ .fault)) ?_ (not_not.2 rfl)
  exact (hinteger _ _).bind fun _ => Stops.modify.bind fun _ => (hinteger _ _).bind fun _ =>
    (hbinary _ _ _).bind fun _ => (hinteger _ _).bind fun _ => (hinteger _ _).bind fun _ =>
      (hbinary _ _ _).bind fun _ => hlist.bind fun _ => (hsizes _).bind fun _ => .pure _

theorem txsFit_iff {f : Fields} {t : GbtState} (hfields : fields cfg val s = .ok f t)
    {cbtx : Bytes} {size : Nat} (hsize : size = coinbaseSize cfg val (templateHeight val))
    (hroom : size ≤ cbtx.length) {t' : GbtState} :
    StopsWith .fault (merkleRoot sha256d cfg val f.txa f.txSize cbtx size) t' ↔
      ¬TxsFit cfg val f.txa := by
  obtain ⟨hdata, htxSize⟩ := fields_txSize hfields
  rw [merkleRoot_faults hdata hroom, htxSize, hsize]
  exact not_congr ⟨fun h => ⟨h.1, h.2⟩, fun h => ⟨h.sizes, h.copy⟩⟩

/-- A run that comes to a fault comes to it by one of the three ways. -/
theorem not_decodeSafe_of_stops (hpk : ScriptThere cfg)
    (h : StopsWith .fault (gbtWorkDecode sha256d cfg val) s) : ¬DecodeSafe cfg val := by
  intro hsafe
  rw [gbtWorkDecode] at h
  rcases stopsWith_bind.1 h with h | ⟨f, t, hfields, h⟩
  · exact fields_no_fault h
  obtain ⟨height, hheight, ht⟩ := fields_state hfields
  obtain ⟨haccepted, htxa⟩ := fields_accepted hfields
  obtain ⟨hcoinbaseSafe, hsafe⟩ := hsafe height hheight haccepted
  have hlt : t.work.height < 2 ^ 31 := ht ▸ withHeight_lt height s
  rcases stopsWith_bind.1 h with h | ⟨⟨cbtx, size⟩, t', hcoinbase, h⟩
  · refine (coinbase_faults hpk hlt).1 h ?_
    rw [ht]
    exact hcoinbaseSafe
  obtain ⟨hfit, hduration⟩ := hsafe f.txa htxa (coinbase_accepted hcoinbase)
  obtain ⟨hsize, hroom⟩ := coinbase_room hpk hlt hcoinbase
  rw [ht, withHeight_height hheight] at hsize
  rcases stopsWith_bind.1 h with h | ⟨root, t₃, hroot, h⟩
  · exact (txsFit_iff hfields hsize hroom).1 h hfit
  · obtain ⟨duration, _, hget, -, heq, -⟩ := fields_ok hfields
    have hinteger : integerOf val "rx_epoch_duration" = some duration := by
      rw [integerOf, hget]
    refine hduration (merkleRoot_accepted hroot) duration hinteger ?_
    rw [← heq]
    exact (header_faults f root).1 h

/-- A run that comes to no fault meets each condition where it gets to it. -/
theorem decodeSafe_of_not_stops (hpk : ScriptThere cfg)
    (h : ¬StopsWith .fault (gbtWorkDecode sha256d cfg val) s) : DecodeSafe cfg val := by
  intro height hheight haccepted
  have hsome : (integerOf val "height").isSome = true := by
    rw [hheight]
    rfl
  obtain ⟨f, t, hfields⟩ := (stops_fields (E := (· = .fault)) hsome haccepted).reaches
    (@fields_no_fault cfg val s)
  obtain ⟨height', hheight', ht⟩ := fields_state hfields
  cases hheight.symm.trans hheight'
  have hlt : t.work.height < 2 ^ 31 := ht ▸ withHeight_lt height s
  rw [gbtWorkDecode] at h
  have hrest := fun hstop => h (stopsWith_bind.2 (.inr ⟨f, t, hfields, hstop⟩))
  have hnone : ¬StopsWith .fault (coinbase sha256d cfg val f.txa) t :=
    fun hstop => hrest (stopsWith_bind.2 (.inl hstop))
  have hcoinbaseSafe := not_not.1 (mt (coinbase_faults hpk hlt).2 hnone)
  refine ⟨?_, fun txa htxa hcoinbaseAccepted => ?_⟩
  · rw [ht] at hcoinbaseSafe
    exact hcoinbaseSafe
  have hsame : f.txa = txa := by
    cases (fields_accepted hfields).2.symm.trans htxa
    rfl
  subst hsame
  have hfaults : Stops (· = .fault) (coinbase sha256d cfg val f.txa) :=
    faults_coinbase hcoinbaseAccepted
  obtain ⟨⟨cbtx, size⟩, t', hcoinbase⟩ := hfaults.reaches hnone
  have hbehind := fun hstop => hrest (stopsWith_bind.2 (.inr ⟨(cbtx, size), t', hcoinbase, hstop⟩))
  obtain ⟨hsize, hroom⟩ := coinbase_room hpk hlt hcoinbase
  rw [ht, withHeight_height hheight] at hsize
  have hnotOver : ¬StopsWith .fault (merkleRoot sha256d cfg val f.txa f.txSize cbtx size) t' :=
    fun hstop => hbehind (stopsWith_bind.2 (.inl hstop))
  refine ⟨not_not.1 (mt (txsFit_iff hfields hsize hroom).2 hnotOver), fun hleaves => ?_⟩
  intro duration hduration hzero
  obtain ⟨root, t₃, hroot⟩ :=
    (faults_merkleRoot hleaves f.txSize cbtx size).reaches hnotOver
  refine hbehind (stopsWith_bind.2 (.inr ⟨root, t₃, hroot, (header_faults f root).2 ?_⟩))
  obtain ⟨duration', _, hget, -, heq, -⟩ := fields_ok hfields
  rw [integerOf, hget] at hduration
  cases hduration
  rw [heq, hzero]

/-! ## Templates that are decoded -/

/-- The function comes to the loop over the height. -/
structure MeetsHeight (cfg : GbtConfig) (val : Option Json) (height : Int) : Prop where
  height : integerOf val "height" = some height
  fields : FieldsAccepted val
  own : jsonObjectGet val "coinbasetxn" = none
  script : cfg.pkScriptSize ≠ 0
  value : ValueGiven val

/-- The function returns true, or false with a message, and the loop over the height
ends where it comes to it. -/
def Finishes (sha256d : Bytes → Hash) (cfg : GbtConfig) (val : Option Json) (s : GbtState) :
    Prop :=
  ((∃ s', gbtWorkDecode sha256d cfg val s = .ok () s') ∨
    ∃ log s', gbtWorkDecode sha256d cfg val s = .error (.out log) s') ∧
  ∀ height, MeetsHeight cfg val height → HeightEnds (height.bmod (2 ^ 32))

/-- The function comes back just from the templates that are safe. -/
theorem finishes_iff (sha256d : Bytes → Hash) (hpk : ScriptThere cfg) (val : Option Json)
    (s : GbtState) : Finishes sha256d cfg val s ↔ DecodeSafe cfg val := by
  constructor
  · rintro ⟨hreturns, -⟩
    have hnot : ¬StopsWith .fault (gbtWorkDecode sha256d cfg val) s := by
      rintro ⟨s', hstop⟩
      obtain ⟨t, hrun⟩ | ⟨log, t, hrun⟩ := hreturns
      · rw [hrun] at hstop
        cases hstop
      · rw [hrun] at hstop
        cases hstop
    exact decodeSafe_of_not_stops hpk hnot
  · intro hsafe
    refine ⟨?_, fun height hmeets => ?_⟩
    · cases hrun : gbtWorkDecode sha256d cfg val s with
      | ok u t => exact .inl ⟨t, rfl⟩
      | error e t =>
          cases e with
          | out log => exact .inr ⟨log, t, rfl⟩
          | fault => exact absurd hsafe (not_decodeSafe_of_stops hpk ⟨t, hrun⟩)
    · have hcoinbase := (hsafe height hmeets.height hmeets.fields).1
      rw [CoinbaseSafe, hmeets.own] at hcoinbase
      exact (heightEnds_iff (Int.bmod_lt (by decide))).2 (hcoinbase hmeets.script hmeets.value)

end

theorem finishes_iff_sample :
    Finishes sampleHash sampleConfig (some sampleTemplate) sampleStart ↔
      DecodeSafe sampleConfig (some sampleTemplate) :=
  finishes_iff sampleHash ⟨by decide, by decide⟩ (some sampleTemplate) sampleStart

/-- A template with a coinbase to be built, for a height and the duration of an epoch. -/
def payingTemplate (height duration : Int) : Json := .object
  [("height", .integer height), ("version", .integer 1),
    ("previousblockhash", .string (List.replicate 64 49)),
    ("rx_epoch_duration", .integer duration), ("curtime", .integer 1708560000),
    ("bits", .string (List.replicate 8 49)), ("transactions", .array []),
    ("coinbasevalue", .integer 5000000000), ("target", .string (List.replicate 64 102))]

/-- A negative height, and an epoch of zero seconds. -/
theorem finishes_fails :
    ¬Finishes sampleHash ownConfig (some (payingTemplate (-1) 604800)) sampleStart ∧
      ¬Finishes sampleHash ownConfig (some (payingTemplate 100 0)) sampleStart := by
  constructor
  · rintro ⟨-, hends⟩
    have hmeets : MeetsHeight ownConfig (some (payingTemplate (-1) 604800)) (-1) :=
      ⟨rfl, ⟨rfl, by decide, rfl, rfl, by decide, [], rfl, fun tx htx => by cases htx⟩, rfl,
        by decide, .inl ⟨_, rfl⟩⟩
    exact absurd ((heightEnds_iff (by decide)).1 (hends (-1) hmeets)) (by decide)
  · have hstop : stoppedBy (gbtWorkDecode sampleHash ownConfig (some (payingTemplate 100 0))
        sampleStart) = some .fault := by decide +kernel
    rintro ⟨⟨s', hrun⟩ | ⟨log, s', hrun⟩, -⟩
    · rw [hrun] at hstop
      cases hstop
    · rw [hrun] at hstop
      cases hstop

end Gbt

end AlphaMiner
