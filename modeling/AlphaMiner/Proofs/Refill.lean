import AlphaMiner.Model.Refill
import AlphaMiner.Model.Submit
import AlphaMiner.Proofs.GbtFailure
import AlphaMiner.Proofs.Seed

/-!
# What a successful refill owes to the record it was given

Two records that are filled from one reply should not be told apart afterwards
by what they held before. Of the fields that matter to a miner, a template
writes all but the work id, which it writes only when it has one, and a
`getwork` reply writes only the header and the target. Neither `work_free` nor
a failed attempt sets anything back to `NULL`, so `refill_iff` is what there is
to say: the fields that a reply does not write are the ones that must agree
beforehand. A record that keeps its transactions through a `getwork` reply is
then submitted as a block of the template they came from.
-/

namespace AlphaMiner

open Lib

/-! ## What is wanted, and when it is had -/

/-- The two records are the same work to a miner and to a submission. -/
structure SameWork (w w' : Work) : Prop where
  data : w.data = w'.data
  target : w.target = w'.target
  txs : w.txs = w'.txs
  workid : w.workid = w'.workid

/-- The request that a fresh share of the record makes, with no pool: a block
after a template, and a header after a `getwork` reply. -/
def SubmittedAs (gbt : Bool) (w : Work) : Prop :=
  ∀ host g up call, g.haveStratum = false → stale g w = false →
    submitUpstreamWork host g up w = some call →
      if gbt then ∃ dataStr txs workid, call.sent = some (submitblockReq dataStr txs workid)
      else ∃ dataStr, call.sent = some (getworkReq dataStr)

/-- The fields that the reply does not write agree already. -/
def SameLeftovers (gbt : Bool) (res : Option Json) (w w' : Work) : Prop :=
  if gbt then (jsonObjectGet res "workid").isSome = true ∨ w.workid = w'.workid
  else w.txs = w'.txs ∧ w.workid = w'.workid

/-! ## Templates -/

namespace Gbt

/-- Two states whose records look the same. -/
def Agree {γ : Type} (view : Work → γ) (s t : GbtState) : Prop := view s.work = view t.work

section

variable {sha256d : Bytes → Hash} {cfg : GbtConfig} {val : Option Json} {txa : List Json}

theorem uniform_fields : Uniform (fun _ _ => True) (Agree Work.height) (fields cfg val) := by
  cases hheight : integerOf val "height" with
  | none =>
      intro s t a b s' t' _ hs _
      rw [fields_none hheight] at hs
      cases hs
  | some height =>
      obtain ⟨rest, hrest, heq⟩ := @fields_eq cfg val height hheight
      intro s t a b s' t' _ hs ht
      rw [heq] at hs ht
      exact hrest.uniform (Agree Work.height) (withHeight height s) (withHeight height t) a b
        s' t' rfl hs ht

theorem uniform_coinbase :
    Uniform (Agree Work.height) (Agree Work.height) (coinbase sha256d cfg val txa) := by
  rw [coinbase]
  split
  · refine ((stateless_serverCoinbase _ _).uniform _).bind fun _ => ?_
    simp only
    split
    · exact (stateless_appendCoinbase _ _ _ _).uniform _
    · exact (Stateless.pure _).uniform _
  · refine Uniform.bind ?_ fun _ => (stateless_appendCoinbase _ _ _ _).uniform _
    by_cases hscript : cfg.pkScriptSize = 0
    · intro s t a b s' t' _ hs _
      exact absurd hscript (buildCoinbase_accepted hs).script
    · exact (reads_buildCoinbase hscript sha256d val _ txa).uniform fun s t h => h

theorem uniform_appendTx (capacity : Nat) (hex : Option Bytes) :
    Uniform (Agree Work.txs) (Agree Work.txs) (appendTx capacity hex) := by
  intro s t a b s' t' hst hs ht
  obtain ⟨txs, hex', htxs, rfl, rfl⟩ := appendTx_ok hs
  obtain ⟨txs', _, htxs', ⟨⟩, rfl⟩ := appendTx_ok ht
  rw [Agree, htxs, htxs'] at hst
  cases hst
  exact ⟨rfl, rfl⟩

theorem uniform_beginTxs (capacity : Nat) (count cbtx : Bytes) :
    Uniform (Agree Work.height) (Agree Work.txs) (beginTxs capacity count cbtx) := by
  rw [beginTxs]
  split
  · exact .modify fun _ _ _ => rfl
  · exact .throw _

theorem uniform_merkleRoot (txSize : Int) (size : Nat) (cbtx : Bytes) :
    Uniform (Agree Work.height) (Agree Work.txs)
      (merkleRoot sha256d cfg val txa txSize cbtx size) := by
  unfold merkleRoot
  refine ((stateless_mallocInt _).uniform _).bind fun capacity =>
    ((stateless_peek _ _ _).uniform _).bind fun cbtx =>
      (uniform_beginTxs _ _ _).bind fun _ => ((stateless_mallocInt _).uniform _).bind fun size =>
        ((stateless_poke _ _ _).uniform _).bind fun tree => Uniform.bind ?_ fun tree =>
          ((stateless_foldMerkleTree _ _ _ _).bind fun tree => stateless_peek _ _ _).uniform _
  refine Uniform.foldlM (fun tree (tx, i) => ?_) _ _
  refine ((stateless_peek _ _ _).uniform _).bind fun old =>
    ((stateless_merkleLeaf _ _ _ _ _).uniform _).bind fun leaf =>
      ((stateless_poke _ _ _).uniform _).bind fun tree => ?_
  split
  · exact (uniform_appendTx _ _).bind fun _ => (Stateless.pure _).uniform _
  · exact (Stateless.pure _).uniform _

/-- What a miner and a submission see of the record, the work id left out. -/
def written (w : Work) : Option Bytes × Vector UInt32 32 × Vector UInt32 8 :=
  (w.txs, w.data, w.target)

theorem uniform_rest (f : Fields) (root : Bytes) :
    Uniform (Agree Work.txs) (Agree written) (do
      assembleHeader sha256d f root
      readTarget cfg val
      readWorkid val
      longPolling cfg val) := by
  have hkeep : ∀ {s s' t t' : GbtState}, written s'.work = written s.work →
      written t'.work = written t.work → Agree written s t → Agree written s' t' :=
    fun hs ht h => hs.trans (h.trans ht.symm)
  refine Uniform.bind (S := Agree fun w => (w.txs, w.data)) ?_ fun _ =>
    Uniform.bind (S := Agree written) ?_ fun _ =>
      (Uniform.of_keeps (keeps_readWorkid (fun _ _ => rfl) val) hkeep).bind fun _ =>
        Uniform.of_keeps (keeps_longPolling (fun _ _ => rfl) cfg val) hkeep
  · rw [assembleHeader]
    split
    · exact .throw _
    · exact .modify fun s t h => Prod.ext h rfl
  · refine ((stateless_binaryField _ _ _ _ _).uniform _).bind fun target =>
      .modify fun s t h => ?_
    obtain ⟨htxs, hdata⟩ := Prod.mk.inj h
    exact Prod.ext htxs (Prod.ext hdata rfl)

theorem keeps_merkleRoot {γ : Type} {view : GbtState → γ}
    (hview : ∀ s txs, view { s with work := { s.work with txs := txs } } = view s)
    (txSize : Int) (size : Nat) (cbtx : Bytes) :
    Keeps view (merkleRoot sha256d cfg val txa txSize cbtx size) := by
  have hbegin : ∀ capacity count cbtx, Keeps view (beginTxs capacity count cbtx) := by
    intro capacity count cbtx s u s' h
    rw [beginTxs_ok h, hview]
  unfold merkleRoot
  refine ((stateless_mallocInt _).keeps _).bind fun capacity =>
    ((stateless_peek _ _ _).keeps _).bind fun cbtx => (hbegin _ _ _).bind fun _ =>
      ((stateless_mallocInt _).keeps _).bind fun size =>
        ((stateless_poke _ _ _).keeps _).bind fun tree =>
          Keeps.bind (Keeps.foldlM (fun tree (tx, i) => ?_) _ _) fun tree =>
            ((stateless_foldMerkleTree _ _ _ _).bind fun tree => stateless_peek _ _ _).keeps _
  refine ((stateless_peek _ _ _).keeps _).bind fun old =>
    ((stateless_merkleLeaf _ _ _ _ _).keeps _).bind fun leaf =>
      ((stateless_poke _ _ _).keeps _).bind fun tree => ?_
  split
  · refine Keeps.bind (Keeps.get.bind fun s => ?_) fun _ => .pure _
    split
    · split
      · exact Keeps.modify fun s => hview s _
      · exact .throw _
    · exact .throw _
  · exact .pure _

theorem readWorkid_ok {s s' : GbtState} (h : readWorkid val s = .ok () s') :
    s'.work.workid =
      match jsonObjectGet val "workid" with
      | some j => jsonStringValue (some j)
      | none => s.work.workid := by
  rw [readWorkid] at h
  cases hj : jsonObjectGet val "workid" with
  | none =>
      rw [hj] at h
      obtain ⟨-, rfl⟩ := pure_ok.mp h
      rfl
  | some j =>
      rw [hj] at h
      cases j with
      | string w =>
          rw [modify_ok.mp h]
          rfl
      | _ => exact absurd h throw_ok

end

end Gbt

section

variable {sha256d : Bytes → Hash} {host : ByteOrder} {cfg : GbtConfig} {res : Option Json}
  {s s' t t' : GbtState}

theorem template_written (hs : gbtWorkDecode sha256d cfg res s = .ok () s')
    (ht : gbtWorkDecode sha256d cfg res t = .ok () t') :
    Gbt.written s'.work = Gbt.written t'.work := by
  have huniform : Uniform (fun _ _ => True) (Gbt.Agree Gbt.written)
      (gbtWorkDecode sha256d cfg res) :=
    Gbt.uniform_fields.bind fun f => Gbt.uniform_coinbase.bind fun (cbtx, size) =>
      (Gbt.uniform_merkleRoot _ _ _).bind fun root => Gbt.uniform_rest f root
  exact (huniform s t () () s' t' trivial hs ht).2

/-- A template without a work id leaves the one that the record has. -/
theorem template_workid (h : gbtWorkDecode sha256d cfg res s = .ok () s') :
    s'.work.workid =
      match jsonObjectGet res "workid" with
      | some j => jsonStringValue (some j)
      | none => s.work.workid := by
  rw [gbtWorkDecode] at h
  obtain ⟨f, t₁, hf, h⟩ := bind_ok.mp h
  obtain ⟨⟨cbtx, size⟩, t₂, hcoinbase, h⟩ := bind_ok.mp h
  obtain ⟨root, t₃, hroot, h⟩ := bind_ok.mp h
  obtain ⟨_, t₄, hheader, h⟩ := bind_ok.mp h
  obtain ⟨_, t₅, htarget, h⟩ := bind_ok.mp h
  obtain ⟨_, t₆, hworkid, hpolling⟩ := bind_ok.mp h
  have h₁ : t₁.work.workid = s.work.workid := by
    cases hheight : integerOf res "height" with
    | none =>
        rw [Gbt.fields_none hheight] at hf
        cases hf
    | some height =>
        have hfinal := Gbt.fields_final cfg hheight s
        rw [hf] at hfinal
        rw [show t₁ = _ from hfinal]
        rfl
  have h₂ : t₂.work = t₁.work := by
    have hkept : (finalState (Gbt.coinbase sha256d cfg res f.txa t₁)).work = t₁.work :=
      Gbt.preserves_coinbase t₁.work t₁ rfl
    rwa [hcoinbase] at hkept
  have hkeep₃ : Keeps (fun s => s.work.workid)
      (Gbt.merkleRoot sha256d cfg res f.txa f.txSize cbtx size) :=
    Gbt.keeps_merkleRoot (fun _ _ => rfl) _ _ _
  have h₃ : t₃.work.workid = t₂.work.workid := hkeep₃ _ _ _ hroot
  have h₄ : t₄.work.workid = t₃.work.workid := by
    rw [Gbt.assembleHeader] at hheader
    split at hheader
    · exact absurd hheader throw_ok
    · rw [modify_ok.mp hheader]
  have hkeep₅ : Keeps (fun s => s.work.workid) (Gbt.readTarget cfg res) :=
    Gbt.keeps_readTarget (fun _ _ => rfl) _ _
  have h₅ : t₅.work.workid = t₄.work.workid := hkeep₅ _ _ _ htarget
  have hkeep₆ : Keeps (fun s => s.work.workid) (Gbt.longPolling cfg res) :=
    Gbt.keeps_longPolling (fun _ _ => rfl) _ _
  have h₆ : s'.work.workid = t₆.work.workid := hkeep₆ _ _ _ hpolling
  rw [h₆, Gbt.readWorkid_ok hworkid, h₅, h₄, h₃, h₂, h₁]

/-! ## `getwork` replies -/

/-- A reply that is accepted determines the header and the target, and nothing
else is written. -/
theorem workDecode_ok {w w' : Work} (h : workDecode host res w = (true, w')) :
    w' = { w with
      data := le32decInPlace host
        (host.words 32 (jobjBinary res "data" (List.replicate 128 0) 128).2)
      target := le32decInPlace host
        (host.words 8 (jobjBinary res "target" (List.replicate 32 0) 32).2) } := by
  rw [workDecode] at h
  rcases hdata : jobjBinary res "data" (host.bytes w.data) 128 with ⟨_ | _, data⟩
  · rw [hdata] at h
    cases h
  · rw [hdata] at h
    simp only [Bool.not_true, Bool.false_eq_true, if_false] at h
    rcases htarget : jobjBinary res "target" (host.bytes w.target) 32 with ⟨_ | _, target⟩
    · rw [htarget] at h
      cases h
    · rw [htarget] at h
      cases h
      have hdata' := @jobjBinary_overwrites res "data" (host.bytes w.data)
        (List.replicate 128 0) 128 (ByteOrder.length_bytes _ _) List.length_replicate
        (by rw [hdata])
      have htarget' := @jobjBinary_overwrites res "target" (host.bytes w.target)
        (List.replicate 32 0) 32 (ByteOrder.length_bytes _ _) List.length_replicate
        (by rw [htarget])
      rw [hdata', htarget', hdata, htarget]

/-! ## Submissions -/

theorem submitblockReq_ne_getworkReq (dataStr txs dataStr' : Bytes) (workid : Option Bytes) :
    submitblockReq dataStr txs workid ≠ getworkReq dataStr' := by
  intro h
  have hblock : ascii "\x7b\"method\": \"submitblock\", \"params\": [\"" <+:
      submitblockReq dataStr txs workid := by
    unfold submitblockReq
    rw [List.append_assoc, List.append_assoc]
    exact List.prefix_append _ _
  have hwork : ascii "\x7b\"method\": \"getwork\", \"params\": [ \"" <+:
      getworkReq dataStr' := by
    rw [getworkReq, List.append_assoc]
    exact List.prefix_append _ _
  rw [← h] at hwork
  exact absurd (List.prefix_of_prefix_length_le hwork hblock (by decide)) (by decide)

theorem submitUpstreamWork_sent {g : SubmitGlobals} {up : Upstream} {w : Work}
    {call : Submission} (hstratum : g.haveStratum = false) (hstale : stale g w = false)
    (h : submitUpstreamWork host g up w = some call) :
    match w.txs with
    | some txs => ∃ dataStr, call.sent = some (submitblockReq dataStr txs w.workid)
    | none => ∃ dataStr, call.sent = some (getworkReq dataStr) := by
  rw [submitUpstreamWork] at h
  simp only [hstale, hstratum, Bool.false_eq_true, if_false] at h
  cases htxs : w.txs with
  | some txs =>
      rw [htxs] at h
      cases hreply : up.reply with
      | none =>
          rw [hreply] at h
          cases h
          exact ⟨_, rfl⟩
      | some val =>
          rw [hreply] at h
          cases h
          exact ⟨_, rfl⟩
  | none =>
      rw [htxs] at h
      cases hreply : up.reply with
      | none =>
          rw [hreply] at h
          cases h
          exact ⟨_, rfl⟩
      | some val =>
          rw [hreply] at h
          cases h
          exact ⟨_, rfl⟩

theorem exists_submission (w : Work) : ∃ host g up call, g.haveStratum = false ∧
    stale g w = false ∧ submitUpstreamWork host g up w = some call := by
  have hstale : stale ⟨[], false, true, w⟩ w = false := rfl
  have hsome : (submitUpstreamWork .little ⟨[], false, true, w⟩ ⟨false, none⟩ w).isSome = true := by
    rw [submitUpstreamWork]
    simp only [hstale, Bool.false_eq_true, if_false]
    cases w.txs with
    | some txs => rfl
    | none => rfl
  obtain ⟨call, hcall⟩ := Option.isSome_iff_exists.mp hsome
  exact ⟨.little, _, _, call, rfl, hstale, hcall⟩

/-- The transactions decide, whatever the record came from. -/
theorem submittedAs_iff (gbt : Bool) (w : Work) : SubmittedAs gbt w ↔ gbt = w.txs.isSome := by
  obtain ⟨host, g, up, call, hstratum, hstale, hcall⟩ := exists_submission w
  have hsent := submitUpstreamWork_sent hstratum hstale hcall
  cases htxs : w.txs with
  | some txs =>
      cases gbt with
      | true =>
          refine iff_of_true (fun host g up call hstratum hstale h => ?_) rfl
          have hsent := submitUpstreamWork_sent hstratum hstale h
          rw [htxs] at hsent
          obtain ⟨dataStr, hsent⟩ := hsent
          exact ⟨dataStr, txs, w.workid, hsent⟩
      | false =>
          refine iff_of_false (fun h => ?_) nofun
          obtain ⟨dataStr', hwork⟩ := h host g up call hstratum hstale hcall
          rw [htxs] at hsent
          obtain ⟨dataStr, hblock⟩ := hsent
          rw [hblock] at hwork
          exact submitblockReq_ne_getworkReq _ _ _ _ (Option.some.inj hwork)
  | none =>
      cases gbt with
      | false =>
          refine iff_of_true (fun host g up call hstratum hstale h => ?_) rfl
          have hsent := submitUpstreamWork_sent hstratum hstale h
          rwa [htxs] at hsent
      | true =>
          refine iff_of_false (fun h => ?_) nofun
          obtain ⟨dataStr, txs, workid, hblock⟩ := h host g up call hstratum hstale hcall
          rw [htxs] at hsent
          obtain ⟨dataStr', hwork⟩ := hsent
          rw [hwork] at hblock
          exact submitblockReq_ne_getworkReq _ _ _ _ (Option.some.inj hblock).symm

/-! ## The two-run statement -/

theorem decodeResult_template {rc : Bool} (h : decodeResult sha256d host cfg res s = some (rc, s'))
    (hgbt : s.globals.haveGbt = true) (hrc : rc = true) :
    gbtWorkDecode sha256d cfg res s = .ok () s' := by
  subst hrc
  rw [decodeResult] at h
  rw [if_pos hgbt] at h
  rcases hrun : gbtWorkDecode sha256d cfg res s with ⟨_, u⟩ | ⟨_ | _, u⟩
  · rw [hrun] at h
    cases h
    rfl
  · rw [hrun] at h
    cases h
  · rw [hrun] at h
    cases h

theorem decodeResult_getwork (h : decodeResult sha256d host cfg res s = some (true, s'))
    (hgbt : s.globals.haveGbt = false) : workDecode host res s.work = (true, s'.work) := by
  rw [decodeResult] at h
  rw [if_neg (by simp [hgbt])] at h
  rcases hrun : workDecode host res s.work with ⟨rc, w⟩
  rw [hrun] at h
  cases h
  rfl

/-- Two records filled from one reply are the same work exactly if the fields
that it does not write agreed, and a filled record is submitted as what it is
exactly if it came from a template or had no transactions. -/
theorem refill_iff (hs : decodeResult sha256d host cfg res s = some (true, s'))
    (ht : decodeResult sha256d host cfg res t = some (true, t'))
    (hgbt : s.globals.haveGbt = t.globals.haveGbt) :
    (SameWork s'.work t'.work ↔ SameLeftovers s.globals.haveGbt res s.work t.work) ∧
      (SubmittedAs s.globals.haveGbt s'.work ↔
        s.globals.haveGbt = true ∨ s.work.txs = none) := by
  rw [submittedAs_iff, SameLeftovers]
  cases hprotocol : s.globals.haveGbt with
  | true =>
      have hs := decodeResult_template hs hprotocol rfl
      have ht := decodeResult_template ht (hgbt ▸ hprotocol) rfl
      obtain ⟨htxs, hwords⟩ := Prod.mk.inj (template_written hs ht)
      obtain ⟨hdata, htarget⟩ := Prod.mk.inj hwords
      have hworkid : s'.work.workid = t'.work.workid ↔
          (jsonObjectGet res "workid").isSome = true ∨ s.work.workid = t.work.workid := by
        rw [template_workid hs, template_workid ht]
        cases jsonObjectGet res "workid" with
        | none => simp
        | some j => simp
      refine ⟨?_, iff_of_true (gbtWorkDecode_ok hs).1.symm (.inl rfl)⟩
      rw [if_pos rfl, ← hworkid]
      exact ⟨SameWork.workid, fun h => ⟨hdata, htarget, htxs, h⟩⟩
  | false =>
      have hs := workDecode_ok (decodeResult_getwork hs hprotocol)
      have ht := workDecode_ok (decodeResult_getwork ht (hgbt ▸ hprotocol))
      refine ⟨?_, ?_⟩
      · rw [if_neg Bool.false_ne_true, hs, ht]
        exact ⟨fun h => ⟨h.txs, h.workid⟩, fun h => ⟨rfl, rfl, h.1, h.2⟩⟩
      · rw [hs]
        cases htxs : s.work.txs with
        | none => simp
        | some txs => simp

end

/-! ## A record with a history

A `getwork` reply on a node that allows it, and the retries that lead there: a
template is rejected for its target, the next request for one is refused, and
the miner falls back. -/

def fallbackConfig : GbtConfig := { sampleConfig with allowGetwork := true }

def replyOf (res : Json) : RpcReply :=
  ⟨some (.object [("result", res)]), true, false, fallbackConfig⟩

def rejectedAttempt : List RpcReply := [replyOf untargetedTemplate]

def fallbackAttempt : List RpcReply := [⟨none, true, false, fallbackConfig⟩, replyOf zeroReply]

def getworkStart (txs : Option Bytes) : GbtState :=
  ⟨⟨false, false, none, []⟩, { Work.zero with txs := txs }⟩

def getworkFilled (txs : Option Bytes) : GbtState :=
  { getworkStart txs with work := (workDecode .little (some zeroReply) (getworkStart txs).work).2 }

theorem getworkFilled_decoded {txs : Option Bytes}
    (h : (workDecode .little (some zeroReply) (getworkStart txs).work).1 = true) :
    decodeResult sampleHash .little fallbackConfig (some zeroReply) (getworkStart txs) =
      some (true, getworkFilled txs) := by
  rw [decodeResult]
  rw [if_neg (by simp [getworkStart]), getworkFilled, ← h]

theorem refill_iff_getwork :
    (SameWork (getworkFilled none).work (getworkFilled (some [])).work ↔
      SameLeftovers false (some zeroReply) (getworkStart none).work
        (getworkStart (some [])).work) ∧
    (SubmittedAs false (getworkFilled none).work ↔
      (getworkStart none).globals.haveGbt = true ∨ (getworkStart none).work.txs = none) :=
  refill_iff (getworkFilled_decoded (by decide +kernel))
    (getworkFilled_decoded (by decide +kernel)) rfl

/-- The record that took the rejected template comes back with its transactions
and is submitted as a block; the one that went straight to `getwork` is not. And
`g_work` keeps a work id through a long poll whose template has none. -/
theorem refill_keeps_leftovers :
    (∃ w w₀ : Work,
      workioGetWork sampleHash .little (-1) [rejectedAttempt, fallbackAttempt]
        sampleStart.globals = some (some w) ∧
      workioGetWork sampleHash .little (-1) [fallbackAttempt] sampleStart.globals =
        some (some w₀) ∧
      ¬SameWork w w₀ ∧ SubmittedAs false w₀ ∧ ¬SubmittedAs false w) ∧
    ∃ s, longpollRefill sampleHash .little sampleConfig id
        (.object [("result", sampleTemplate)])
        ⟨sampleStart.globals, { Work.zero with workid := some (ascii "7") }⟩ = some (true, s) ∧
      s.work.workid = some (ascii "7") := by
  have hrun : ∀ attempts isSome,
      (workioGetWork sampleHash .little (-1) attempts sampleStart.globals).map
        (Option.map fun w => w.txs.isSome) = some (some isSome) →
      ∃ w, workioGetWork sampleHash .little (-1) attempts sampleStart.globals = some (some w) ∧
        w.txs.isSome = isSome := by
    intro attempts isSome h
    obtain ⟨out, hw, h⟩ := Option.map_eq_some_iff.mp h
    obtain ⟨w, rfl, htxs⟩ := Option.map_eq_some_iff.mp h
    exact ⟨w, hw, htxs⟩
  refine ⟨?_, ?_⟩
  · obtain ⟨w, hw, htxs⟩ := hrun [rejectedAttempt, fallbackAttempt] true (by decide +kernel)
    obtain ⟨w₀, hw₀, htxs₀⟩ := hrun [fallbackAttempt] false (by decide +kernel)
    refine ⟨w, w₀, hw, hw₀, fun h => ?_, (submittedAs_iff _ _).mpr htxs₀.symm, fun h => ?_⟩
    · rw [h.txs, htxs₀] at htxs
      cases htxs
    · rw [submittedAs_iff, htxs] at h
      cases h
  · have hpoll : (longpollRefill sampleHash .little sampleConfig id
        (.object [("result", sampleTemplate)])
        ⟨sampleStart.globals, { Work.zero with workid := some (ascii "7") }⟩).map
          (fun r => (r.1, r.2.work.workid)) = some (true, some (ascii "7")) := by
      decide +kernel
    obtain ⟨⟨rc, s⟩, hs, h⟩ := Option.map_eq_some_iff.mp hpoll
    obtain ⟨rfl, hworkid⟩ := Prod.mk.inj h
    exact ⟨s, hs, hworkid⟩

end AlphaMiner
