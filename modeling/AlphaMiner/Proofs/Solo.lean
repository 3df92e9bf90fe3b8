import AlphaMiner.Model.Miner
import AlphaMiner.Proofs.GbtSpec
import AlphaMiner.Proofs.Submit

/-!
# What solo mining submits is what was hashed

A header is encoded three ways on its way to a node: word by word big endian
into the scan's buffer, its nonce little endian over that, and, once the share
is back in the record, all of it big endian again for the request. On a
little-endian host the three compose to nothing, because the nonce word of a
share is stored with its bytes reversed (`headerBytes_scanFound`). What is left
is to follow a record from the template that filled it through either scan to
its first submission.
-/

namespace AlphaMiner

open Lib

/-- A commitment that passes the share test is at most the target. -/
theorem shareTest_le {ptarget : Vector UInt32 8} {rxCm : Hash}
    (h : shareTest .little ptarget rxCm = true) :
    leValue rxCm.toList ≤ wordsValue ptarget.toList := by
  rw [shareTest, Bool.and_eq_true, fulltest_eq] at h
  rw [leValue_hash]
  exact of_decide_eq_true h.2

/-- A share found on a template's record, from any nonce and up to any limit:
what its first submission prints in front of the transactions is the header
that was hashed and its RandomX hash, and the commitment to the two meets the
target of the template. -/
theorem solo_submits_hashed {sha256d : Bytes → Hash} {gbt : GbtConfig} {val : Option Json}
    {s filled : GbtState} (hfill : gbtWorkDecode sha256d gbt val s = .ok () filled)
    (cfg : MinerConfig) (hhost : cfg.host = .little) (r : Round) (start max : UInt32)
    (g : SubmitGlobals) (hsolo : g.haveStratum = false) (up : Upstream) :
    let work := { filled.work with data := setNonceWord filled.work.data start }
    let res := scanhash cfg r work max
    let solved := workCopy (scannedWork work res)
    res.rc = 1 →
    ∃ hdr txs call, hdr.length = 80 ∧ filled.work.txs = some txs ∧
      (∃ n, hdr = headerFront filled.work.data ++ le32enc n) ∧
      res.calls.getLast? = some (hdr ++ List.replicate 32 0, res.outRxHash) ∧
      res.outRxHash = cfg.rx.hash (hdr ++ List.replicate 32 0) ∧
      leValue (cfg.rx.commitment (hdr ++ List.replicate 32 0) res.outRxHash).toList ≤
        wordsValue filled.work.target.toList ∧
      submitUpstreamWork cfg.host g up solved = some call ∧
      (stale g solved = false → call.sent = some
        (submitblockReq (bin2hex (hdr ++ res.outRxHash.toList)) txs filled.work.workid)) := by
  intro work res solved hrc
  obtain ⟨txs, htxs⟩ := Option.isSome_iff_exists.mp (gbtWorkDecode_ok hfill).1
  obtain ⟨n, calls, hres, hlast, htest⟩ := scanhash_found hrc
  rw [hhost] at hres htest
  have hfront : headerFront work.data = headerFront filled.work.data := headerFront_set _ _
  have hheader := headerBytes_scanFound work.data n (nonceHash cfg.rx work.data n) calls
  have hsolved : headerBytes solved.data = headerBytes res.pdata := rfl
  have hres' : res = scanFound .little work.data n (nonceHash cfg.rx work.data n) calls := hres
  have hpdata : headerBytes res.pdata ++ List.replicate 32 0 = nonceHeader work.data n := by
    rw [hres', hheader]
  have hhash : res.outRxHash = nonceHash cfg.rx work.data n := by rw [hres']; rfl
  have hcalls : res.calls = calls := by rw [hres']; rfl
  have hsubmit : ∃ call, submitUpstreamWork cfg.host g up solved = some call ∧
      (stale g solved = false → call.sent = some (blockRequest solved txs)) := by
    cases hstale : stale g solved with
    | true => exact ⟨_, by rw [submitUpstreamWork, if_pos hstale], fun h => by cases h⟩
    | false =>
        obtain ⟨call, hcall, -, -, hsent⟩ :=
          @submitUpstreamWork_block cfg.host g solved txs up hsolo htxs hstale
        exact ⟨call, hcall, fun _ => hsent⟩
  obtain ⟨call, hcall, hsent⟩ := hsubmit
  refine ⟨headerBytes res.pdata, txs, call, length_headerBytes _, htxs, ⟨n, ?_⟩, ?_, ?_, ?_,
    hcall, hsent⟩
  · rw [hres', show (scanFound .little work.data n (nonceHash cfg.rx work.data n) calls).pdata =
      setNonceWord work.data (swab32 n) from rfl, headerBytes_set, be32enc_swab32, hfront]
  · rw [hcalls, hpdata, hhash, hlast]
  · rw [hhash, hpdata, nonceHash]
  · rw [hhash, hpdata]
    exact shareTest_le htest

def soloConfig : MinerConfig := ⟨.little, ⟨fun _ => .replicate 32 0, fun _ _ => .replicate 32 0⟩,
  true, 1, 0⟩

theorem solo_submits_hashed_sample :
    let work := { sampleFilled.work with data := setNonceWord sampleFilled.work.data 7 }
    let round : Round := ⟨sampleFilled.work, 1, fun _ => false, ⟨[]⟩⟩
    let g : SubmitGlobals := ⟨[], false, false, sampleFilled.work⟩
    let res := scanhash soloConfig round work 9
    let solved := workCopy (scannedWork work res)
    ∃ hdr txs call, hdr.length = 80 ∧ sampleFilled.work.txs = some txs ∧
      (∃ n, hdr = headerFront sampleFilled.work.data ++ le32enc n) ∧
      res.calls.getLast? = some (hdr ++ List.replicate 32 0, res.outRxHash) ∧
      res.outRxHash = soloConfig.rx.hash (hdr ++ List.replicate 32 0) ∧
      leValue (soloConfig.rx.commitment (hdr ++ List.replicate 32 0) res.outRxHash).toList ≤
        wordsValue sampleFilled.work.target.toList ∧
      submitUpstreamWork soloConfig.host g .failed solved = some call ∧
      (stale g solved = false → call.sent = some
        (submitblockReq (bin2hex (hdr ++ res.outRxHash.toList)) txs
          sampleFilled.work.workid)) :=
  solo_submits_hashed sampleFilled_ok soloConfig rfl
    ⟨sampleFilled.work, 1, fun _ => false, ⟨[]⟩⟩ 7 9 ⟨[], false, false, sampleFilled.work⟩ rfl
    .failed (by decide +kernel)

end AlphaMiner
