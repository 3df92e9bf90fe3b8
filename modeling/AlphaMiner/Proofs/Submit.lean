import AlphaMiner.Model.Submit
import AlphaMiner.Proofs.ScanSpec

/-!
# What a submission sends, and what it leaves behind

The `submitblock` request shows 112 bytes, and `submitblockData_bytes` says
which: the eighty bytes that were hashed, then the RandomX hash. That holds on
a host of either order, because every word is encoded where it lies and then
printed byte by byte.

The same encoding is what a failed attempt leaves in the record. On a
little-endian host it swaps the words, so the second attempt compares swapped
words with the current previous hash and, if it gets past that, prints them
swapped back. `retryFaithful_iff` is the account of when a retry is nevertheless
what it should be.
-/

namespace AlphaMiner

open Lib

/-! ## The bytes of a block -/

theorem submitblockData_eq (host : ByteOrder) (work : Work) :
    host.bytes (submitblockData host work) =
      headerBytes work.data ++ work.rxHash.toList ++
        (work.data.toList.drop 28).flatMap be32enc := by
  have hbuf : host.bytes (be32encInPlace host work.data) =
      work.data.toList.flatMap be32enc := by
    rw [ByteOrder.bytes_eq_flatMap, be32encInPlace, Vector.toList_map, List.flatMap_map]
    congr 1
    funext w
    exact host.enc_dec (length_be32enc w)
  have hsplit : work.data.toList.flatMap be32enc = headerBytes work.data ++
      ((work.data.toList.drop 20).take 8).flatMap be32enc ++
        (work.data.toList.drop 28).flatMap be32enc := by
    rw [headerBytes_eq_take, ← List.flatMap_append, ← List.flatMap_append,
      List.append_assoc, show work.data.toList.drop 28 = (work.data.toList.drop 20).drop 8 by
        rw [List.drop_drop], List.take_append_drop, List.take_append_drop]
  have hmid : (((work.data.toList.drop 20).take 8).flatMap be32enc).length = 32 := by
    rw [length_flatMap_const length_be32enc]
    simp
  rw [submitblockData, ByteOrder.bytes_words, hbuf, hsplit, store_middle (length_headerBytes _)]
  · rw [hmid, Vector.length_toList]
  · rw [length_store] <;> simp

/-- The 112 bytes that are printed: the header and the RandomX hash. -/
theorem submitblockData_bytes (host : ByteOrder) (work : Work) :
    (host.bytes (submitblockData host work)).take 112 =
      headerBytes work.data ++ work.rxHash.toList := by
  rw [submitblockData_eq, List.take_left']
  simp

/-- A header word after the attempt: its big-endian bytes, read by the host. -/
theorem submitblockData_word (host : ByteOrder) (work : Work) (i : Fin 20) :
    headerWord (submitblockData host work) i = host.dec (be32enc (headerWord work.data i)) := by
  have hi := i.isLt
  have hslice : slice (store (host.bytes (be32encInPlace host work.data)) 80
      work.rxHash.toList) (4 * i.val) 4 = host.enc (be32encInPlace host work.data)[i.val] := by
    rw [slice_store_before (by omega) (by simp)]
    exact ByteOrder.slice_bytes host _ (by omega)
  simp only [headerWord, Fin.getElem_fin]
  rw [submitblockData, ByteOrder.words, Vector.getElem_ofFn, hslice, host.dec_enc,
    be32encInPlace, Vector.getElem_map]

/-! ## Retrying

A run of the retry loop in which `k` calls fail and one more follows, `g_work`
and `submit_old` staying as they are. -/

/-- What a call that fails gets. -/
def Upstream.failed : Upstream := ⟨false, none⟩

section

variable (host : ByteOrder) (optRetries : Int) (g : SubmitGlobals)

def retryCalls (k : Nat) (last : Upstream) (work : Work) : List Submission :=
  (workioSubmitWork host optRetries (List.replicate k (g, .failed) ++ [(g, last)]) work).calls

/-- Every call is made and sends what the first one sent, and the failed ones
leave the header words alone. -/
structure RetryFaithful (k : Nat) (last : Upstream) (work : Work) : Prop where
  made : (retryCalls host optRetries g k last work).length = k + 1
  same : ∃ req, ∀ call ∈ retryCalls host optRetries g k last work, call.sent = some req
  keeps : ∀ call ∈ (retryCalls host optRetries g k last work).take k,
    ∀ i, headerWord call.work.data i = headerWord work.data i

/-- Two records that are the same block to a submission. -/
structure SameBlock (w w' : Work) : Prop where
  words : ∀ i, headerWord w.data i = headerWord w'.data i
  txs : w.txs = w'.txs
  workid : w.workid = w'.workid
  rxHash : w.rxHash = w'.rxHash

def blockRequest (work : Work) (txs : Bytes) : Bytes :=
  submitblockReq (bin2hex (headerBytes work.data ++ work.rxHash.toList)) txs work.workid

variable {host g}

theorem SameBlock.blockRequest_eq {w w' : Work} (h : SameBlock w w') (txs : Bytes) :
    blockRequest w txs = blockRequest w' txs := by
  rw [blockRequest, blockRequest, headerBytes_congr h.words, h.rxHash, h.workid]

theorem SameBlock.prevhashWords_eq {w w' : Work} (h : SameBlock w w') :
    prevhashWords w.data = prevhashWords w'.data := by
  apply List.ext_getElem
  · simp [prevhashWords]
  · intro i hi hi'
    have hlt : i < 8 := by
      rw [prevhashWords, List.length_take] at hi
      omega
    simpa [prevhashWords, headerWord] using h.words ⟨i + 1, by omega⟩

/-- One attempt of the `submitblock` branch. -/
theorem submitUpstreamWork_block {work : Work} {txs : Bytes} (up : Upstream)
    (hstratum : g.haveStratum = false) (htxs : work.txs = some txs)
    (hfresh : stale g work = false) :
    ∃ call, submitUpstreamWork host g up work = some call ∧ call.rc = up.reply.isSome ∧
      call.work = { work with data := submitblockData host work } ∧
      call.sent = some (blockRequest work txs) := by
  have hhex : bin2hex ((host.bytes (submitblockData host work)).take 112) =
      bin2hex (headerBytes work.data ++ work.rxHash.toList) := by
    rw [submitblockData_bytes]
  simp only [submitUpstreamWork, hfresh, hstratum, htxs, hhex, Bool.false_eq_true, if_false,
    blockRequest]
  cases up.reply with
  | none => exact ⟨_, rfl, rfl, rfl, rfl⟩
  | some val => exact ⟨_, rfl, rfl, rfl, rfl⟩

theorem not_stale {work : Work} (h : prevhashWords work.data = prevhashWords g.gWork.data) :
    stale g work = false := by
  rw [stale, h]
  simp

theorem submitLoop_last {up : Upstream} {w : Work} {call : Submission} {failures : Int}
    (h : submitUpstreamWork host g up w = some call) :
    (workioSubmitWork.loop host optRetries [(g, up)] failures w).calls = [call] := by
  rw [workioSubmitWork.loop, h]
  simp only [workioSubmitWork.loop]
  split
  · rfl
  · split <;> rfl

theorem submitLoop_failed {w : Work} {call : Submission} {failures : Int}
    {rest : List (SubmitGlobals × Upstream)}
    (h : submitUpstreamWork host g .failed w = some call) (hrc : call.rc = false)
    (hretries : optRetries < 0 ∨ failures + 1 ≤ optRetries) :
    (workioSubmitWork.loop host optRetries ((g, .failed) :: rest) failures w).calls =
      call :: (workioSubmitWork.loop host optRetries rest (failures + 1) call.work).calls := by
  rw [workioSubmitWork.loop, h]
  simp only [hrc, Bool.false_eq_true, if_false]
  rw [if_neg (by omega)]

/-- While an attempt leaves the header words alone, so do all of them. -/
theorem submitLoop_retries {work : Work} {txs : Bytes} (last : Upstream)
    (hstratum : g.haveStratum = false) (htxs : work.txs = some txs)
    (hprev : prevhashWords work.data = prevhashWords g.gWork.data) :
    ∀ (k : Nat) (failures : Int) (w : Work),
      (k = 0 ∨ ∀ i, host.dec (be32enc (headerWord work.data i)) = headerWord work.data i) →
      (optRetries < 0 ∨ failures + k ≤ optRetries) → SameBlock w work →
      ∃ calls, (workioSubmitWork.loop host optRetries
          (List.replicate k (g, .failed) ++ [(g, last)]) failures w).calls = calls ∧
        calls.length = k + 1 ∧ (∀ call ∈ calls, call.sent = some (blockRequest work txs)) ∧
        ∀ call ∈ calls.take k, ∀ i, headerWord call.work.data i = headerWord work.data i := by
  intro k
  induction k with
  | zero =>
      intro failures w _ _ hw
      obtain ⟨call, hcall, -, -, hsent⟩ := submitUpstreamWork_block last hstratum
        (hw.txs.trans htxs) (not_stale (hw.prevhashWords_eq.trans hprev))
      refine ⟨[call], submitLoop_last optRetries hcall, rfl, ?_, by simp⟩
      intro c hc
      rw [List.mem_singleton.mp hc, hsent, hw.blockRequest_eq]
  | succ k ih =>
      intro failures w hfix hretries hw
      obtain ⟨call, hcall, hrc, hwork, hsent⟩ := submitUpstreamWork_block .failed hstratum
        (hw.txs.trans htxs) (not_stale (hw.prevhashWords_eq.trans hprev))
      have hfix' : ∀ i,
          host.dec (be32enc (headerWord work.data i)) = headerWord work.data i := by
        rcases hfix with h | h
        · exact absurd h (Nat.succ_ne_zero k)
        · exact h
      have hword : ∀ i, headerWord call.work.data i = headerWord work.data i := by
        intro i
        simp only [hwork]
        rw [submitblockData_word host w i, hw.words i, hfix' i]
      have hsame : SameBlock call.work work :=
        ⟨hword, by rw [hwork]; exact hw.txs, by rw [hwork]; exact hw.workid,
          by rw [hwork]; exact hw.rxHash⟩
      obtain ⟨calls, hcalls, hlen, hsents, hkeeps⟩ := ih (failures + 1) call.work (.inr hfix')
        (by omega) hsame
      refine ⟨call :: calls, ?_, by simp [hlen], ?_, ?_⟩
      · rw [List.replicate_succ, List.cons_append,
          submitLoop_failed optRetries hcall hrc (by omega), hcalls]
      · intro c hc
        rcases List.mem_cons.mp hc with rfl | hc
        · rw [hsent, hw.blockRequest_eq]
        · exact hsents c hc
      · intro c hc
        rw [List.take_succ_cons] at hc
        rcases List.mem_cons.mp hc with rfl | hc
        · exact hword
        · exact hkeeps c hc

/-- What the host makes of a word that was written big endian over itself. -/
theorem dec_be32enc_eq_self_iff (x : UInt32) :
    host.dec (be32enc x) = x ↔ host = .big ∨ swab32 x = x := by
  cases host with
  | little => simp [ByteOrder.dec, le32dec_be32enc]
  | big => simp [ByteOrder.dec]

/-- After one failed call the header words are what they were only if writing
them big endian over themselves changes nothing. -/
theorem RetryFaithful.words {work : Work} {txs : Bytes} {k : Nat} {last : Upstream}
    (h : RetryFaithful host optRetries g (k + 1) last work)
    (hstratum : g.haveStratum = false) (htxs : work.txs = some txs)
    (hprev : prevhashWords work.data = prevhashWords g.gWork.data)
    (hretries : optRetries < 0 ∨ ((k + 1 : Nat) : Int) ≤ optRetries) (i : Fin 20) :
    host = .big ∨ swab32 (headerWord work.data i) = headerWord work.data i := by
  obtain ⟨call, hcall, hrc, hwork, -⟩ := @submitUpstreamWork_block host g work txs .failed
    hstratum htxs (not_stale hprev)
  have hcalls : ∃ calls, retryCalls host optRetries g (k + 1) last work = call :: calls := by
    rw [retryCalls, List.replicate_succ, List.cons_append, workioSubmitWork]
    exact ⟨_, submitLoop_failed optRetries hcall hrc (by omega)⟩
  obtain ⟨calls, hcalls⟩ := hcalls
  have hword := h.keeps call (by rw [hcalls]; exact List.mem_cons_self) i
  simp only [hwork] at hword
  rw [submitblockData_word host work i] at hword
  exact (dec_be32enc_eq_self_iff _).mp hword

/-- A retry is what it should be when nothing failed before it, on a big-endian
host, and for a header whose words all read the same in both orders. -/
theorem retryFaithful_iff {work : Work} (k : Nat) (last : Upstream)
    (hstratum : g.haveStratum = false) (htxs : work.txs.isSome = true)
    (hprev : prevhashWords work.data = prevhashWords g.gWork.data)
    (hretries : optRetries < 0 ∨ (k : Int) ≤ optRetries) :
    RetryFaithful host optRetries g k last work ↔
      k = 0 ∨ host = .big ∨
        ∀ i, swab32 (headerWord work.data i) = headerWord work.data i := by
  obtain ⟨txs, htxs⟩ := Option.isSome_iff_exists.mp htxs
  constructor
  · intro h
    cases k with
    | zero => exact .inl rfl
    | succ k =>
        by_cases hbig : host = .big
        · exact .inr (.inl hbig)
        · refine .inr (.inr fun i => ?_)
          rcases h.words optRetries hstratum htxs hprev hretries i with hb | hs
          · exact absurd hb hbig
          · exact hs
  · intro h
    have hfix : k = 0 ∨ ∀ i,
        host.dec (be32enc (headerWord work.data i)) = headerWord work.data i := by
      rcases h with h | h | h
      · exact .inl h
      · exact .inr fun i => (dec_be32enc_eq_self_iff _).mpr (.inl h)
      · exact .inr fun i => (dec_be32enc_eq_self_iff _).mpr (.inr (h i))
    obtain ⟨calls, hcalls, hlen, hsents, hkeeps⟩ := submitLoop_retries optRetries last hstratum
      htxs hprev k 0 work hfix (by omega) ⟨fun _ => rfl, rfl, rfl, rfl⟩
    have hrun : retryCalls host optRetries g k last work = calls := hcalls
    exact ⟨by rw [hrun, hlen], ⟨_, by rw [hrun]; exact hsents⟩, by rw [hrun]; exact hkeeps⟩

/-- A block whose previous hash begins with the word 1, solved while that hash
is current. -/
def solvedWork : Work :=
  { Work.zero with data := (Vector.replicate 32 0).set 1 1, txs := some (ascii "01") }

def solvedGlobals : SubmitGlobals :=
  { rpcUser := [], haveStratum := false, submitOld := false, gWork := solvedWork }

theorem retryFaithful_iff_solved :
    RetryFaithful .little (-1) solvedGlobals 1 .failed solvedWork ↔
      (1 : Nat) = 0 ∨ ByteOrder.little = .big ∨
        ∀ i, swab32 (headerWord solvedWork.data i) = headerWord solvedWork.data i :=
  retryFaithful_iff (-1) 1 .failed rfl rfl rfl (.inl (by decide))

/-- One failed call, and the block is no longer submitted as it was. -/
theorem retryFaithful_fails_solved :
    ¬ RetryFaithful .little (-1) solvedGlobals 1 .failed solvedWork := by
  intro h
  rcases h.words (-1) rfl rfl rfl (.inl (by decide)) 1 with hb | hs
  · cases hb
  · exact absurd hs (by decide)

end

end AlphaMiner
