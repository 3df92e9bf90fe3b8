import AlphaMiner.Model.Stratum
import AlphaMiner.Proofs.Hex

/-!
# The layout of a job's coinbase

`stratum_notify` fills one block with four pieces: the first half the pool sent,
the extra nonce of the connection, the extra nonce of the miner, and the second
half. `jobCoinbase_layout` says what it leaves there for any parameters and any
subscription; where a half is well-formed hexadecimal its piece is what the
string stands for, and in any case it has the length the string asks for.

`Window` is the relation between a context and such a layout that
`stratum_gen_work` relies on: the pieces of the block, with the subscription's
own sizes, and the pointer at the third one. A notification establishes it,
and generating work counts the third piece up and keeps it.
-/

namespace AlphaMiner

open Lib

/-- A block cut at four lengths. -/
theorem split_four {buf : Bytes} {a b c d : Nat} (h : buf.length = a + b + c + d) :
    ∃ p q r s : Bytes, buf = p ++ q ++ r ++ s ∧ p.length = a ∧ q.length = b ∧ r.length = c ∧
      s.length = d := by
  refine ⟨buf.take a, (buf.drop a).take b, (buf.drop (a + b)).take c, buf.drop (a + b + c),
    ?_, ?_, ?_, ?_, ?_⟩
  · have h₁ : buf.drop (a + b) = (buf.drop a).drop b := List.drop_drop.symm
    have h₂ : buf.drop (a + b + c) = (buf.drop (a + b)).drop c := List.drop_drop.symm
    rw [List.append_assoc, List.append_assoc, h₂, List.take_append_drop, h₁,
      List.take_append_drop, List.take_append_drop]
  all_goals
    simp only [List.length_take, List.length_drop]
    omega

theorem hex2binAt_middle {a b c : Bytes} {off len : Nat} (hexstr : Bytes) (ha : a.length = off)
    (hb : b.length = len) :
    hex2binAt (a ++ b ++ c) off hexstr len = a ++ (hex2bin b (some hexstr) len).2 ++ c := by
  have hslice : slice (a ++ b ++ c) off len = b := by
    rw [slice, List.append_assoc, List.drop_left' ha, List.take_left' hb]
  rw [hex2binAt, hslice, store_middle ha]
  rw [length_hex2bin (Nat.le_of_eq hb.symm)]

/-- The bytes are what the string stands for, where it stands for any, and as
many as it has pairs of characters. -/
structure Decodes (hexstr bytes : Bytes) : Prop where
  length : bytes.length = hexstr.length / 2
  value : ∀ q, unhex hexstr = some q → bytes = q

theorem decodes_hex2bin {hexstr buf : Bytes} (hbuf : buf.length = hexstr.length / 2) :
    Decodes hexstr (hex2bin buf (some hexstr) (hexstr.length / 2)).2 := by
  constructor
  · rw [length_hex2bin (Nat.le_of_eq hbuf.symm), hbuf]
  · intro q hq
    rw [hex2bin_measured hq hbuf]

/-- What a notification leaves in the coinbase. The second extra nonce of a new job
is zero, and that of a job that is sent again whatever lies where it now begins. -/
theorem jobCoinbase_layout (heap : Nat → UInt8) (n : NotifyParams) (ctx : StratumCtx) :
    ∃ c₁ x₂ c₂, jobCoinbase heap n ctx = c₁ ++ ctx.xnonce1 ++ x₂ ++ c₂ ∧
      Decodes n.coinb1 c₁ ∧ x₂.length = ctx.xnonce2Size ∧ Decodes n.coinb2 c₂ ∧
      (ctx.job.jobId ≠ some n.jobId → x₂ = List.replicate ctx.xnonce2Size 0) ∧
      (ctx.job.jobId = some n.jobId →
        x₂ = slice (realloc heap ctx.job.coinbase (n.coinb1.length / 2 + ctx.xnonce1.length +
          ctx.xnonce2Size + n.coinb2.length / 2)) (n.coinb1.length / 2 + ctx.xnonce1.length)
          ctx.xnonce2Size) := by
  obtain ⟨p, q, r, s, hbuf, hp, hq, hr, hs⟩ :=
    split_four (length_realloc heap ctx.job.coinbase (n.coinb1.length / 2 + ctx.xnonce1.length +
      ctx.xnonce2Size + n.coinb2.length / 2))
  have hd₁ := decodes_hex2bin hp
  have hd₂ := decodes_hex2bin hs
  generalize hc₁ : (hex2bin p (some n.coinb1) (n.coinb1.length / 2)).2 = c₁ at hd₁
  generalize hc₂ : (hex2bin s (some n.coinb2) (n.coinb2.length / 2)).2 = c₂ at hd₂
  have hfirst : hex2binAt (p ++ q ++ r ++ s) 0 n.coinb1 (n.coinb1.length / 2) =
      c₁ ++ q ++ (r ++ s) := by
    have h := hex2binAt_middle n.coinb1 (a := []) (c := q ++ r ++ s) rfl hp
    simpa [hc₁] using h
  have hlast : ∀ x₂ : Bytes, x₂.length = ctx.xnonce2Size →
      hex2binAt (c₁ ++ ctx.xnonce1 ++ x₂ ++ s)
        (n.coinb1.length / 2 + ctx.xnonce1.length + ctx.xnonce2Size) n.coinb2
        (n.coinb2.length / 2) = c₁ ++ ctx.xnonce1 ++ x₂ ++ c₂ := by
    intro x₂ hx₂
    have hlen : (c₁ ++ ctx.xnonce1 ++ x₂).length =
        n.coinb1.length / 2 + ctx.xnonce1.length + ctx.xnonce2Size := by
      rw [List.length_append, List.length_append, hd₁.length, hx₂]
    have h := hex2binAt_middle n.coinb2 (c := []) hlen hs
    rw [List.append_nil, List.append_nil] at h
    rw [h, hc₂]
  have hmiddle : slice (p ++ q ++ r ++ s) (n.coinb1.length / 2 + ctx.xnonce1.length)
      ctx.xnonce2Size = r := by
    have hfront : (p ++ q).length = n.coinb1.length / 2 + ctx.xnonce1.length := by
      rw [List.length_append, hp, hq]
    rw [slice, List.append_assoc, List.drop_left' hfront, List.take_left' hr]
  rw [jobCoinbase]
  rw [hbuf, hfirst, store_middle hd₁.length hq.symm, hmiddle]
  by_cases hagain : ctx.job.jobId = some n.jobId
  · rw [if_neg (not_not.mpr hagain), ← List.append_assoc (c₁ ++ ctx.xnonce1) r s]
    exact ⟨c₁, r, c₂, hlast r hr, hd₁, hr, hd₂, fun h => absurd hagain h, fun _ => rfl⟩
  · rw [if_pos hagain]
    have hzero : store (c₁ ++ ctx.xnonce1 ++ (r ++ s))
        (n.coinb1.length / 2 + ctx.xnonce1.length) (List.replicate ctx.xnonce2Size 0) =
        c₁ ++ ctx.xnonce1 ++ List.replicate ctx.xnonce2Size 0 ++ s := by
      rw [← List.append_assoc (c₁ ++ ctx.xnonce1) r s, store_middle]
      · rw [List.length_append, hd₁.length]
      · rw [List.length_replicate, hr]
    rw [hzero]
    exact ⟨c₁, _, c₂, hlast _ List.length_replicate, hd₁, List.length_replicate, hd₂,
      fun _ => rfl, fun h => absurd h hagain⟩

/-- The job's coinbase consists of the two halves of `n` around the extra nonces
of the current subscription, the second of them `x₂`, which is where the
pointer points. -/
def Window (n : NotifyParams) (ctx : StratumCtx) (x₂ : Bytes) : Prop :=
  ∃ c₁ c₂, ctx.job.coinbase = c₁ ++ ctx.xnonce1 ++ x₂ ++ c₂ ∧
    ctx.job.xnonce2 = c₁.length + ctx.xnonce1.length ∧ x₂.length = ctx.xnonce2Size ∧
    Decodes n.coinb1 c₁ ∧ Decodes n.coinb2 c₂

theorem window_notify (heap : Nat → UInt8) (n : NotifyParams) (ctx : StratumCtx) :
    ∃ x₂, Window n { ctx with job := notifyJob heap n ctx } x₂ := by
  obtain ⟨c₁, x₂, c₂, hcoinbase, hd₁, hx₂, hd₂, -⟩ := jobCoinbase_layout heap n ctx
  exact ⟨x₂, c₁, c₂, hcoinbase, by rw [hd₁.length]; rfl, hx₂, hd₁, hd₂⟩

theorem Window.slice {n : NotifyParams} {ctx : StratumCtx} {x₂ : Bytes} (h : Window n ctx x₂) :
    slice? ctx.job.coinbase ctx.job.xnonce2 ctx.xnonce2Size = some x₂ := by
  obtain ⟨c₁, c₂, hcoinbase, hptr, hx₂, -, -⟩ := h
  have hlen : (c₁ ++ ctx.xnonce1).length = ctx.job.xnonce2 := by
    rw [List.length_append, hptr]
  rw [slice?, if_pos, Lib.slice, hcoinbase, List.append_assoc (c₁ ++ ctx.xnonce1),
    List.drop_left' hlen, List.take_left' hx₂]
  rw [hcoinbase, List.length_append, List.length_append, hlen, hx₂]
  omega

@[simp] theorem length_incBytes (b : Bytes) : (incBytes b).length = b.length := by
  induction b with
  | nil => rfl
  | cons b rest ih =>
      rw [incBytes]
      split
      · rw [List.length_cons, ih, List.length_cons]
      · rfl

theorem slice_realloc (heap : Nat → UInt8) {p : Bytes} {off n size : Nat}
    (hp : off + n ≤ p.length) (hsize : off + n ≤ size) :
    slice (realloc heap p size) off n = slice p off n := by
  have hcut : ∀ b : Bytes, slice b off n = ((b.take (off + n)).drop off).take n := by
    intro b
    rw [slice, List.drop_take, List.take_take, Nat.add_sub_cancel_left, Nat.min_self]
  have hfront : (realloc heap p size).take (off + n) = p.take (off + n) := by
    rw [realloc, List.take_append_of_le_length (by rw [List.length_take]; omega), List.take_take,
      Nat.min_eq_left hsize]
  rw [hcut, hcut, hfront]

/-- A job that is sent again with as long a first half keeps its second extra
nonce. -/
theorem window_again {m n : NotifyParams} {ctx : StratumCtx} {x₂ : Bytes}
    (heap : Nat → UInt8) (h : Window m ctx x₂) (hagain : ctx.job.jobId = some n.jobId)
    (hptr : n.coinb1.length / 2 + ctx.xnonce1.length = ctx.job.xnonce2) :
    Window n { ctx with job := notifyJob heap n ctx } x₂ := by
  obtain ⟨c₁, y₂, c₂, hcoinbase, hd₁, hy₂, hd₂, -, hkept⟩ := jobCoinbase_layout heap n ctx
  obtain ⟨b₁, b₂, hold, hptr', hx₂, -, -⟩ := h
  have hfront : (b₁ ++ ctx.xnonce1).length = ctx.job.xnonce2 := by
    rw [List.length_append, hptr']
  have hinside : ctx.job.xnonce2 + ctx.xnonce2Size ≤ ctx.job.coinbase.length := by
    rw [hold, ← hfront, ← hx₂]
    simp only [List.length_append]
    omega
  have hsame : y₂ = x₂ := by
    rw [hkept hagain, hptr, slice_realloc heap hinside (by omega), slice, hold,
      List.append_assoc (b₁ ++ ctx.xnonce1), List.drop_left' hfront, List.take_left' hx₂]
  subst hsame
  exact ⟨c₁, c₂, hcoinbase, by rw [hd₁.length]; rfl, hy₂, hd₁, hd₂⟩

/-- A write to the extra nonce leaves the layout, whatever it writes. -/
theorem Window.set {n : NotifyParams} {ctx : StratumCtx} {x₂ y₂ : Bytes} (h : Window n ctx x₂)
    (hy₂ : y₂.length = x₂.length) :
    Window n { ctx with
      job := { ctx.job with
        coinbase := store ctx.job.coinbase ctx.job.xnonce2 y₂ } } y₂ := by
  obtain ⟨c₁, c₂, hcoinbase, hptr, hx₂, hd₁, hd₂⟩ := h
  refine ⟨c₁, c₂, ?_, hptr, hy₂.trans hx₂, hd₁, hd₂⟩
  simp only
  rw [hcoinbase, store_middle _ hy₂]
  rw [List.length_append, hptr]

theorem subscribeReply_job {heap : Nat → UInt8} {val : Option Json} {ctx ctx' : StratumCtx}
    (h : subscribeReply heap val ctx = some ctx') : ctx'.job = ctx.job := by
  rw [subscribeReply] at h
  split at h
  · split at h
    · cases h
    · split at h
      · cases h
      · simp only at h
        split at h
        · cases h
        · cases h
          rfl
  · cases h

/-- A subscription leaves the job as it is. -/
theorem stratumSubscribe_job (heap : Nat → UInt8) (first second : Option (Option Json))
    (ctx : StratumCtx) : (stratumSubscribe heap first second ctx).2.job = ctx.job := by
  unfold stratumSubscribe
  split
  · rfl
  · split
    · next h => exact subscribeReply_job h
    · split
      · next h =>
          obtain ⟨val, -, h⟩ := Option.bind_eq_some_iff.mp h
          exact subscribeReply_job h
      · rfl

/-- What a successful `stratum_gen_work` leaves in the context and in the record. -/
theorem stratumGenWork_some {sha256d : Bytes → Hash} {host : ByteOrder} {ctx ctx' : StratumCtx}
    {work filled : Work} (h : stratumGenWork sha256d host ctx work = some (ctx', filled)) :
    ∃ jobId xnonce2, ctx.job.jobId = some jobId ∧
      slice? ctx.job.coinbase ctx.job.xnonce2 ctx.xnonce2Size = some xnonce2 ∧
      ctx' = { ctx with
        job := { ctx.job with
          coinbase := store ctx.job.coinbase ctx.job.xnonce2 (incBytes xnonce2) } } ∧
      filled.jobId = some jobId ∧ filled.xnonce2 = some xnonce2 ∧
      filled.data = jobData sha256d ctx.job ∧
      filled.randomxSeedHash = jobSeed sha256d host (jobData sha256d ctx.job) := by
  unfold stratumGenWork genWorkLocked at h
  cases hid : ctx.job.jobId with
  | none =>
      rw [hid] at h
      cases h
  | some jobId =>
      cases hx : slice? ctx.job.coinbase ctx.job.xnonce2 ctx.xnonce2Size with
      | none =>
          rw [hid, hx] at h
          cases h
      | some xnonce2 =>
          rw [hid, hx] at h
          cases h
          exact ⟨jobId, xnonce2, rfl, rfl, rfl, rfl, rfl, rfl, rfl⟩

/-- The parameters of a job without branches, in the form in which they come. -/
def jobParams (jobId coinb1 coinb2 : Bytes) : Option Json :=
  some (.array
    [.string jobId, .string (List.replicate 64 49), .string coinb1, .string coinb2, .array [],
      .string (ascii "20000000"), .string (ascii "1d00ffff"), .string (ascii "65d5c0f0"),
      .bool true])

end AlphaMiner
