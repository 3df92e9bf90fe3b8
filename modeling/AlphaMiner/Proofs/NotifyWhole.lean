import AlphaMiner.Proofs.FieldWidth
import AlphaMiner.Proofs.Share

/-!
# A notification that is taken whole

`stratum_notify` looks at the kinds and the lengths of its parameters before it
touches the job, and from there on it does not fail any more: it decodes eight
strings, most of them over the fields of the job that is there, and does not ask
whether they could be decoded. A parameter of the right length that is not
hexadecimal leaves a mixture behind, and the answer is that the job was taken.

What is wanted is a choice between two outcomes, and `notify_whole_iff` says for
which parameters there is one: those that are refused, and those that are
hexadecimal throughout.
-/

namespace AlphaMiner

open Lib

/-! ## The parameters -/

/-- The parameters of a notification as the pool sent them. -/
structure ParamsAre (params : Option Json) (n : NotifyParams) : Prop where
  jobId : jsonStringValue (jsonArrayGet params 0) = some n.jobId
  prevhash : jsonStringValue (jsonArrayGet params 1) = some n.prevhash
  coinb1 : jsonStringValue (jsonArrayGet params 2) = some n.coinb1
  coinb2 : jsonStringValue (jsonArrayGet params 3) = some n.coinb2
  merkle : ∃ branch, jsonArrayGet params 4 = some (.array branch) ∧
    branch.map (fun s => jsonStringValue (some s)) = n.merkle.map some
  version : jsonStringValue (jsonArrayGet params 5) = some n.version
  nbits : jsonStringValue (jsonArrayGet params 6) = some n.nbits
  ntime : jsonStringValue (jsonArrayGet params 7) = some n.ntime
  clean : jsonIsTrue (jsonArrayGet params 8) = n.clean

/-- The lengths that are checked. -/
structure NotifyLengths (n : NotifyParams) : Prop where
  prevhash : n.prevhash.length = 64
  version : n.version.length = 8
  nbits : n.nbits.length = 8
  ntime : n.ntime.length = 8
  merkle : ∀ s ∈ n.merkle, s.length = 64

/-- Every hexadecimal parameter has the form that it should have. -/
structure HexParams (n : NotifyParams) : Prop where
  prevhash : FullHex 32 (some n.prevhash)
  coinb1 : n.coinb1.length % 2 = 0 ∧ ∀ c ∈ n.coinb1, (hexNibble c).isSome = true
  coinb2 : n.coinb2.length % 2 = 0 ∧ ∀ c ∈ n.coinb2, (hexNibble c).isSome = true
  merkle : ∀ s ∈ n.merkle, FullHex 32 (some s)
  version : FullHex 4 (some n.version)
  nbits : FullHex 4 (some n.nbits)
  ntime : FullHex 4 (some n.ntime)

theorem mapM_eq_some_iff {α β : Type} {f : α → Option β} {l : List α} {r : List β} :
    l.mapM f = some r ↔ l.map f = r.map some := by
  induction l generalizing r with
  | nil =>
      cases r with
      | nil => exact iff_of_true rfl rfl
      | cons b r => exact iff_of_false (fun h => by cases h) fun h => by cases h
  | cons a l ih =>
      rw [List.mapM_cons, List.map_cons]
      cases r with
      | nil =>
          refine iff_of_false (fun h => ?_) fun h => by cases h
          obtain ⟨b, -, h⟩ := Option.bind_eq_some_iff.1 h
          obtain ⟨bs, -, h⟩ := Option.bind_eq_some_iff.1 h
          cases h
      | cons b r =>
          rw [List.map_cons, List.cons.injEq, ← ih]
          constructor
          · intro h
            obtain ⟨b', hb, h⟩ := Option.bind_eq_some_iff.1 h
            obtain ⟨bs, hbs, h⟩ := Option.bind_eq_some_iff.1 h
            cases h
            exact ⟨hb, hbs⟩
          · intro h
            rw [h.1, h.2]
            rfl

/-- The parameters pass the checks just with the kinds and the lengths that are asked
for. -/
theorem notifyParams_iff {params : Option Json} {n : NotifyParams} :
    notifyParams params = some n ↔ ParamsAre params n ∧ NotifyLengths n := by
  constructor
  · intro h
    unfold notifyParams at h
    obtain ⟨arr, harr, h⟩ := Option.bind_eq_some_iff.1 h
    cases arr with
    | array branch =>
        obtain ⟨jobId, hjobId, h⟩ := Option.bind_eq_some_iff.1 h
        obtain ⟨prevhash, hprevhash, h⟩ := Option.bind_eq_some_iff.1 h
        obtain ⟨coinb1, hcoinb1, h⟩ := Option.bind_eq_some_iff.1 h
        obtain ⟨coinb2, hcoinb2, h⟩ := Option.bind_eq_some_iff.1 h
        obtain ⟨version, hversion, h⟩ := Option.bind_eq_some_iff.1 h
        obtain ⟨nbits, hnbits, h⟩ := Option.bind_eq_some_iff.1 h
        obtain ⟨ntime, hntime, h⟩ := Option.bind_eq_some_iff.1 h
        split at h
        · cases h
        · next hlen =>
            obtain ⟨merkle, hmerkle, h⟩ := Option.bind_eq_some_iff.1 h
            split at h
            · next hentries =>
                cases h
                simp only [not_or, not_not] at hlen
                refine ⟨⟨hjobId, hprevhash, hcoinb1, hcoinb2,
                  ⟨branch, harr, mapM_eq_some_iff.1 hmerkle⟩, hversion, hnbits, hntime, rfl⟩,
                  hlen.1, hlen.2.1, hlen.2.2.1, hlen.2.2.2, fun s hs => ?_⟩
                simpa using List.all_eq_true.1 hentries s hs
            · cases h
    | _ => cases h
  · intro h
    obtain ⟨hp, hlen⟩ := h
    obtain ⟨branch, hbranch, hmerkle⟩ := hp.merkle
    have hchecked : ¬(n.prevhash.length ≠ 64 ∨ n.version.length ≠ 8 ∨ n.nbits.length ≠ 8 ∨
        n.ntime.length ≠ 8) := by
      rw [hlen.prevhash, hlen.version, hlen.nbits, hlen.ntime]
      decide
    have hentries : (n.merkle.all fun s => s.length = 64) = true :=
      List.all_eq_true.2 fun s hs => by simpa using hlen.merkle s hs
    unfold notifyParams
    rw [hbranch, hp.jobId, hp.prevhash, hp.coinb1, hp.coinb2, hp.version, hp.nbits, hp.ntime,
      hp.clean]
    simp only [Option.bind_eq_bind, Option.bind_some]
    rw [if_neg hchecked, mapM_eq_some_iff.2 hmerkle, Option.bind_some, if_pos hentries]

/-! ## The job -/

/-- The job is what the parameters say, around the extra nonces. The second of these
is zero for a new job. -/
structure JobTaken (n : NotifyParams) (ctx : StratumCtx) (job : StratumJob) : Prop where
  fields : JobDecodes n job
  coinbase : ∃ c₁ x₂ c₂, unhex n.coinb1 = some c₁ ∧ unhex n.coinb2 = some c₂ ∧
    x₂.length = ctx.xnonce2Size ∧
    (ctx.job.jobId ≠ some n.jobId → x₂ = List.replicate ctx.xnonce2Size 0) ∧
    job.coinbase = c₁ ++ ctx.xnonce1 ++ x₂ ++ c₂ ∧ job.xnonce2 = (c₁ ++ ctx.xnonce1).length
  clean : job.clean = n.clean
  diff : job.diff = ctx.nextDiff

/-- The notification is refused and nothing has changed, or its parameters are in
order and the job is what they say. -/
def NotifyWhole (heap : Nat → UInt8) (params : Option Json) (ctx : StratumCtx) : Prop :=
  stratumNotify heap params ctx = (false, ctx) ∨
  ∃ n job, ParamsAre params n ∧ HexParams n ∧
    stratumNotify heap params ctx = (true, { ctx with job := job }) ∧ JobTaken n ctx job

theorem wellFormed_of_hexParams {n : NotifyParams} (h : HexParams n) : WellFormed n := by
  have hfull : ∀ {k : Nat} {s : Bytes}, FullHex k (some s) → (unhex s).isSome = true := by
    intro k s hs
    obtain ⟨_, ⟨⟩, hlen, hdigits⟩ := hs
    exact Option.isSome_iff_exists.2 (unhex_isSome_iff.2 ⟨by omega, hdigits⟩)
  exact
    { prevhash := hfull h.prevhash
      coinb1 := Option.isSome_iff_exists.2 (unhex_isSome_iff.2 h.coinb1)
      coinb2 := Option.isSome_iff_exists.2 (unhex_isSome_iff.2 h.coinb2)
      merkle := fun s hs => hfull (h.merkle s hs)
      version := hfull h.version
      nbits := hfull h.nbits
      ntime := hfull h.ntime }

theorem notifyLengths_of_hexParams {n : NotifyParams} (h : HexParams n) : NotifyLengths n := by
  have hlen : ∀ {k : Nat} {s : Bytes}, FullHex k (some s) → s.length = 2 * k := by
    intro k s hs
    obtain ⟨_, ⟨⟩, hlen, -⟩ := hs
    exact hlen
  exact ⟨hlen h.prevhash, hlen h.version, hlen h.nbits, hlen h.ntime,
    fun s hs => hlen (h.merkle s hs)⟩

theorem jobTaken_notify (heap : Nat → UInt8) {params : Option Json} {n : NotifyParams}
    (hn : notifyParams params = some n) (hhex : HexParams n) (ctx : StratumCtx) :
    JobTaken n ctx (notifyJob heap n ctx) := by
  have hwf := wellFormed_of_hexParams hhex
  obtain ⟨c₁, x₂, c₂, hcoinbase, hd₁, hx₂, hd₂, hzero, -⟩ := jobCoinbase_layout heap n ctx
  obtain ⟨p₁, hp₁⟩ := Option.isSome_iff_exists.1 hwf.coinb1
  obtain ⟨p₂, hp₂⟩ := Option.isSome_iff_exists.1 hwf.coinb2
  refine ⟨jobDecodes_notify heap hn hwf ctx, ⟨c₁, x₂, c₂, ?_, ?_, hx₂, hzero, hcoinbase, ?_⟩, rfl,
    rfl⟩
  · rw [hp₁, hd₁.value p₁ hp₁]
  · rw [hp₂, hd₂.value p₂ hp₂]
  · rw [List.length_append, hd₁.length]
    rfl

/-- There is the choice just for parameters that are refused for their kinds or
lengths, or that are hexadecimal. -/
theorem notify_whole_iff (heap : Nat → UInt8) (params : Option Json) (ctx : StratumCtx) :
    NotifyWhole heap params ctx ↔
      ∀ n, ParamsAre params n → NotifyLengths n → HexParams n := by
  constructor
  · intro hwhole n hparams hlengths
    have hn := notifyParams_iff.2 ⟨hparams, hlengths⟩
    have hrun : stratumNotify heap params ctx =
        (true, { ctx with job := notifyJob heap n ctx }) := by
      rw [stratumNotify, hn]
    rcases hwhole with hrefused | ⟨n', job, hparams', hhex, htaken, -⟩
    · rw [hrun] at hrefused
      cases hrefused
    · have hn' := notifyParams_iff.2 ⟨hparams', notifyLengths_of_hexParams hhex⟩
      cases hn.symm.trans hn'
      exact hhex
  · intro hhex
    cases hn : notifyParams params with
    | none =>
        refine .inl ?_
        rw [stratumNotify, hn]
    | some n =>
        obtain ⟨hparams, hlengths⟩ := notifyParams_iff.1 hn
        refine .inr ⟨n, notifyJob heap n ctx, hparams, hhex n hparams hlengths, ?_,
          jobTaken_notify heap hn (hhex n hparams hlengths) ctx⟩
        rw [stratumNotify, hn]

/-- The first half of the coinbase is two letters that are no digits. -/
theorem notify_whole_fails :
    ¬∀ (heap : Nat → UInt8) (params : Option Json) (ctx : StratumCtx),
      NotifyWhole heap params ctx := by
  intro hclaim
  have hrun : (stratumNotify (fun _ => 0) (jobParams (ascii "01") (ascii "zz") [])
      StratumCtx.zero).1 = true := by decide +kernel
  rcases hclaim (fun _ => 0) (jobParams (ascii "01") (ascii "zz") []) StratumCtx.zero with
    hrefused | ⟨n, job, hparams, hhex, -, -⟩
  · rw [hrefused] at hrun
    cases hrun
  · have hcoinb1 : ascii "zz" = n.coinb1 := Option.some_inj.1 hparams.coinb1
    have hmem : 122 ∈ ascii "zz" := by decide
    have hdigit := hhex.coinb1.2 122 (hcoinb1 ▸ hmem)
    cases hdigit

end AlphaMiner
