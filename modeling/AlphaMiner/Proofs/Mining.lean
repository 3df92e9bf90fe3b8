import AlphaMiner.Model.Mining
import AlphaMiner.Proofs.JobLayout
import AlphaMiner.Proofs.MinerNonces

/-!
# A miner thread and the published job

A round ends with the thread's record and `g_work` holding one header, because
that is what it compares. It copies the rest of the record only along with a new
header, so the rest is the published one as long as one header never stands for
two jobs. `Unambiguous` is that condition, asked of every record at the moment
it is published, of the headers that some thread still has.

`mines_published` is the consequence for whole runs, and `disagrees_next` shows
that nothing less will do: publish a header that a thread has with another job,
and the thread's next round goes on with its old one.
-/

namespace AlphaMiner

open Lib

/-! ## What is wanted, and when it is had -/

/-- The fields of a job that its header does not show. -/
structure SameFields (w g : Work) : Prop where
  target : w.target = g.target
  jobId : w.jobId = g.jobId
  xnonce2 : w.xnonce2 = g.xnonce2
  txs : w.txs = g.txs
  workid : w.workid = g.workid
  seed : w.randomxSeedHash = g.randomxSeedHash

structure SameJob (w g : Work) : Prop where
  block : blockWords w.data = blockWords g.data
  fields : SameFields w g

theorem SameFields.refl (w : Work) : SameFields w w := ⟨rfl, rfl, rfl, rfl, rfl, rfl⟩

/-- A thread that has the header of the record has its other fields. -/
def UnambiguousFor (gWork : Work) (held : Option Work) : Prop :=
  ∀ w ∈ held, blockWords w.data = blockWords gWork.data → SameFields w gWork

def Unambiguous {n : Nat} (works : Fin n → Option Work) (gWork : Work) : Prop :=
  ∀ i, UnambiguousFor gWork (works i)

/-! ## What a step can do -/

/-- The header and the other fields are those of the published record if they
are now. -/
theorem SameFields.loadWork {w g : Work} (cfg : MinerConfig)
    (h : blockWords w.data = blockWords g.data → SameFields w g) :
    SameFields (loadWork cfg g w) g := by
  rw [AlphaMiner.loadWork]
  split
  · exact ⟨rfl, rfl, rfl, rfl, rfl, rfl⟩
  · next hsame =>
      obtain ⟨htarget, hjobId, hxnonce2, htxs, hworkid, hseed⟩ := h (not_not.mp hsame)
      exact ⟨htarget, hjobId, hxnonce2, htxs, hworkid, hseed⟩

section

variable {n : Nat} {sha256d : Bytes → Hash} {host : ByteOrder} {optRetries : Int}
  {cfg : Fin n → MinerConfig} {s s' : Mining n}

theorem refill_cases {i : Fin n} {work : Work} {r : NodeRefill}
    (h : s.refill sha256d host optRetries cfg i work r = some s') :
    s'.works = s.works ∨ s'.works = Function.update s.works i none := by
  unfold Mining.refill at h
  split at h
  · split at h
    · cases h
    · cases h
      exact .inr rfl
    · cases h
      exact .inl rfl
  · cases h
    exact .inl rfl

theorem round_cases {i : Fin n} {work : Work} {source : WorkSource}
    (hwork : s.works i = some work)
    (h : s.round sha256d host optRetries cfg i work source = some s') :
    s'.works = Function.update s.works i (some (loadWork (cfg i) s'.gWork work)) ∨
      s'.works = Function.update s.works i none := by
  unfold Mining.round at h
  cases source with
  | pool late =>
      simp only at h
      split at h
      · split at h
        · cases h
        · cases h
          exact .inl rfl
      · cases h
        exact .inl rfl
  | node r =>
      simp only at h
      split at h
      · cases h
      · next t hrefill =>
          rcases refill_cases hrefill with hkept | hleft
          · rw [hkept, hwork] at h
            cases h
            exact .inl (congrArg (Function.update · i _) hkept)
          · rw [hleft, Function.update_self] at h
            cases h
            exact .inr hleft

theorem skip_cases {i : Fin n} {work : Work} {refill : Option NodeRefill}
    (h : s.skip sha256d host optRetries cfg i work refill = some s') :
    s'.works = s.works ∨ s'.works = Function.update s.works i none := by
  cases refill with
  | none =>
      cases h
      exact .inl rfl
  | some r => exact refill_cases h

/-- Only a thread that has a record begins a round. -/
theorem miningStep_round {i : Fin n} {source : WorkSource}
    (h : miningStep sha256d host optRetries cfg s (.round i source) = some s') :
    ∃ work, s.works i = some work ∧
      s.round sha256d host optRetries cfg i work source = some s' := by
  rw [miningStep] at h
  split at h
  · cases h
  · next work hwork => exact ⟨work, hwork, h⟩

/-- A step changes one thread's record at most, to what a round or a scan makes
of it. -/
theorem miningStep_cases {e : MiningEvent n}
    (h : miningStep sha256d host optRetries cfg s e = some s') :
    s'.works = s.works ∨
      (∃ i work, s.works i = some work ∧
        s'.works = Function.update s.works i (some (loadWork (cfg i) s'.gWork work))) ∨
      (∃ i, s'.works = Function.update s.works i none) ∨
      ∃ i work r max, s.works i = some work ∧ s'.gWork = s.gWork ∧
        s'.works = Function.update s.works i
          (some (scannedWork work (scanhash (cfg i) r work max))) := by
  cases e with
  | message m =>
      cases h
      exact .inl rfl
  | generate =>
      rw [miningStep] at h
      split at h
      · cases h
      · cases h
        exact .inl rfl
  | longpoll gbt globals freed val =>
      rw [miningStep] at h
      split at h
      · cases h
      · cases h
        exact .inl rfl
  | round i source =>
      obtain ⟨work, hwork, hround⟩ := miningStep_round h
      rcases round_cases hwork hround with hload | hleft
      · exact .inr (.inl ⟨i, work, hwork, hload⟩)
      · exact .inr (.inr (.inl ⟨i, hleft⟩))
  | skip i refill =>
      rw [miningStep] at h
      split at h
      · cases h
      · rcases skip_cases h with hkept | hleft
        · exact .inl hkept
        · exact .inr (.inr (.inl ⟨i, hleft⟩))
  | scan i r max =>
      rw [miningStep] at h
      split at h
      · cases h
      · next work hwork =>
          cases h
          exact .inr (.inr (.inr ⟨i, work, r, max, hwork, rfl, rfl⟩))

theorem blockWords_scanned (cfg : MinerConfig) (r : Round) (work : Work) (max : UInt32) :
    blockWords (scannedWork work (scanhash cfg r work max)).data = blockWords work.data := by
  rw [scanhash_eq, searchAnswer, scannedWork]
  split
  · exact blockWords_set _ _
  · exact blockWords_set _ _

/-! ## Whole runs -/

/-- The runs that never publish a header which a thread has with another job. -/
def unambiguousRuns (sha256d : Bytes → Hash) (host : ByteOrder) (optRetries : Int)
    (cfg : Fin n → MinerConfig) : Lts (Mining n) (MiningEvent n) :=
  (minerThreads sha256d host optRetries cfg).guard fun s e =>
    ∀ s' ∈ miningStep sha256d host optRetries cfg s e, Unambiguous s.works s'.gWork

/-- What was no ambiguity when the record was published does not become one by
what the threads do. -/
theorem unambiguous_step {e : MiningEvent n} (hpub : Unambiguous s.works s'.gWork)
    (h : miningStep sha256d host optRetries cfg s e = some s') :
    Unambiguous s'.works s'.gWork := by
  intro j
  rcases miningStep_cases h with hsame | ⟨i, work, hwork, hload⟩ | ⟨i, hleft⟩ |
    ⟨i, work, r, max, hwork, -, hscan⟩
  · rw [hsame]
    exact hpub j
  · rw [hload, Function.update_apply]
    split
    · intro w hw _
      cases hw
      exact SameFields.loadWork (cfg i) (hpub i work hwork)
    · exact hpub j
  · rw [hleft, Function.update_apply]
    split
    · nofun
    · exact hpub j
  · rw [hscan, Function.update_apply]
    split
    · intro w hw hblock
      cases hw
      rw [blockWords_scanned] at hblock
      obtain ⟨htarget, hjobId, hxnonce2, htxs, hworkid, hseed⟩ := hpub i work hwork hblock
      exact ⟨htarget, hjobId, hxnonce2, htxs, hworkid, hseed⟩
    · exact hpub j

theorem unambiguous_reachable
    (h : (unambiguousRuns sha256d host optRetries cfg).Reachable s) :
    Unambiguous s.works s.gWork := by
  refine h.invariant ?_ fun s e s' _ hnext => unambiguous_step (hnext.1 s' hnext.2) hnext.2
  intro s hs i w hw _
  obtain rfl : s = .start n := hs
  cases hw
  exact .refl _

theorem block_of_round {i : Fin n} {source : WorkSource} {w : Work}
    (h : miningStep sha256d host optRetries cfg s (.round i source) = some s')
    (hw : s'.works i = some w) : blockWords w.data = blockWords s'.gWork.data := by
  obtain ⟨work, hwork, hround⟩ := miningStep_round h
  rcases round_cases hwork hround with hload | hleft
  · rw [hload, Function.update_self] at hw
    cases hw
    exact blockWords_loadWork _ _ _
  · rw [hleft, Function.update_self] at hw
    cases hw

/-- In a run that never publishes a header which a thread has with another job,
every round that goes on to scan leaves its thread with the published job. -/
theorem mines_published {i : Fin n} {source : WorkSource}
    (hs : (unambiguousRuns sha256d host optRetries cfg).Reachable s)
    (hround : (unambiguousRuns sha256d host optRetries cfg).next s (.round i source) s') :
    ∀ w ∈ s'.works i, SameJob w s'.gWork := by
  intro w hw
  have hblock := block_of_round hround.2 hw
  exact ⟨hblock, unambiguous_reachable (hs.step hround) i w hw hblock⟩

/-- A thread that has the published header with another job goes on with its
own, unless its round publishes something else. -/
theorem disagrees_next {i : Fin n} {source : WorkSource} {work : Work}
    (hwork : s.works i = some work) (hblock : blockWords work.data = blockWords s.gWork.data)
    (hother : ¬SameFields work s.gWork)
    (h : miningStep sha256d host optRetries cfg s (.round i source) = some s')
    (hkept : s'.gWork = s.gWork) : ∀ w ∈ s'.works i, ¬SameJob w s'.gWork := by
  intro w hw hsame
  obtain ⟨held, hheld, hround⟩ := miningStep_round h
  obtain rfl : work = held := Option.some.inj (hwork.symm.trans hheld)
  rcases round_cases hwork hround with hload | hleft
  · have hload' : loadWork (cfg i) s'.gWork work =
        { work with data := setNonceWord work.data (nonceWord work.data + 1) } := by
      rw [loadWork, if_neg (not_not.mpr (hkept ▸ hblock))]
    rw [hload, Function.update_self, hload'] at hw
    cases hw
    obtain ⟨htarget, hjobId, hxnonce2, htxs, hworkid, hseed⟩ := hkept ▸ hsame.fields
    exact hother ⟨htarget, hjobId, hxnonce2, htxs, hworkid, hseed⟩
  · rw [hleft, Function.update_self] at hw
    cases hw

end

/-! ## One header, two jobs

A pool that sends a job again under another id, at another difficulty. The
extra nonce starts over with the id, so the header is the same. -/

instance (w g : Work) : Decidable (SameFields w g) :=
  decidable_of_iff (w.target = g.target ∧ w.jobId = g.jobId ∧ w.xnonce2 = g.xnonce2 ∧
      w.txs = g.txs ∧ w.workid = g.workid ∧ w.randomxSeedHash = g.randomxSeedHash)
    ⟨fun ⟨h₁, h₂, h₃, h₄, h₅, h₆⟩ => ⟨h₁, h₂, h₃, h₄, h₅, h₆⟩,
      fun ⟨h₁, h₂, h₃, h₄, h₅, h₆⟩ => ⟨h₁, h₂, h₃, h₄, h₅, h₆⟩⟩

instance (gWork : Work) (held : Option Work) : Decidable (UnambiguousFor gWork held) :=
  inferInstanceAs (Decidable (∀ w ∈ held, blockWords w.data = blockWords gWork.data →
    SameFields w gWork))

instance {n : Nat} (works : Fin n → Option Work) (gWork : Work) :
    Decidable (Unambiguous works gWork) :=
  inferInstanceAs (Decidable (∀ i, UnambiguousFor gWork (works i)))

def miningConfig (_ : Fin 1) : MinerConfig where
  host := .little
  rx := ⟨fun _ => .replicate 32 0, fun _ _ => .replicate 32 0⟩
  wantBatchmode := false
  optNThreads := 1
  thrId := 0

def miningHash (b : Bytes) : Hash := .replicate 32 (b.getD 0 0)

/-- A difficulty and a job, and the work for it. -/
def miningJob (jobId : String) (diff : Int) : List (MiningEvent 1) :=
  [.message (.setDifficulty (some (.array [.integer diff]))),
    .message (.notify (fun _ => 0) (jobParams (ascii jobId) (ascii "0102") (ascii "03"))),
    .generate]

/-- Two rounds on one job: the first copies it, the second finds its header there and
takes the next nonce. -/
theorem mines_published_sample :
    ∃ s s₁ s₂, (unambiguousRuns miningHash .little (-1) miningConfig).Reachable s ∧
      (unambiguousRuns miningHash .little (-1) miningConfig).next s (.round 0 (.pool [])) s₁ ∧
      (unambiguousRuns miningHash .little (-1) miningConfig).next s₁ (.round 0 (.pool [])) s₂ ∧
      (∃ w, s₁.works 0 = some w ∧ w.jobId = some (ascii "01") ∧ nonceWord w.data = 0 ∧
        SameJob w s₁.gWork) ∧
      ∃ w, s₂.works 0 = some w ∧ w.jobId = some (ascii "01") ∧ nonceWord w.data = 1 ∧
        SameJob w s₂.gWork := by
  have hrun : ∃ s ∈ (miningJob "01" 1).foldlM (fun s e =>
      if ∀ s' ∈ miningStep miningHash .little (-1) miningConfig s e,
          Unambiguous s.works s'.gWork
      then miningStep miningHash .little (-1) miningConfig s e else none) (Mining.start 1),
      ∃ s₁ ∈ miningStep miningHash .little (-1) miningConfig s (.round 0 (.pool [])),
        (Unambiguous s.works s₁.gWork ∧
          ∃ w ∈ s₁.works 0, w.jobId = some (ascii "01") ∧ nonceWord w.data = 0) ∧
        ∃ s₂ ∈ miningStep miningHash .little (-1) miningConfig s₁ (.round 0 (.pool [])),
          Unambiguous s₁.works s₂.gWork ∧
            ∃ w ∈ s₂.works 0, w.jobId = some (ascii "01") ∧ nonceWord w.data = 1 := by
    decide +kernel
  obtain ⟨s, hrun, s₁, hnext₁, ⟨hpub₁, w₁, hw₁, hjobId₁, hnonce₁⟩, s₂, hnext₂, hpub₂, w₂, hw₂,
    hjobId₂, hnonce₂⟩ := hrun
  have hreach : (unambiguousRuns miningHash .little (-1) miningConfig).Reachable s :=
    Lts.Reachable.replay_guard (fun _ _ _ h => h) (.init rfl) hrun
  have hround₁ : (unambiguousRuns miningHash .little (-1) miningConfig).next s
      (.round 0 (.pool [])) s₁ :=
    ⟨fun t ht => by rwa [← Option.some.inj (hnext₁.symm.trans ht)], hnext₁⟩
  have hround₂ : (unambiguousRuns miningHash .little (-1) miningConfig).next s₁
      (.round 0 (.pool [])) s₂ :=
    ⟨fun t ht => by rwa [← Option.some.inj (hnext₂.symm.trans ht)], hnext₂⟩
  exact ⟨s, s₁, s₂, hreach, hround₁, hround₂,
    ⟨w₁, hw₁, hjobId₁, hnonce₁, mines_published hreach hround₁ w₁ hw₁⟩,
    w₂, hw₂, hjobId₂, hnonce₂, mines_published (hreach.step hround₁) hround₂ w₂ hw₂⟩

theorem mines_published_fails :
    ¬∀ s s' i source, (minerThreads miningHash .little (-1) miningConfig).Reachable s →
      (minerThreads miningHash .little (-1) miningConfig).next s (.round i source) s' →
      ∀ w ∈ s'.works i, SameJob w s'.gWork := by
  intro hclaim
  have hrun : ∃ s ∈ (miningJob "01" 1 ++ MiningEvent.round 0 (.pool []) ::
      miningJob "02" 2).foldlM (miningStep miningHash .little (-1) miningConfig) (Mining.start 1),
      ∃ s' ∈ miningStep miningHash .little (-1) miningConfig s (.round 0 (.pool [])),
        ∃ w ∈ s'.works 0, w.jobId = some (ascii "01") ∧ s'.gWork.jobId = some (ascii "02") := by
    decide +kernel
  obtain ⟨s, hrun, s', hnext, w, hw, hold, hnew⟩ := hrun
  have hreach : (minerThreads miningHash .little (-1) miningConfig).Reachable s :=
    Lts.Reachable.replay (fun _ _ _ h => h) (.init rfl) hrun
  have hsame := hclaim s s' 0 (.pool []) hreach hnext w hw
  rw [← hsame.fields.jobId, hold] at hnew
  cases hnew

end AlphaMiner
