import AlphaMiner.Model.ShareTarget
import AlphaMiner.Proofs.JobLayout

/-!
# The target of a job's work

A job keeps the difficulty that it was notified under, so its work gets the
right target as long as the job is still there when the second part of
`stratum_gen_work` asks for it. A notification in between puts another job in
its place. That does no harm if the difficulty is the same, and `steadyRuns` are
the runs in which no call that is under way is overtaken by another one.
-/

namespace AlphaMiner

open Lib

/-! ## What is wanted, and when it is had -/

/-- The record has the target of the difficulty at its own notification. -/
def OwnTarget (work : Work) (own : Option JobNotice) : Prop :=
  ∃ n ∈ own, work.jobId = some n.jobId ∧ work.target = diffToTarget (n.diff / 16)

/-- Every call that has come to its end is right. -/
def TargetsOwn {n : Nat} (s : GenCalls n) : Prop :=
  ∀ i work own, s.calls i = .done work own → OwnTarget work own

/-- The notification of the job that a call has copied and is not done with. -/
def GenCall.underWay : GenCall → Option JobNotice
  | .begun _ own => own
  | .idle | .done _ _ => none

/-- A notification that is taken finds every call that is under way with a job
of the difficulty that it brings itself. -/
def Steady {n : Nat} (s : GenCalls n) : GenEvent n → Prop
  | .message m => ∀ new ∈ m.notice s.ctx, ∀ i, ∀ n ∈ (s.calls i).underWay, n.diff = new.diff
  | .begin _ _ | .finish _ => True

def steadyRuns (n : Nat) (sha256d : Bytes → Hash) (host : ByteOrder) :
    Lts (GenCalls n) (GenEvent n) :=
  (genThreads n sha256d host).guard Steady

/-! ## The job and its notification -/

/-- A message leaves the job's id and difficulty or is the notification of both. -/
theorem handle_notice (m : PoolMessage) (ctx : StratumCtx) :
    (m.notice ctx = none ∧ (m.handle ctx).job = ctx.job) ∨
      ∃ n, m.notice ctx = some n ∧ (m.handle ctx).job.jobId = some n.jobId ∧
        (m.handle ctx).job.diff = n.diff := by
  cases m with
  | subscribe heap first second => exact .inl ⟨rfl, stratumSubscribe_job heap first second ctx⟩
  | setDifficulty params =>
      refine .inl ⟨rfl, ?_⟩
      show (stratumSetDifficulty params ctx).2.job = ctx.job
      rw [stratumSetDifficulty]
      split
      · rfl
      · rfl
  | notify heap params =>
      have hnotice : PoolMessage.notice (.notify heap params) ctx =
          (notifyParams params).map fun n => ⟨n.jobId, ctx.nextDiff⟩ := rfl
      have hhandle : PoolMessage.handle (.notify heap params) ctx =
          (stratumNotify heap params ctx).2 := rfl
      rw [hnotice, hhandle, stratumNotify]
      cases notifyParams params with
      | none => exact .inl ⟨rfl, rfl⟩
      | some n => exact .inr ⟨_, rfl, rfl, rfl⟩

theorem genWorkLocked_some {sha256d : Bytes → Hash} {host : ByteOrder} {ctx ctx' : StratumCtx}
    {work filled : Work} (h : genWorkLocked sha256d host ctx work = some (ctx', filled)) :
    filled.jobId.isSome = true ∧ filled.jobId = ctx.job.jobId ∧
      ctx'.job.jobId = ctx.job.jobId ∧ ctx'.job.diff = ctx.job.diff := by
  rw [genWorkLocked] at h
  cases hid : ctx.job.jobId with
  | none =>
      rw [hid] at h
      cases h
  | some jobId =>
      cases hx : slice? ctx.job.coinbase ctx.job.xnonce2 ctx.xnonce2Size with
      | none =>
          rw [hid, hx] at h
          cases h
      | some xnonce2 =>
          rw [hid, hx] at h
          cases h
          exact ⟨rfl, rfl, hid, rfl⟩

/-- What a call that is under way has to find when it goes on: its own job's
difficulty. -/
structure GenInvariant {n : Nat} (s : GenCalls n) : Prop where
  jobId : s.ctx.job.jobId = s.notice.map JobNotice.jobId
  diff : ∀ n ∈ s.notice, s.ctx.job.diff = n.diff
  begun : ∀ i work own, s.calls i = .begun work own →
    ∃ n ∈ own, work.jobId = some n.jobId ∧ s.ctx.job.diff = n.diff
  done : TargetsOwn s

section

variable {n : Nat} {sha256d : Bytes → Hash} {host : ByteOrder} {s s' : GenCalls n}

theorem genInvariant_message {m : PoolMessage} (hs : GenInvariant s)
    (hsteady : Steady s (.message m)) :
    GenInvariant { s with ctx := m.handle s.ctx, notice := (m.notice s.ctx).or s.notice } := by
  rcases handle_notice m s.ctx with ⟨hnone, hjob⟩ | ⟨new, hnew, hjobId, hdiff⟩
  · rw [hnone, Option.none_or]
    exact ⟨by rw [hjob]; exact hs.jobId, by rw [hjob]; exact hs.diff,
      by rw [hjob]; exact hs.begun, hs.done⟩
  · rw [hnew, Option.some_or]
    refine ⟨hjobId, fun n hn => ?_, fun i work own hcall => ?_, hs.done⟩
    · cases hn
      exact hdiff
    · obtain ⟨n, hn, hid, -⟩ := hs.begun i work own hcall
      refine ⟨n, hn, hid, ?_⟩
      rw [hdiff, hsteady new hnew i n (by rw [hcall]; exact hn)]

theorem genInvariant_begin {i : Fin n} {work : Work} (hs : GenInvariant s)
    (h : genStep sha256d host s (.begin i work) = some s') : GenInvariant s' := by
  rw [genStep] at h
  have hrun : ∃ ctx filled, genWorkLocked sha256d host s.ctx work = some (ctx, filled) ∧
      s' = { s with ctx := ctx, calls := Function.update s.calls i (.begun filled s.notice) } := by
    split at h
    · cases h
    all_goals
      split at h
      · cases h
      · next ctx filled hlocked =>
          cases h
          exact ⟨ctx, filled, hlocked, rfl⟩
  obtain ⟨ctx, filled, hlocked, rfl⟩ := hrun
  obtain ⟨hsome, hid, hjobId, hdiff⟩ := genWorkLocked_some hlocked
  rw [hid, hs.jobId, Option.isSome_map, Option.isSome_iff_exists] at hsome
  obtain ⟨notice, hnotice⟩ := hsome
  refine ⟨hjobId.trans hs.jobId, fun n hn => hdiff.trans (hs.diff n hn), ?_, ?_⟩
  · intro j w own hcall
    simp only [Function.update_apply] at hcall ⊢
    split at hcall
    · cases hcall
      refine ⟨notice, hnotice, ?_, hdiff.trans (hs.diff notice hnotice)⟩
      rw [hid, hs.jobId, hnotice]
      rfl
    · rw [hdiff]
      exact hs.begun j w own hcall
  · intro j w own hcall
    simp only [Function.update_apply] at hcall
    split at hcall
    · cases hcall
    · exact hs.done j w own hcall

theorem genInvariant_finish {i : Fin n} (hs : GenInvariant s)
    (h : genStep sha256d host s (.finish i) = some s') : GenInvariant s' := by
  rw [genStep] at h
  split at h
  · next work own hcall =>
      cases h
      refine ⟨hs.jobId, hs.diff, fun j w own' hj => ?_, fun j w own' hj => ?_⟩
      · simp only [Function.update_apply] at hj
        split at hj
        · cases hj
        · exact hs.begun j w own' hj
      · simp only [Function.update_apply] at hj
        split at hj
        · cases hj
          obtain ⟨n, hn, hid, hdiff⟩ := hs.begun i work own hcall
          exact ⟨n, hn, hid, by rw [genWorkTarget, hdiff]⟩
        · exact hs.done j w own' hj
  · cases h
  · cases h

theorem genInvariant_reachable (h : (steadyRuns n sha256d host).Reachable s) :
    GenInvariant s := by
  refine h.invariant ?_ fun s e s' hs hnext => ?_
  · intro s hs
    obtain rfl : s = .start n := hs
    exact ⟨rfl, nofun, nofun, nofun⟩
  · obtain ⟨hsteady, hnext⟩ := hnext
    cases e with
    | message m =>
        cases hnext
        exact genInvariant_message hs hsteady
    | begin i work => exact genInvariant_begin hs hnext
    | finish i => exact genInvariant_finish hs hnext

/-- In a run in which no call is overtaken by a notification of another
difficulty, all work has the target of its own job. -/
theorem targets_own (h : (steadyRuns n sha256d host).Reachable s) : TargetsOwn s :=
  (genInvariant_reachable h).done

end

/-! ## A call that is overtaken -/

instance {n : Nat} (s : GenCalls n) : DecidablePred (Steady s) := fun
  | .message m => inferInstanceAs (Decidable (∀ new ∈ m.notice s.ctx, ∀ i,
      ∀ n ∈ (s.calls i).underWay, n.diff = new.diff))
  | .begin _ _ | .finish _ => instDecidableTrue

def GenCall.finished : GenCall → Option (Work × Option JobNotice)
  | .done work own => some (work, own)
  | .idle | .begun _ _ => none

theorem done_of_finished {c : GenCall} {work : Work} {own : Option JobNotice}
    (h : c.finished = some (work, own)) : c = .done work own := by
  cases c with
  | done work' own' =>
      cases h
      rfl
  | idle => cases h
  | begun _ _ => cases h

def targetHash (_ : Bytes) : Hash := .replicate 32 0

/-- A difficulty, and then a job under it. -/
def targetJob (jobId : String) (diff : Int) : List (GenEvent 1) :=
  [.message (.setDifficulty (some (.array [.integer diff]))),
    .message (.notify (fun _ => 0) (jobParams (ascii jobId) (ascii "0102") (ascii "03")))]

/-- A call for the first job, and what the pool sends before it goes on. -/
def targetRun (late : List (GenEvent 1)) : List (GenEvent 1) :=
  targetJob "01" 1 ++ [.begin 0 .zero] ++ late ++ [.finish 0]

theorem targets_own_sample :
    ∃ s, (steadyRuns 1 targetHash .little).Reachable s ∧
      (∃ work own, s.calls 0 = .done work own ∧ work.jobId = some (ascii "01")) ∧
      TargetsOwn s := by
  have hrun : ∃ s ∈ (targetRun []).foldlM (fun s e =>
      if Steady s e then genStep targetHash .little s e else none) (GenCalls.start 1),
      ∃ r ∈ (s.calls 0).finished, r.1.jobId = some (ascii "01") := by decide +kernel
  obtain ⟨s, hrun, ⟨work, own⟩, hdone, hjobId⟩ := hrun
  have hreach : (steadyRuns 1 targetHash .little).Reachable s :=
    Lts.Reachable.replay_guard (fun _ _ _ h => h) (.init rfl) hrun
  exact ⟨s, hreach, ⟨work, own, done_of_finished hdone, hjobId⟩, targets_own hreach⟩

/-- A job at difficulty 1, which another one at 1024 takes the place of before
the target is set. -/
theorem targets_own_fails :
    ¬∀ s, (genThreads 1 targetHash .little).Reachable s → TargetsOwn s := by
  intro hclaim
  have hrun : ∃ s ∈ (targetRun (targetJob "02" 1024)).foldlM
      (genStep targetHash .little) (GenCalls.start 1), ∃ r ∈ (s.calls 0).finished,
        (∀ own ∈ r.2, own.diff = (1 : Rat)) ∧ r.1.target ≠ diffToTarget (1 / 16) := by
    decide +kernel
  obtain ⟨s, hrun, ⟨work, own⟩, hdone, hold, htarget⟩ := hrun
  have hreach : (genThreads 1 targetHash .little).Reachable s :=
    Lts.Reachable.replay (fun _ _ _ h => h) (.init rfl) hrun
  obtain ⟨n, hn, -, hown⟩ := hclaim s hreach 0 work own (done_of_finished hdone)
  have hdiff : n.diff = 1 := hold n hn
  rw [hdiff] at hown
  exact htarget hown

end AlphaMiner
