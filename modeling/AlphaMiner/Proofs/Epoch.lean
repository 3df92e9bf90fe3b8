import AlphaMiner.Model.Epoch

/-!
# When threads hash with the dataset of their own epoch

Nothing in the protocol ties the dataset that is built to the threads it is
built for. The first thread under the lock builds it for its own seed, and a
thread with another seed that came to the same barrier makes its VM over that;
and a thread that has run ahead raises the flag again, so that a slow one builds
once more while a third is hashing already.

`Quiet` is what has to hold of the others when a thread gets the lock, and
`scansOwnDataset_of_quiet` says that it is enough. The invariant has two parts.
`DatasetInvariant` holds in any run: there is one dataset at a time, it is that
of the key, and the VMs are over it or over released ones. `ThreadOk` says,
position by position, what a thread may rely on, and it is what a disturbing
step breaks. `quiet_iff` says that it always does: after such a step a thread
can come to hash with a wrong dataset before anyone takes the lock again.
-/

namespace AlphaMiner

open Lib

namespace Epoch

variable {n : Nat}

/-! ## What a step can do -/

/-- What an action makes of the thread that takes it, while the dataset and the
key stay as they are. -/
inductive Move (s : Epoch n) (t : EpochThread) : EpochThread → Prop where
  | take {seed : Hash} (hpc : t.pc = .take) (hseed : seed ≠ zeroHash) :
      Move s t ⟨.compare, seed, t.rxVm⟩
  | differs (hpc : t.pc = .compare) (hkey : s.rxCurrentKey ≠ t.seed) :
      Move s t { t with pc := .setFlag }
  | agrees (hpc : t.pc = .compare) (hkey : s.rxCurrentKey = t.seed) :
      Move s t { t with pc := .scan }
  | setFlag (hpc : t.pc = .setFlag) : Move s t { t with pc := .arrive }
  | wait {phase : Nat} (hpc : t.pc = .arrive) : Move s t { t with pc := .leave phase }
  | last (hpc : t.pc = .arrive) : Move s t { t with pc := .destroy }
  | leave {phase : Nat} (hpc : t.pc = .leave phase) : Move s t { t with pc := .destroy }
  | destroy (hpc : t.pc = .destroy) : Move s t { t with pc := .rebuild, rxVm := none }
  | create {d : Nat} (hpc : t.pc = .create) (hdataset : s.rxDataset = some d) :
      Move s t { t with pc := .scan, rxVm := some d }
  | scan (hpc : t.pc = .scan) : Move s t { t with pc := .take }

/-- One thread has become `t`, and nothing else has changed but the barrier and
the flag, which is up if the thread has just raised it. -/
structure Moved (s s' : Epoch n) (i : Fin n) (t : EpochThread) : Prop where
  threads : s'.threads = (s.set i t).threads
  key : s'.rxCurrentKey = s.rxCurrentKey
  dataset : s'.rxDataset = s.rxDataset
  datasets : s'.datasets = s.datasets
  flag : s.fCreateDataset = true → s'.fCreateDataset = true
  raised : t.pc = .arrive → s'.fCreateDataset = true

theorem moved_set (s : Epoch n) (i : Fin n) {t : EpochThread} (ht : t.pc ≠ .arrive) :
    Moved s (s.set i t) i t :=
  ⟨rfl, rfl, rfl, rfl, id, fun h => absurd h ht⟩

theorem step_cases {s s' : Epoch n} {a : EpochAction n} (h : s.step a = some s') :
    (∃ i t, Move s (s.threads i) t ∧ Moved s s' i t) ∨
      ∃ i, a = .rebuild i ∧ (s.threads i).pc = .rebuild ∧ s' = s.underLock i := by
  cases a with
  | take i seed =>
      simp only [step] at h
      split at h
      · next hc =>
          cases h
          exact .inl ⟨i, _, .take hc.1 hc.2, moved_set s i nofun⟩
      · cases h
  | compare i =>
      simp only [step] at h
      split at h
      · next hpc =>
          cases h
          by_cases hkey : s.rxCurrentKey = (s.threads i).seed
          · rw [if_neg (not_not.mpr hkey)]
            exact .inl ⟨i, _, .agrees hpc hkey, moved_set s i nofun⟩
          · rw [if_pos hkey]
            exact .inl ⟨i, _, .differs hpc hkey, moved_set s i nofun⟩
      · cases h
  | setFlag i =>
      simp only [step] at h
      split at h
      · next hpc =>
          cases h
          exact .inl ⟨i, _, .setFlag hpc, rfl, rfl, rfl, rfl, fun _ => rfl, fun _ => rfl⟩
      · cases h
  | arrive i =>
      simp only [step] at h
      split at h
      · next hpc =>
          cases h
          rw [arriveBarrier]
          split
          · exact .inl ⟨i, _, .last hpc, rfl, rfl, rfl, rfl, id, nofun⟩
          · exact .inl ⟨i, _, .wait hpc, rfl, rfl, rfl, rfl, id, nofun⟩
      · cases h
  | leave i =>
      simp only [step] at h
      split at h
      · next phase hpc =>
          split at h
          · cases h
            exact .inl ⟨i, _, .leave hpc, moved_set s i nofun⟩
          · cases h
      · cases h
  | destroy i =>
      simp only [step] at h
      split at h
      · next hpc =>
          cases h
          exact .inl ⟨i, _, .destroy hpc, moved_set s i nofun⟩
      · cases h
  | rebuild i =>
      simp only [step] at h
      split at h
      · next hpc =>
          cases h
          exact .inr ⟨i, rfl, hpc, rfl⟩
      · cases h
  | create i =>
      simp only [step] at h
      split at h
      · cases h
      · next d hdataset =>
          split at h
          · next hpc =>
              cases h
              exact .inl ⟨i, _, .create hpc hdataset, moved_set s i nofun⟩
          · cases h
  | scan i =>
      simp only [step] at h
      split at h
      · next hpc =>
          cases h
          exact .inl ⟨i, _, .scan hpc, moved_set s i nofun⟩
      · cases h

@[simp] theorem set_threads_self (s : Epoch n) (i : Fin n) (t : EpochThread) :
    (s.set i t).threads i = t := if_pos rfl

theorem set_threads_ne (s : Epoch n) {i j : Fin n} (t : EpochThread) (h : j ≠ i) :
    (s.set i t).threads j = s.threads j := if_neg h

theorem underLock_of_flag {s : Epoch n} (i : Fin n) (h : s.fCreateDataset = true) :
    s.underLock i = (s.rebuildDataset (s.threads i).seed).set i
      { s.threads i with pc := .create } := by
  rw [underLock]
  rw [if_pos h]

theorem underLock_of_not_flag {s : Epoch n} (i : Fin n) (h : s.fCreateDataset ≠ true) :
    s.underLock i = s.set i { s.threads i with pc := .create } := by
  rw [underLock]
  rw [if_neg h]

/-! ## The dataset there is -/

/-- The thread has raised the flag and not yet had the lock. -/
def Asks : EpochPc → Prop
  | .arrive | .leave _ | .destroy | .rebuild => True
  | _ => False

structure DatasetInvariant (s : Epoch n) : Prop where
  current : ∀ d, s.rxDataset = some d → s.datasets[d]? = some ⟨s.rxCurrentKey, false⟩
  single : ∀ d dataset, s.datasets[d]? = some dataset → dataset.released = false →
    s.rxDataset = some d
  key : s.rxDataset = none → s.rxCurrentKey = zeroHash
  vms : ∀ i d, (s.threads i).rxVm = some d → d < s.datasets.length
  asks : ∀ i, Asks (s.threads i).pc → s.fCreateDataset = true ∨ s.rxDataset.isSome

@[simp] theorem length_releaseDataset (s : Epoch n) :
    s.releaseDataset.length = s.datasets.length := by
  rw [releaseDataset]
  split
  · rfl
  · rw [List.length_modify]

theorem DatasetInvariant.released {s : Epoch n} (hs : DatasetInvariant s) {d : Nat}
    {dataset : Dataset} (h : s.releaseDataset[d]? = some dataset) : dataset.released = true := by
  rw [releaseDataset] at h
  split at h
  · next hnone =>
      by_contra hreleased
      have hd := hs.single d dataset h (Bool.eq_false_iff.mpr hreleased)
      rw [hnone] at hd
      cases hd
  · next current hcurrent =>
      by_cases hd : current = d
      · rw [hd, List.getElem?_modify_eq] at h
        obtain ⟨_, -, rfl⟩ := Option.map_eq_some_iff.mp h
        rfl
      · rw [List.getElem?_modify_ne _ _ hd] at h
        by_contra hreleased
        have hd' := hs.single d dataset h (Bool.eq_false_iff.mpr hreleased)
        rw [hcurrent] at hd'
        exact hd (Option.some.inj hd')

/-- Behind a rebuild no VM that was there before is over the dataset. -/
theorem DatasetInvariant.stale {s : Epoch n} (hs : DatasetInvariant s) {seed : Hash} {d : Nat}
    {dataset : Dataset} (hd : d < s.datasets.length)
    (h : (s.rebuildDataset seed).datasets[d]? = some dataset) : dataset.released = true := by
  apply hs.released (d := d)
  rw [← h]
  exact (List.getElem?_append_left (by simpa using hd)).symm

theorem DatasetInvariant.rebuildDataset {s : Epoch n} (hs : DatasetInvariant s) (seed : Hash) :
    DatasetInvariant (s.rebuildDataset seed) := by
  have hlen : (s.rebuildDataset seed).datasets.length = s.datasets.length + 1 := by
    simp [Epoch.rebuildDataset]
  refine ⟨?_, ?_, nofun, ?_, fun _ _ => .inr rfl⟩
  · intro d hd
    obtain rfl : s.datasets.length = d := Option.some.inj hd
    have hnew := @List.getElem?_concat_length _ s.releaseDataset ⟨seed, false⟩
    rw [length_releaseDataset] at hnew
    exact hnew
  · intro d dataset h hreleased
    have hd : d < s.datasets.length + 1 := by
      rw [← hlen]
      exact (List.getElem?_eq_some_iff.mp h).1
    rcases Nat.lt_succ_iff_lt_or_eq.mp hd with hd | rfl
    · rw [hs.stale hd h] at hreleased
      cases hreleased
    · rfl
  · intro i d hd
    have := hs.vms i d hd
    omega

theorem Move.vm {s : Epoch n} {t t' : EpochThread} (h : Move s t t') {d : Nat}
    (hd : t'.rxVm = some d) : t.rxVm = some d ∨ s.rxDataset = some d := by
  cases h with
  | create hpc hdataset =>
      cases hd
      exact .inr hdataset
  | destroy hpc => cases hd
  | _ => exact .inl hd

theorem Move.asks {s : Epoch n} {t t' : EpochThread} (h : Move s t t') (ht : Asks t'.pc) :
    Asks t.pc ∨ t'.pc = .arrive := by
  cases h with
  | setFlag hpc => exact .inr rfl
  | wait hpc | last hpc | leave hpc | destroy hpc =>
      left
      rw [hpc]
      trivial
  | _ => exact ht.elim

theorem Moved.thread {s s' : Epoch n} {i : Fin n} {t : EpochThread} (h : Moved s s' i t) :
    s'.threads i = t := by
  rw [h.threads, set_threads_self]

theorem Moved.thread_ne {s s' : Epoch n} {i j : Fin n} {t : EpochThread} (h : Moved s s' i t)
    (hj : j ≠ i) : s'.threads j = s.threads j := by
  rw [h.threads, set_threads_ne s t hj]

theorem DatasetInvariant.moved {s s' : Epoch n} {i : Fin n} {t : EpochThread}
    (hs : DatasetInvariant s) (hmove : Move s (s.threads i) t) (h : Moved s s' i t) :
    DatasetInvariant s' := by
  refine ⟨?_, ?_, ?_, ?_, ?_⟩
  · rw [h.dataset, h.datasets, h.key]
    exact hs.current
  · rw [h.dataset, h.datasets]
    exact hs.single
  · rw [h.dataset, h.key]
    exact hs.key
  · intro j d hd
    rw [h.datasets]
    by_cases hj : j = i
    · rw [hj, h.thread] at hd
      rcases hmove.vm hd with hd | hd
      · exact hs.vms i d hd
      · exact (List.getElem?_eq_some_iff.mp (hs.current d hd)).1
    · rw [h.thread_ne hj] at hd
      exact hs.vms j d hd
  · intro j hasks
    rw [h.dataset]
    by_cases hj : j = i
    · rw [hj, h.thread] at hasks
      rcases hmove.asks hasks with hasks | hpc
      · exact (hs.asks i hasks).imp_left h.flag
      · exact .inl (h.raised hpc)
    · rw [h.thread_ne hj] at hasks
      exact (hs.asks j hasks).imp_left h.flag

/-- A thread that no longer asks, with the VM it had. -/
theorem DatasetInvariant.set {s : Epoch n} (hs : DatasetInvariant s) (i : Fin n)
    {t : EpochThread} (hvm : t.rxVm = (s.threads i).rxVm) (ht : ¬ Asks t.pc) :
    DatasetInvariant (s.set i t) := by
  refine ⟨hs.current, hs.single, hs.key, ?_, ?_⟩
  · intro j d hd
    by_cases hj : j = i
    · rw [hj, set_threads_self, hvm] at hd
      exact hs.vms i d hd
    · rw [set_threads_ne s t hj] at hd
      exact hs.vms j d hd
  · intro j hasks
    by_cases hj : j = i
    · rw [hj, set_threads_self] at hasks
      exact absurd hasks ht
    · rw [set_threads_ne s t hj] at hasks
      exact hs.asks j hasks

theorem DatasetInvariant.step {s s' : Epoch n} {a : EpochAction n} (hs : DatasetInvariant s)
    (h : s.step a = some s') : DatasetInvariant s' := by
  rcases step_cases h with ⟨i, t, hmove, hmoved⟩ | ⟨i, -, -, rfl⟩
  · exact hs.moved hmove hmoved
  · by_cases hflag : s.fCreateDataset = true
    · rw [underLock_of_flag i hflag]
      exact (hs.rebuildDataset _).set i rfl id
    · rw [underLock_of_not_flag i hflag]
      exact hs.set i rfl id

theorem datasetInvariant_start (n : Nat) : DatasetInvariant (Epoch.start n) :=
  ⟨nofun, nofun, fun _ => rfl, nofun, fun _ h => h.elim⟩

theorem datasetInvariant_reachable {s : Epoch n} (h : (epochThreads n).Reachable s) :
    DatasetInvariant s := by
  refine h.invariant ?_ fun s a s' hs hnext => hs.step hnext
  intro s hs
  obtain rfl : s = .start n := hs
  exact datasetInvariant_start n

/-! ## What a thread may rely on -/

/-- A thread that hashes with the VM it has, or will if the key is `key`. -/
def KeepsVm (key : Hash) (t : EpochThread) : Prop :=
  t.pc = .take ∨ t.pc = .scan ∨ t.pc = .compare ∧ t.seed = key

structure ThreadOk (s : Epoch n) (t : EpochThread) : Prop where
  seed : t.pc ≠ .take → t.seed ≠ zeroHash
  key : t.pc = .create ∨ t.pc = .scan → t.seed = s.rxCurrentKey
  vm : KeepsVm s.rxCurrentKey t → t.rxVm = s.rxDataset

/-- What has to hold when thread `i` gets the lock. If it is to build a dataset,
nobody goes on with the VM it has, and who is about to make one over whatever
there is has the same seed. If it is not, the dataset is for its seed. -/
def Quiet (s : Epoch n) (i : Fin n) : Prop :=
  if s.fCreateDataset then
    ∀ j, ¬ KeepsVm (s.threads i).seed (s.threads j) ∧
      ((s.threads j).pc = .create → (s.threads j).seed = (s.threads i).seed)
  else s.rxCurrentKey = (s.threads i).seed

def QuietStep (s : Epoch n) : EpochAction n → Prop
  | .rebuild i => s.Quiet i
  | _ => True

instance (key : Hash) (t : EpochThread) : Decidable (KeepsVm key t) :=
  inferInstanceAs (Decidable (_ ∨ _ ∨ _ ∧ _))

instance (s : Epoch n) (i : Fin n) : Decidable (s.Quiet i) :=
  inferInstanceAs (Decidable (ite _ _ _))

instance (s : Epoch n) : DecidablePred s.QuietStep := fun
  | .rebuild i => inferInstanceAs (Decidable (s.Quiet i))
  | .take .. | .compare _ | .setFlag _ | .arrive _ | .leave _ | .destroy _ | .create _
  | .scan _ => instDecidableTrue

theorem ThreadOk.move {s : Epoch n} {t t' : EpochThread} (ht : ThreadOk s t)
    (h : Move s t t') : ThreadOk s t' := by
  cases h with
  | take hpc hseed =>
      refine ⟨fun _ => hseed, nofun, fun _ => ht.vm (.inl hpc)⟩
  | agrees hpc hkey =>
      have hvm := ht.vm (.inr (.inr ⟨hpc, hkey.symm⟩))
      exact ⟨fun _ => ht.seed (by simp [hpc]), fun _ => hkey.symm, fun _ => hvm⟩
  | create hpc hdataset =>
      exact ⟨fun _ => ht.seed (by simp [hpc]), fun _ => ht.key (.inl hpc),
        fun _ => hdataset.symm⟩
  | scan hpc =>
      exact ⟨fun h => absurd rfl h, nofun, fun _ => ht.vm (.inr (.inl hpc))⟩
  | differs hpc | setFlag hpc | wait hpc | last hpc | leave hpc | destroy hpc =>
      exact ⟨fun _ => ht.seed (by simp [hpc]), nofun, nofun⟩

theorem ThreadOk.congr {s s' : Epoch n} {t : EpochThread} (ht : ThreadOk s t)
    (hkey : s'.rxCurrentKey = s.rxCurrentKey) (hdataset : s'.rxDataset = s.rxDataset) :
    ThreadOk s' t := by
  refine ⟨ht.seed, ?_, ?_⟩
  · rw [hkey]
    exact ht.key
  · rw [hkey, hdataset]
    exact ht.vm

theorem underLock_threads_self (s : Epoch n) (i : Fin n) :
    (s.underLock i).threads i = { s.threads i with pc := .create } :=
  set_threads_self _ _ _

theorem underLock_threads_ne (s : Epoch n) {i j : Fin n} (h : j ≠ i) :
    (s.underLock i).threads j = s.threads j := by
  rw [underLock, set_threads_ne _ _ h]
  split
  · rfl
  · rfl

theorem threadOk_underLock {s : Epoch n} {i : Fin n} (hs : ∀ j, ThreadOk s (s.threads j))
    (hpc : (s.threads i).pc = .rebuild) (hquiet : s.Quiet i) (j : Fin n) :
    ThreadOk (s.underLock i) ((s.underLock i).threads j) := by
  rw [Quiet] at hquiet
  by_cases hj : j = i
  · rw [hj, underLock_threads_self]
    refine ⟨fun _ => (hs i).seed (by simp [hpc]), fun _ => ?_, nofun⟩
    split at hquiet
    · next hflag =>
        rw [underLock_of_flag i hflag]
        rfl
    · next hflag =>
        rw [underLock_of_not_flag i hflag]
        exact hquiet.symm
  · rw [underLock_threads_ne s hj]
    split at hquiet
    · next hflag =>
        rw [underLock_of_flag i hflag]
        obtain ⟨hvm, hcreate⟩ := hquiet j
        refine ⟨(hs j).seed, ?_, fun h => absurd h hvm⟩
        intro h
        rcases h with h | h
        · exact hcreate h
        · exact absurd (.inr (.inl h)) hvm
    · next hflag =>
        rw [underLock_of_not_flag i hflag]
        exact (hs j).congr rfl rfl

theorem threadOk_step {s s' : Epoch n} {a : EpochAction n}
    (hs : ∀ j, ThreadOk s (s.threads j)) (hquiet : s.QuietStep a) (h : s.step a = some s')
    (j : Fin n) : ThreadOk s' (s'.threads j) := by
  rcases step_cases h with ⟨i, t, hmove, hmoved⟩ | ⟨i, rfl, hpc, rfl⟩
  · by_cases hj : j = i
    · rw [hj, hmoved.thread]
      exact ((hs i).move hmove).congr hmoved.key hmoved.dataset
    · rw [hmoved.thread_ne hj]
      exact (hs j).congr hmoved.key hmoved.dataset
  · exact threadOk_underLock hs hpc hquiet j

theorem scansOwnDataset_of_threadOk {s : Epoch n} (hs : DatasetInvariant s)
    (hthreads : ∀ j, ThreadOk s (s.threads j)) : s.ScansOwnDataset := by
  intro i hpc
  have hseed := (hthreads i).seed (by simp [hpc])
  have hkey := (hthreads i).key (.inr hpc)
  have hvm := (hthreads i).vm (.inr (.inl hpc))
  cases hdataset : s.rxDataset with
  | none => exact absurd (hkey.trans (hs.key hdataset)) hseed
  | some d =>
      refine ⟨d, hvm.trans hdataset, ?_⟩
      rw [hkey]
      exact hs.current d hdataset

end Epoch

/-! ## Whole runs -/

/-- The runs in which whoever gets the lock finds it quiet. -/
def quietRuns (n : Nat) : Lts (Epoch n) (EpochAction n) :=
  (epochThreads n).guard Epoch.QuietStep

theorem threadOk_reachable {n : Nat} {s : Epoch n} (h : (quietRuns n).Reachable s) :
    ∀ j, s.ThreadOk (s.threads j) := by
  refine h.invariant ?_ fun s a s' hs hnext => Epoch.threadOk_step hs hnext.1 hnext.2
  intro s hs j
  obtain rfl : s = .start n := hs
  exact ⟨fun h => absurd rfl h, nofun, fun _ => rfl⟩

/-- In every interleaving in which each rebuild, and each passing through the
lock without one, is quiet, threads only hash with a dataset of their own. -/
theorem scansOwnDataset_of_quiet {n : Nat} {s : Epoch n} (h : (quietRuns n).Reachable s) :
    s.ScansOwnDataset :=
  Epoch.scansOwnDataset_of_threadOk (Epoch.datasetInvariant_reachable h.of_guard)
    (threadOk_reachable h)

/-- Two threads that come to the barrier with a seed each, up to where both of
them hash. -/
def epochRun (seed₀ seed₁ : Hash) : List (EpochAction 2) :=
  [.take 0 seed₀, .compare 0, .setFlag 0, .arrive 0,
    .take 1 seed₁, .compare 1, .setFlag 1, .arrive 1,
    .leave 0, .destroy 0, .destroy 1, .rebuild 0, .rebuild 1, .create 0, .create 1]

theorem scansOwnDataset_of_quiet_sameSeed :
    ∃ s, (quietRuns 2).Reachable s ∧ (∀ i, (s.threads i).pc = .scan) ∧ s.ScansOwnDataset := by
  have hrun : ∃ s ∈ (epochRun (.replicate 32 1) (.replicate 32 1)).foldlM (fun s a =>
      if s.QuietStep a then s.step a else none) (Epoch.start 2),
      ∀ i, (s.threads i).pc = .scan := by decide +kernel
  obtain ⟨s, hrun, hpc⟩ := hrun
  have hreach : (quietRuns 2).Reachable s :=
    Lts.Reachable.replay_guard (fun _ _ _ h => h) (.init rfl) hrun
  exact ⟨s, hreach, hpc, scansOwnDataset_of_quiet hreach⟩

theorem scansOwnDataset_fails_twoSeeds :
    ¬ ∀ n s, (epochThreads n).Reachable s → s.ScansOwnDataset := by
  intro hclaim
  have hrun : ∃ s ∈ (epochRun (.replicate 32 1) (.replicate 32 2)).foldlM Epoch.step
      (Epoch.start 2), (s.threads 1).pc = .scan ∧ (s.threads 1).seed = .replicate 32 2 ∧
        (s.threads 1).rxVm = some 0 ∧
        s.datasets[0]?.map Dataset.key = some (.replicate 32 1) := by decide +kernel
  obtain ⟨s, hrun, hpc, hseed, hvm, hkey⟩ := hrun
  have hreach : (epochThreads 2).Reachable s :=
    Lts.Reachable.replay (fun _ _ _ h => h) (.init rfl) hrun
  obtain ⟨d, hd, hdataset⟩ := hclaim 2 s hreach 1 hpc
  obtain rfl : 0 = d := Option.some.inj (hvm.symm.trans hd)
  rw [hdataset, hseed] at hkey
  have hdiffer : (.replicate 32 2 : Hash) ≠ .replicate 32 1 := by decide
  exact hdiffer (Option.some.inj hkey)

/-! ## Nothing less will do -/

def EpochAction.locks {n : Nat} : EpochAction n → Bool
  | .rebuild _ => true
  | _ => false

/-- From `s`, until somebody gets the lock again. -/
def untilRebuild {n : Nat} (s : Epoch n) : Lts (Epoch n) (EpochAction n) where
  init s' := s' = s
  next s a s' := a.locks = false ∧ s.step a = some s'

namespace Epoch

variable {n : Nat}

/-- A VM from before a rebuild is one over a released dataset. -/
theorem not_scansOwnDataset_of_stale {s s' : Epoch n} (hs : DatasetInvariant s) {seed : Hash}
    {j : Fin n} (hdatasets : s'.datasets = (s.rebuildDataset seed).datasets)
    (hpc : (s'.threads j).pc = .scan) (hvm : (s'.threads j).rxVm = (s.threads j).rxVm) :
    ¬ s'.ScansOwnDataset := by
  intro hgood
  obtain ⟨d, hd, hdataset⟩ := hgood j hpc
  rw [hvm] at hd
  rw [hdatasets] at hdataset
  have hreleased := hs.stale (hs.vms j d hd) hdataset
  cases hreleased

theorem keepsVm_disturbs {s : Epoch n} (hs : DatasetInvariant s) {i j : Fin n}
    (hflag : s.fCreateDataset = true) (hseed : (s.threads i).seed ≠ zeroHash) (hj : j ≠ i)
    (hkeeps : KeepsVm (s.threads i).seed (s.threads j)) :
    ∃ s', (untilRebuild (s.underLock i)).Reachable s' ∧ ¬ s'.ScansOwnDataset := by
  have hself := underLock_threads_ne s hj
  have hkey : (s.underLock i).rxCurrentKey = (s.threads i).seed := by
    rw [underLock_of_flag i hflag]
    rfl
  have hdatasets : (s.underLock i).datasets = (s.rebuildDataset (s.threads i).seed).datasets := by
    rw [underLock_of_flag i hflag]
    rfl
  generalize s.underLock i = s₁ at hself hkey hdatasets
  have hstart : (untilRebuild s₁).Reachable s₁ := .init rfl
  rcases hkeeps with hpc | hpc | ⟨hpc, hsame⟩
  · have htake : s₁.step (.take j (s.threads i).seed) =
        some (s₁.set j ⟨.compare, (s.threads i).seed, (s.threads j).rxVm⟩) := by
      simp only [step, hself]
      exact if_pos ⟨hpc, hseed⟩
    have hcompare : (s₁.set j ⟨.compare, (s.threads i).seed, (s.threads j).rxVm⟩).step
        (.compare j) = some ((s₁.set j ⟨.compare, (s.threads i).seed,
          (s.threads j).rxVm⟩).set j ⟨.scan, (s.threads i).seed, (s.threads j).rxVm⟩) := by
      simp [step, show (s₁.set j ⟨.compare, (s.threads i).seed,
        (s.threads j).rxVm⟩).rxCurrentKey = (s.threads i).seed from hkey]
    refine ⟨_, (hstart.step ⟨rfl, htake⟩).step ⟨rfl, hcompare⟩,
      not_scansOwnDataset_of_stale hs hdatasets (j := j) ?_ ?_⟩
    · rw [set_threads_self]
    · rw [set_threads_self]
  · refine ⟨s₁, hstart, not_scansOwnDataset_of_stale hs hdatasets (j := j) ?_ ?_⟩
    · rw [hself, hpc]
    · rw [hself]
  · have hcompare : s₁.step (.compare j) = some (s₁.set j { s.threads j with pc := .scan }) := by
      simp [step, hself, hpc, hkey, hsame]
    refine ⟨_, hstart.step ⟨rfl, hcompare⟩,
      not_scansOwnDataset_of_stale hs hdatasets (j := j) ?_ ?_⟩
    · rw [set_threads_self]
    · rw [set_threads_self]

/-- A thread that makes its VM over a dataset with another key. -/
theorem create_disturbs {s : Epoch n} (hs : DatasetInvariant s) {j : Fin n}
    (hpc : (s.threads j).pc = .create) (hdataset : s.rxDataset.isSome)
    (hkey : (s.threads j).seed ≠ s.rxCurrentKey) :
    ∃ s', (untilRebuild s).Reachable s' ∧ ¬ s'.ScansOwnDataset := by
  obtain ⟨d, hd⟩ := Option.isSome_iff_exists.mp hdataset
  have hcreate : s.step (.create j) =
      some (s.set j { s.threads j with pc := .scan, rxVm := some d }) := by
    simp [step, hd, hpc]
  refine ⟨_, Lts.Reachable.step (.init rfl) ⟨rfl, hcreate⟩, fun hgood => ?_⟩
  obtain ⟨d', hvm, hd'⟩ := hgood j (by rw [set_threads_self])
  rw [set_threads_self] at hvm hd'
  obtain rfl : d = d' := Option.some.inj hvm
  have hsame := Option.some.inj ((hs.current d hd).symm.trans hd')
  exact hkey (congrArg Dataset.key hsame).symm

theorem underLock_disturbs {s : Epoch n} (hs : DatasetInvariant s)
    (hthreads : ∀ j, ThreadOk s (s.threads j)) {i : Fin n} (hpc : (s.threads i).pc = .rebuild)
    (hquiet : ¬ s.Quiet i) (hs' : DatasetInvariant (s.underLock i)) :
    ∃ t, (untilRebuild (s.underLock i)).Reachable t ∧ ¬ t.ScansOwnDataset := by
  rw [Quiet] at hquiet
  split at hquiet
  · next hflag =>
      obtain ⟨j, hj⟩ := not_forall.mp hquiet
      have hne : j ≠ i := by
        intro hne
        rw [hne] at hj
        exact hj ⟨by simp [KeepsVm, hpc], fun _ => rfl⟩
      by_cases hkeeps : KeepsVm (s.threads i).seed (s.threads j)
      · have hseed := (hthreads i).seed (by simp [hpc])
        exact keepsVm_disturbs hs hflag hseed hne hkeeps
      · obtain ⟨hcreate, hother⟩ := Classical.not_imp.mp fun h => hj ⟨hkeeps, h⟩
        apply create_disturbs hs' (j := j)
        · rw [underLock_threads_ne s hne, hcreate]
        · rw [underLock_of_flag i hflag]
          rfl
        · rw [underLock_threads_ne s hne, underLock_of_flag i hflag]
          exact hother
  · next hflag =>
      rcases hs.asks i (by rw [hpc]; trivial) with hasks | hasks
      · exact absurd hasks hflag
      · apply create_disturbs hs' (j := i)
        · rw [underLock_threads_self]
        · rw [underLock_of_not_flag i hflag]
          exact hasks
        · rw [underLock_threads_self, underLock_of_not_flag i hflag]
          exact fun h => hquiet h.symm

theorem scansOwnDataset_untilRebuild {s : Epoch n} (hs : DatasetInvariant s)
    (hthreads : ∀ j, ThreadOk s (s.threads j)) {s' : Epoch n}
    (h : (untilRebuild s).Reachable s') : s'.ScansOwnDataset := by
  have hinv : DatasetInvariant s' ∧ ∀ j, ThreadOk s' (s'.threads j) := by
    refine h.invariant (I := fun t => DatasetInvariant t ∧ ∀ j, ThreadOk t (t.threads j)) ?_ ?_
    · intro t ht
      obtain rfl : t = s := ht
      exact ⟨hs, hthreads⟩
    · intro t a t' ⟨hd, ht⟩ ⟨ha, hstep⟩
      refine ⟨hd.step hstep, threadOk_step ht ?_ hstep⟩
      cases a with
      | rebuild i => cases ha
      | _ => trivial
  exact scansOwnDataset_of_threadOk hinv.1 hinv.2

end Epoch

/-- A thread that gets the lock when it is not quiet makes it possible that some
thread hashes with a wrong dataset, or none, before the lock is taken again. -/
theorem quiet_iff {n : Nat} {s s' : Epoch n} {i : Fin n} (h : (quietRuns n).Reachable s)
    (hstep : s.step (.rebuild i) = some s') :
    s.Quiet i ↔ ∀ s'', (untilRebuild s').Reachable s'' → s''.ScansOwnDataset := by
  have hs := Epoch.datasetInvariant_reachable h.of_guard
  have hthreads := threadOk_reachable h
  have hs' := hs.step hstep
  constructor
  · intro hquiet s'' h''
    exact Epoch.scansOwnDataset_untilRebuild hs'
      (Epoch.threadOk_step (a := .rebuild i) hthreads hquiet hstep) h''
  · intro hgood
    by_contra hquiet
    have hpc : (s.threads i).pc = .rebuild := by
      by_contra hpc
      rw [Epoch.step, if_neg hpc] at hstep
      cases hstep
    rw [Epoch.step, if_pos hpc] at hstep
    obtain rfl := Option.some.inj hstep
    obtain ⟨t, ht, hbad⟩ := Epoch.underLock_disturbs hs hthreads hpc hquiet hs'
    exact hbad (hgood t ht)

end AlphaMiner
