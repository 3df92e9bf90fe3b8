import AlphaMiner.Lib.System
import AlphaMiner.Model.Scan

/-!
# The dataset of an epoch (`miner_thread`, `dataset_barrier`, `dataset_lock`)

All miner threads hash over one dataset, and each through a VM of its own that
was created over it. A thread that takes work of another epoch than
`rx_current_key` asks for a new dataset: it raises `fCreateDataset`, waits for
all the others at the barrier, destroys its VM, and under the lock the first one
through builds the dataset, for the seed of its own work. Then each creates its
VM again.

A step is one of these actions by one thread. What happens under the lock is one
step, and so is a comparison of the shared key, which is made without it. Work
can be of any epoch, whatever the other threads have, since it is copied from
`g_work` whenever a thread gets there; only its seed matters here, and published
work has one. The barrier is the one of `pthread_barrier.c`. Where the code
exits the process, because RandomX has no memory or no dataset to make a VM
over, there is no step. A thread that leaves its loop for good, to clean up, is
not part of this.

A dataset is named by its place in the list of all that were ever allocated.
-/

namespace AlphaMiner

open Lib

def zeroHash : Hash := .replicate 32 0

structure Dataset where
  key : Hash
  released : Bool

structure Barrier where
  count : Nat
  phase : Nat

/-- What a thread does next. Waiting at the barrier it remembers the phase it
arrived in. -/
inductive EpochPc where
  | take
  | compare
  | setFlag
  | arrive
  | leave (phase : Nat)
  | destroy
  | rebuild
  | create
  | scan
  deriving DecidableEq

structure EpochThread where
  pc : EpochPc
  seed : Hash
  rxVm : Option Nat

structure Epoch (n : Nat) where
  threads : Fin n → EpochThread
  rxCurrentKey : Hash
  rxDataset : Option Nat
  datasets : List Dataset
  fCreateDataset : Bool
  barrier : Barrier

/-- The program before its threads start. -/
def Epoch.start (n : Nat) : Epoch n where
  threads := fun _ => ⟨.take, zeroHash, none⟩
  rxCurrentKey := zeroHash
  rxDataset := none
  datasets := []
  fCreateDataset := false
  barrier := ⟨0, 0⟩

inductive EpochAction (n : Nat) where
  | take (i : Fin n) (seed : Hash)
  | compare (i : Fin n)
  | setFlag (i : Fin n)
  | arrive (i : Fin n)
  | leave (i : Fin n)
  | destroy (i : Fin n)
  | rebuild (i : Fin n)
  | create (i : Fin n)
  | scan (i : Fin n)

namespace Epoch

variable {n : Nat}

def set (s : Epoch n) (i : Fin n) (t : EpochThread) : Epoch n :=
  { s with threads := fun j => if j = i then t else s.threads j }

/-- `randomx_release_dataset(rx_dataset)`, unless it is `NULL`. -/
def releaseDataset (s : Epoch n) : List Dataset :=
  match s.rxDataset with
  | none => s.datasets
  | some d => s.datasets.modify d fun dataset => { dataset with released := true }

/-- What the first thread under the lock does. -/
def rebuildDataset (s : Epoch n) (seed : Hash) : Epoch n :=
  { s with
    fCreateDataset := false
    rxCurrentKey := seed
    rxDataset := some s.datasets.length
    datasets := s.releaseDataset ++ [⟨seed, false⟩] }

/-- Between taking `dataset_lock` and giving it back. -/
def underLock (s : Epoch n) (i : Fin n) : Epoch n :=
  (if s.fCreateDataset then s.rebuildDataset (s.threads i).seed else s).set i
    { s.threads i with pc := .create }

/-- `pthread_barrier_wait` up to where a thread goes to sleep, if it does. -/
def arriveBarrier (s : Epoch n) (i : Fin n) : Epoch n :=
  let t := s.threads i
  let count := s.barrier.count + 1
  if n ≤ count then
    { s with barrier := ⟨0, s.barrier.phase + 1⟩ }.set i { t with pc := .destroy }
  else
    { s with barrier := ⟨count, s.barrier.phase⟩ }.set i { t with pc := .leave s.barrier.phase }

/-- One action of one thread, if that is what it does next. -/
def step (s : Epoch n) : EpochAction n → Option (Epoch n)
  | .take i seed =>
      let t := s.threads i
      if t.pc = .take ∧ seed ≠ zeroHash then some (s.set i ⟨.compare, seed, t.rxVm⟩) else none
  | .compare i =>
      let t := s.threads i
      if t.pc = .compare then
        some (s.set i { t with pc := if s.rxCurrentKey ≠ t.seed then .setFlag else .scan })
      else none
  | .setFlag i =>
      let t := s.threads i
      if t.pc = .setFlag then
        some ({ s with fCreateDataset := true }.set i { t with pc := .arrive })
      else none
  | .arrive i => if (s.threads i).pc = .arrive then some (s.arriveBarrier i) else none
  | .leave i =>
      let t := s.threads i
      match t.pc with
      | .leave phase =>
          if phase ≠ s.barrier.phase then some (s.set i { t with pc := .destroy }) else none
      | _ => none
  | .destroy i =>
      let t := s.threads i
      if t.pc = .destroy then some (s.set i { t with pc := .rebuild, rxVm := none }) else none
  | .rebuild i => if (s.threads i).pc = .rebuild then some (s.underLock i) else none
  | .create i =>
      let t := s.threads i
      match s.rxDataset with
      | none => none
      | some d =>
          if t.pc = .create then some (s.set i { t with pc := .scan, rxVm := some d }) else none
  | .scan i =>
      let t := s.threads i
      if t.pc = .scan then some (s.set i { t with pc := .take }) else none

/-- Whoever is scanning does so over a dataset that is still there and was built
for its seed. -/
def ScansOwnDataset (s : Epoch n) : Prop :=
  ∀ i, (s.threads i).pc = .scan →
    ∃ d, (s.threads i).rxVm = some d ∧ s.datasets[d]? = some ⟨(s.threads i).seed, false⟩

end Epoch

/-- Every interleaving of `n` threads. -/
def epochThreads (n : Nat) : Lts (Epoch n) (EpochAction n) where
  init s := s = .start n
  next s a s' := s.step a = some s'

end AlphaMiner
