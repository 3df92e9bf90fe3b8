import AlphaMiner.Model.Payout
import AlphaMiner.Proofs.Address
import AlphaMiner.Proofs.Coinbase

/-!
# Who is paid

Outside a selection the length goes with the script, and a coinbase that is built
then pays what was selected. Inside one the script is the new one already and the
length is still the old one. That is as good if the two scripts have the same
length, and only then: the copy begins with the two bytes that tell how long the
new script is.
-/

namespace AlphaMiner

open Lib

variable {sha256d : Bytes → Hash} {addresses : List (LoadedAddress sha256d)} {s s' : Payout}

/-! ## What is wanted, and when it is had -/

def PaysLoaded (addresses : List (LoadedAddress sha256d)) (s : Payout) : Prop :=
  ∀ cbtx ∈ s.coinbases, ∃ address ∈ addresses, firstScript cbtx = address.script

/-- The template gets a coinbase of the miner's own. -/
def buildsOwn (sha256d : Bytes → Hash) (s : Payout) (cfg : GbtConfig) (val : Option Json)
    (txa : List Json) (gbt : GbtState) : Bool :=
  (jsonObjectGet val "coinbasetxn").isNone &&
    reachedEnd (Gbt.coinbase sha256d (s.config cfg) val txa gbt)

/-- A coinbase that is built during a selection finds the length right all the
same. -/
def Undisturbed (sha256d : Bytes → Hash) (s : Payout) : PayoutEvent → Prop
  | .template cfg val txa gbt =>
      buildsOwn sha256d s cfg val txa gbt = true → ∀ size ∈ s.selecting, s.pkScriptSize = size
  | .select _ | .assign => True

def undisturbedRuns (sha256d : Bytes → Hash) (addresses : List (LoadedAddress sha256d)) :
    Lts Payout PayoutEvent :=
  (payoutThreads sha256d addresses).guard (Undisturbed sha256d)

/-! ## The loaded scripts -/

/-- The selection writes what the address was loaded for. -/
theorem LoadedAddress.writes (address : LoadedAddress sha256d) :
    PayoutScript address.script ∧ ∀ out, 42 ≤ out.length →
      addressToScript sha256d out address.addr =
        some (address.script.length, store out 0 address.script) := by
  have hloaded := address.loaded
  rw [loadedScript] at hloaded
  rcases addressToScript_cases sha256d address.addr with hnone | hzero | ⟨script, hscript, hwrite⟩
  · rw [hnone] at hloaded
    cases hloaded
  · rw [hzero] at hloaded
    simp only [if_true] at hloaded
    cases hloaded
  · obtain ⟨hmin, hmax⟩ := hscript.length_le
    rw [hwrite _ (by rw [List.length_replicate]; omega)] at hloaded
    simp only [if_neg (show ¬script.length = 0 by omega)] at hloaded
    have hfit : 0 + script.length ≤ (List.replicate 128 (0 : UInt8)).length := by
      rw [List.length_replicate]
      omega
    have hsame : script = address.script := by
      rw [← Option.some.inj hloaded]
      exact (slice_store hfit).symm
    subst hsame
    exact ⟨hscript, fun out hout => hwrite out (by omega)⟩

/-- The script in the buffer, and the length that belongs to it. -/
def Selected (addresses : List (LoadedAddress sha256d)) (pkScript : Bytes) (size : Nat) : Prop :=
  ∃ address ∈ addresses, slice pkScript 0 size = address.script ∧ address.script.length = size

structure PayoutInvariant (addresses : List (LoadedAddress sha256d)) (s : Payout) : Prop where
  length : s.pkScript.length = 42
  size : s.pkScriptSize = 0 ∨ ∃ address ∈ addresses, address.script.length = s.pkScriptSize
  settled : s.selecting = none →
    s.pkScriptSize = 0 ∨ Selected addresses s.pkScript s.pkScriptSize
  selecting : ∀ size ∈ s.selecting, Selected addresses s.pkScript size
  pays : PaysLoaded addresses s

theorem take_two_slice {buf : Bytes} {n : Nat} (hn : 2 ≤ n) :
    (slice buf 0 n).take 2 = buf.take 2 := by
  rw [slice, List.drop_zero, List.take_take, Nat.min_eq_left hn]

section

variable (hs : PayoutInvariant addresses s)

include hs

theorem PayoutInvariant.size_le : s.pkScriptSize ≤ 42 := by
  rcases hs.size with hzero | ⟨address, -, hsize⟩
  · omega
  · rw [← hsize]
    exact address.writes.1.length_le.2

/-- What would be copied just now is a loaded script exactly if no selection is in
the way. -/
theorem copied_iff (hsize : s.pkScriptSize ≠ 0) :
    (∃ address ∈ addresses, slice s.pkScript 0 s.pkScriptSize = address.script) ↔
      ∀ size ∈ s.selecting, s.pkScriptSize = size := by
  constructor
  · rintro ⟨address, -, hcopied⟩ size hselecting
    obtain ⟨new, -, hnew, hlen⟩ := hs.selecting size hselecting
    have hmin := new.writes.1.length_le.1
    have hmin' := address.writes.1.length_le.1
    have hold : (slice s.pkScript 0 s.pkScriptSize).length = s.pkScriptSize :=
      length_slice (by rw [hs.length, Nat.zero_add]; exact hs.size_le)
    rw [hcopied] at hold
    have hbegin : address.script.take 2 = new.script.take 2 := by
      rw [← hcopied, ← hnew, take_two_slice (by omega), take_two_slice (by omega)]
    rw [address.writes.1.length_eq new.writes.1 hbegin, hlen] at hold
    exact hold.symm
  · intro hundisturbed
    have hselected : Selected addresses s.pkScript s.pkScriptSize := by
      cases hselecting : s.selecting with
      | none => exact (hs.settled hselecting).resolve_left hsize
      | some size =>
          rw [hundisturbed size hselecting]
          exact hs.selecting size hselecting
    obtain ⟨address, hmem, hscript, -⟩ := hselected
    exact ⟨address, hmem, hscript⟩

end

/-! ## The steps -/

theorem payoutStep_select {randomIndex : Nat} (hlen : s.pkScript.length = 42)
    (h : payoutStep sha256d addresses s (.select randomIndex) = some s') :
    ∃ address ∈ addresses, s' = { s with
      pkScript := store s.pkScript 0 address.script
      selecting := some address.script.length } := by
  rw [payoutStep] at h
  split at h
  · next address _ haddress =>
      rw [address.writes.2 s.pkScript (by omega)] at h
      cases h
      exact ⟨address, List.mem_of_getElem? haddress, rfl⟩
  · cases h
  · cases h

theorem payoutStep_assign (h : payoutStep sha256d addresses s .assign = some s') :
    ∃ size, s.selecting = some size ∧
      s' = { s with pkScriptSize := size, selecting := none } := by
  rw [payoutStep] at h
  split at h
  · next size hselecting =>
      cases h
      exact ⟨size, hselecting, rfl⟩
  · cases h

/-- Nothing is built, or a coinbase that pays the bytes of just now. -/
theorem payoutStep_template {cfg : GbtConfig} {val : Option Json} {txa : List Json}
    {gbt : GbtState} (hsize : s.pkScriptSize < 256)
    (h : payoutStep sha256d addresses s (.template cfg val txa gbt) = some s') :
    (buildsOwn sha256d s cfg val txa gbt = false ∧ s' = s) ∨
      (buildsOwn sha256d s cfg val txa gbt = true ∧ s.pkScriptSize ≠ 0 ∧
        ∃ cbtx, s' = { s with coinbases := s.coinbases ++ [cbtx] } ∧
          firstScript cbtx = slice s.pkScript 0 s.pkScriptSize) := by
  unfold payoutStep at h
  rw [buildsOwn]
  simp only at h
  cases hbuild : Gbt.coinbase sha256d (s.config cfg) val txa gbt with
  | ok r gbt' =>
      rw [hbuild] at h
      cases hown : jsonObjectGet val "coinbasetxn" with
      | none =>
          rw [hown] at h
          cases h
          obtain ⟨hpaid, hscript⟩ := Gbt.coinbase_pays hown hsize hbuild
          exact .inr ⟨rfl, hpaid, _, rfl, hscript⟩
      | some coinbasetxn =>
          rw [hown] at h
          cases h
          exact .inl ⟨rfl, rfl⟩
  | error e gbt' =>
      rw [hbuild] at h
      cases h
      exact .inl ⟨Bool.and_false _, rfl⟩

/-- A step that builds a coinbase pays a loaded script exactly if it is
undisturbed, and no other step pays anybody. -/
theorem paysLoaded_step {e : PayoutEvent} (hs : PayoutInvariant addresses s)
    (h : payoutStep sha256d addresses s e = some s') :
    PaysLoaded addresses s' ↔ Undisturbed sha256d s e := by
  cases e with
  | select randomIndex =>
      obtain ⟨address, -, rfl⟩ := payoutStep_select hs.length h
      exact iff_of_true hs.pays trivial
  | assign =>
      obtain ⟨size, -, rfl⟩ := payoutStep_assign h
      exact iff_of_true hs.pays trivial
  | template cfg val txa gbt =>
      have hle := hs.size_le
      rcases payoutStep_template (by omega) h with ⟨hnone, rfl⟩ | ⟨hown, hsize, cbtx, rfl, hscript⟩
      · refine iff_of_true hs.pays fun hown => ?_
        rw [hnone] at hown
        cases hown
      · have hnew : PaysLoaded addresses { s with coinbases := s.coinbases ++ [cbtx] } ↔
            ∃ address ∈ addresses, firstScript cbtx = address.script := by
          constructor
          · intro hpays
            exact hpays cbtx (List.mem_append_right _ (List.mem_singleton_self cbtx))
          · intro hnew cbtx' hmem
            rcases List.mem_append.1 hmem with hold | hlast
            · exact hs.pays cbtx' hold
            · rw [List.mem_singleton.1 hlast]
              exact hnew
        rw [hnew, hscript, copied_iff hs hsize]
        exact ⟨fun hcopied _ => hcopied, fun hundisturbed => hundisturbed hown⟩

theorem payoutInvariant_step {e : PayoutEvent} (hs : PayoutInvariant addresses s)
    (hundisturbed : Undisturbed sha256d s e)
    (h : payoutStep sha256d addresses s e = some s') : PayoutInvariant addresses s' := by
  have hpays := (paysLoaded_step hs h).2 hundisturbed
  cases e with
  | select randomIndex =>
      obtain ⟨address, hmem, rfl⟩ := payoutStep_select hs.length h
      have hfit : 0 + address.script.length ≤ s.pkScript.length := by
        rw [hs.length, Nat.zero_add]
        exact address.writes.1.length_le.2
      refine ⟨by rw [length_store hfit]; exact hs.length, hs.size, nofun, ?_, hpays⟩
      intro size hsize
      cases hsize
      exact ⟨address, hmem, slice_store hfit, rfl⟩
  | assign =>
      obtain ⟨size, hselecting, rfl⟩ := payoutStep_assign h
      obtain ⟨address, hmem, hscript, hlen⟩ := hs.selecting size hselecting
      exact ⟨hs.length, .inr ⟨address, hmem, hlen⟩,
        fun _ => .inr ⟨address, hmem, hscript, hlen⟩, nofun, hpays⟩
  | template cfg val txa gbt =>
      have hle := hs.size_le
      rcases payoutStep_template (by omega) h with ⟨-, rfl⟩ | ⟨-, -, cbtx, rfl, -⟩
      · exact hs
      · exact ⟨hs.length, hs.size, hs.settled, hs.selecting, hpays⟩

theorem payoutInvariant_reachable (h : (undisturbedRuns sha256d addresses).Reachable s) :
    PayoutInvariant addresses s := by
  refine h.invariant ?_ fun s e s' hs hnext => payoutInvariant_step hs hnext.1 hnext.2
  intro s hs
  obtain rfl : s = .start := hs
  exact ⟨rfl, .inl rfl, fun _ => .inl rfl, nofun, nofun⟩

/-- In a run in which no coinbase is built between the parts of a selection that
changes the length, every coinbase pays a loaded address. The first step that
misses this is the first that pays anything else. -/
theorem pays_loaded (h : (undisturbedRuns sha256d addresses).Reachable s) :
    PaysLoaded addresses s ∧
      ∀ e s', (payoutThreads sha256d addresses).next s e s' →
        (PaysLoaded addresses s' ↔ Undisturbed sha256d s e) := by
  have hs := payoutInvariant_reachable h
  exact ⟨hs.pays, fun e s' hnext => paysLoaded_step hs hnext⟩

/-! ## A template during a selection -/

instance (s : Payout) : DecidablePred (Undisturbed sha256d s) := fun
  | .template cfg val txa gbt => inferInstanceAs (Decidable
      (buildsOwn sha256d s cfg val txa gbt = true → ∀ size ∈ s.selecting, s.pkScriptSize = size))
  | .select _ | .assign => instDecidableTrue

/-- Two witness programs, of two bytes and of sixteen. -/
def payoutAddresses : List (LoadedAddress sampleHash) :=
  [⟨ascii "BC1SW50QA3JX3S", [0x60, 0x02, 0x75, 0x1e], by decide +kernel⟩,
    ⟨ascii "bc1zw508d6qejxtdg4y5r3zarvaryvg6kdaj",
      [0x52, 0x10, 0x75, 0x1e, 0x76, 0xe8, 0x19, 0x91, 0x96, 0xd4, 0x54, 0x94, 0x1c, 0x45, 0xd1,
        0xb3, 0xa3, 0x23], by decide +kernel⟩]

def payoutTemplate : PayoutEvent :=
  .template sampleConfig (some (.object [("coinbasevalue", .integer 5000000000)])) [] sampleStart

/-- Both addresses are selected and paid. -/
theorem pays_loaded_sample :
    ∃ s, (undisturbedRuns sampleHash payoutAddresses).Reachable s ∧ s.coinbases.length = 2 ∧
      PaysLoaded payoutAddresses s := by
  have hrun : ∃ s ∈ ([.select 0, .assign, payoutTemplate, .select 1, .assign, payoutTemplate] :
      List PayoutEvent).foldlM (fun s e =>
        if Undisturbed sampleHash s e then payoutStep sampleHash payoutAddresses s e else none)
      Payout.start,
      s.coinbases.length = 2 := by decide +kernel
  obtain ⟨s, hrun, hlen⟩ := hrun
  have hreach : (undisturbedRuns sampleHash payoutAddresses).Reachable s :=
    Lts.Reachable.replay_guard (fun _ _ _ h => h) (.init rfl) hrun
  exact ⟨s, hreach, hlen, (pays_loaded hreach).1⟩

/-- The second address is selected, and the template comes before its length is
set: four bytes of the eighteen are paid. -/
theorem pays_loaded_fails :
    ¬∀ s, (payoutThreads sampleHash payoutAddresses).Reachable s →
      PaysLoaded payoutAddresses s := by
  intro hclaim
  have hrun : ∃ s ∈ ([.select 0, .assign, .select 1, payoutTemplate] :
      List PayoutEvent).foldlM (payoutStep sampleHash payoutAddresses) Payout.start,
      ∃ cbtx ∈ s.coinbases, ∀ address ∈ payoutAddresses, firstScript cbtx ≠ address.script := by
    decide +kernel
  obtain ⟨s, hrun, cbtx, hmem, hother⟩ := hrun
  have hreach : (payoutThreads sampleHash payoutAddresses).Reachable s :=
    Lts.Reachable.replay (fun _ _ _ h => h) (.init rfl) hrun
  obtain ⟨address, haddress, hscript⟩ := hclaim s hreach cbtx hmem
  exact hother address haddress hscript

end AlphaMiner
