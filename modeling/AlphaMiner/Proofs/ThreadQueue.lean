import AlphaMiner.Model.ThreadQueue

/-!
# Why `tq_pop` returns NULL

What is in the list has been accepted and not yet been popped (`Delivered`), so
a NULL that is taken from it has been pushed. The other NULL comes from a
consumer that goes on and finds nothing. `timelyPops` are the runs in which that
happens only on a queue that was frozen or was given a NULL, and `signalledPops`
are runs of one consumer in which it cannot happen otherwise: each wake-up is by
a signal, and the signal comes with an entry.
-/

namespace AlphaMiner

open Lib

variable {α : Type} {n : Nat} {s s' : PopCalls n α}

/-! ## What is wanted, and when it is had -/

/-- A reason to give up: the queue has been frozen, or a NULL was pushed. -/
def PopCalls.Reason (s : PopCalls n α) : Prop := s.everFrozen = true ∨ none ∈ s.accepted

def NullForReason (s : PopCalls n α) : Prop := ∀ i, s.calls i = .returned none → s.Reason

/-- A consumer that goes on finds an entry, or there is a reason. -/
def Timely (s : PopCalls n α) : QueueEvent n α → Prop
  | .resume _ => s.tq.q ≠ [] ∨ s.Reason
  | .push _ _ | .freezethaw _ _ | .pop _ | .spurious _ => True

def timelyPops (n : Nat) (α : Type) : Lts (PopCalls n α) (QueueEvent n α) :=
  (queueThreads n α).guard Timely

/-! ## The steps -/

/-- What was accepted and not popped is the list. -/
def Delivered (s : PopCalls n α) : Prop := s.accepted = s.popped ++ s.tq.q

theorem signal_returned {calls calls' : Fin n → PopCall α} {wake : Option (Fin n)}
    (h : signal calls wake = some calls') {i : Fin n} {rval : Option α} :
    calls' i = .returned rval ↔ calls i = .returned rval := by
  cases wake with
  | none =>
      rw [signal] at h
      split at h
      · cases h
        exact Iff.rfl
      · cases h
  | some j =>
      rw [signal] at h
      split at h
      · next hwaiting =>
          cases h
          rw [Function.update_apply]
          split
          · next hij =>
              subst hij
              refine ⟨nofun, fun hret => ?_⟩
              rw [hret] at hwaiting
              cases hwaiting
          · exact Iff.rfl
      · cases h

theorem delivered_push (hs : Delivered s) (data : Option α) :
    (if (tqPush s.tq data).1 then s.accepted ++ [data] else s.accepted) =
      s.popped ++ (tqPush s.tq data).2.q := by
  rw [tqPush]
  split
  · rw [hs]
    exact List.append_assoc _ _ _
  · exact hs

theorem delivered_popLocked (hs : Delivered s) (i : Fin n) (empty : PopCall α) :
    Delivered (popLocked s i empty) := by
  rw [popLocked]
  split
  · exact hs
  · next data q hq =>
      show s.accepted = (s.popped ++ [data]) ++ q
      rw [hs, hq, List.append_assoc]
      rfl

theorem popLocked_reason (i : Fin n) (empty : PopCall α) :
    (popLocked s i empty).Reason ↔ s.Reason := by
  rw [popLocked]
  split
  · exact Iff.rfl
  · exact Iff.rfl

theorem queueStep_pop {i : Fin n} (h : queueStep s (.pop i) = some s') :
    s' = popLocked s i .waiting := by
  rw [queueStep] at h
  split at h
  all_goals cases h
  all_goals rfl

theorem queueStep_spurious {i : Fin n} (h : queueStep s (.spurious i) = some s') :
    (s.calls i).isWaiting = true ∧ s' = { s with calls := Function.update s.calls i .woken } := by
  rw [queueStep] at h
  split at h
  · next hwaiting =>
      cases h
      exact ⟨hwaiting, rfl⟩
  · cases h

theorem queueStep_resume {i : Fin n} (h : queueStep s (.resume i) = some s') :
    s.calls i = .woken ∧ s' = popLocked s i (.returned none) := by
  rw [queueStep] at h
  split at h
  · next hwoken =>
      cases h
      exact ⟨hwoken, rfl⟩
  all_goals cases h

theorem delivered_step {e : QueueEvent n α} (hs : Delivered s) (h : queueStep s e = some s') :
    Delivered s' := by
  cases e with
  | push data wake =>
      obtain ⟨calls, -, rfl⟩ := Option.map_eq_some_iff.1 h
      exact delivered_push hs data
  | freezethaw frozen wake =>
      obtain ⟨calls, -, rfl⟩ := Option.map_eq_some_iff.1 h
      exact hs
  | pop i =>
      rw [queueStep_pop h]
      exact delivered_popLocked hs i .waiting
  | spurious i =>
      rw [(queueStep_spurious h).2]
      exact hs
  | resume i =>
      rw [(queueStep_resume h).2]
      exact delivered_popLocked hs i (.returned none)

/-- A reason does not go away. -/
theorem reason_step {e : QueueEvent n α} (hs : s.Reason) (h : queueStep s e = some s') :
    s'.Reason := by
  cases e with
  | push data wake =>
      obtain ⟨calls, -, rfl⟩ := Option.map_eq_some_iff.1 h
      refine hs.imp_right fun hnull => ?_
      show none ∈ if (tqPush s.tq data).1 then s.accepted ++ [data] else s.accepted
      split
      · exact List.mem_append_left _ hnull
      · exact hnull
  | freezethaw frozen wake =>
      obtain ⟨calls, -, rfl⟩ := Option.map_eq_some_iff.1 h
      exact hs.imp_left fun hfrozen => by rw [hfrozen, Bool.true_or]
  | pop i =>
      rw [queueStep_pop h]
      exact (popLocked_reason i .waiting).2 hs
  | spurious i =>
      rw [(queueStep_spurious h).2]
      exact hs
  | resume i =>
      rw [(queueStep_resume h).2]
      exact (popLocked_reason i (.returned none)).2 hs

/-! ## Where a NULL comes from -/

/-- A call of `tq_pop` ends with NULL because it took one or because it ended on
an empty list. -/
theorem popLocked_null {i j : Fin n} {empty : PopCall α} (hs : Delivered s)
    (h : (popLocked s i empty).calls j = .returned none) :
    s.calls j = .returned none ∨ none ∈ s.accepted ∨ s.tq.q = [] ∧ empty = .returned none := by
  rw [popLocked] at h
  split at h
  · next hq =>
      simp only [Function.update_apply] at h
      split at h
      · exact .inr (.inr ⟨hq, h⟩)
      · exact .inl h
  · next data q hq =>
      simp only [Function.update_apply] at h
      split at h
      · cases h
        refine .inr (.inl ?_)
        rw [hs, hq]
        exact List.mem_append_right _ List.mem_cons_self
      · exact .inl h

theorem nullForReason_step {e : QueueEvent n α} (hdelivered : Delivered s)
    (hnull : NullForReason s) (htimely : Timely s e) (h : queueStep s e = some s') :
    NullForReason s' := by
  intro i hi
  by_cases hold : s.calls i = .returned none
  · exact reason_step (hnull i hold) h
  cases e with
  | push data wake =>
      obtain ⟨calls, hsignal, rfl⟩ := Option.map_eq_some_iff.1 h
      exact absurd ((signal_returned hsignal).1 hi) hold
  | freezethaw frozen wake =>
      obtain ⟨calls, hsignal, rfl⟩ := Option.map_eq_some_iff.1 h
      exact absurd ((signal_returned hsignal).1 hi) hold
  | pop j =>
      obtain rfl := queueStep_pop h
      rw [popLocked_reason]
      rcases popLocked_null hdelivered hi with hi | haccepted | ⟨-, hempty⟩
      · exact absurd hi hold
      · exact .inr haccepted
      · cases hempty
  | spurious j =>
      obtain ⟨-, rfl⟩ := queueStep_spurious h
      simp only [Function.update_apply] at hi
      split at hi
      · cases hi
      · exact absurd hi hold
  | resume j =>
      obtain ⟨-, rfl⟩ := queueStep_resume h
      rw [popLocked_reason]
      rcases popLocked_null hdelivered hi with hi | haccepted | ⟨hq, -⟩
      · exact absurd hi hold
      · exact .inr haccepted
      · exact htimely.resolve_left fun hne => hne hq

/-- The condition is exact: without it the consumer gives up for no reason. -/
theorem untimely_step {e : QueueEvent n α} (htimely : ¬Timely s e)
    (h : queueStep s e = some s') : ¬NullForReason s' := by
  intro hnull
  cases e with
  | resume i =>
      obtain ⟨-, rfl⟩ := queueStep_resume h
      rw [Timely, not_or, not_not] at htimely
      obtain ⟨hq, hreason⟩ := htimely
      refine hreason ((popLocked_reason i (.returned none)).1 (hnull i ?_))
      rw [popLocked, hq]
      exact Function.update_self i _ _
  | push data wake => exact htimely trivial
  | freezethaw frozen wake => exact htimely trivial
  | pop i => exact htimely trivial
  | spurious i => exact htimely trivial

theorem timelyPops_invariant (h : (timelyPops n α).Reachable s) :
    Delivered s ∧ NullForReason s := by
  refine h.invariant (I := fun s => Delivered s ∧ NullForReason s) ?_ ?_
  · intro s hs
    obtain rfl : s = .start n α := hs
    exact ⟨rfl, nofun⟩
  · rintro s e s' ⟨hdelivered, hnull⟩ ⟨htimely, hnext⟩
    exact ⟨delivered_step hdelivered hnext, nullForReason_step hdelivered hnull htimely hnext⟩

/-- With every wake-up timely, `tq_pop` gives NULL for a reason only, and its
callers give up only then or because of what they were told to do. The first
wake-up that is not breaks this. -/
theorem null_for_reason (h : (timelyPops n α).Reachable s) :
    NullForReason s ∧
      (∀ i rval process, s.calls i = .returned rval → workioRound process rval = false →
        s.Reason ∨ ∃ wc, rval = some wc ∧ process wc = false) ∧
      (∀ i rval, s.calls i = .returned rval → getWork true rval = none → s.Reason) ∧
      ∀ e s', (queueThreads n α).next s e s' → (NullForReason s' ↔ Timely s e) := by
  obtain ⟨hdelivered, hnull⟩ := timelyPops_invariant h
  refine ⟨hnull, fun i rval process hret hround => ?_, fun i rval hret hwork => ?_,
    fun e s' hnext => ⟨fun hnull' => ?_, fun htimely => ?_⟩⟩
  · cases rval with
    | none => exact .inl (hnull i hret)
    | some wc => exact .inr ⟨wc, rfl, hround⟩
  · obtain rfl : rval = none := hwork
    exact hnull i hret
  · by_contra htimely
    exact untimely_step htimely hnext hnull'
  · exact nullForReason_step hdelivered hnull htimely hnext

/-! ## A spurious wake-up -/

instance [DecidableEq α] (s : PopCalls n α) : DecidablePred (Timely s) := fun
  | .resume _ => inferInstanceAs
      (Decidable (s.tq.q ≠ [] ∨ s.everFrozen = true ∨ none ∈ s.accepted))
  | .push _ _ | .freezethaw _ _ | .pop _ | .spurious _ => instDecidableTrue

def PopCall.result : PopCall α → Option (Option α)
  | .returned rval => some rval
  | .idle | .waiting | .woken => none

theorem returned_of_result {c : PopCall α} {rval : Option α} (h : c.result = some rval) :
    c = .returned rval := by
  cases c with
  | returned rval' =>
      cases h
      rfl
  | idle => cases h
  | waiting => cases h
  | woken => cases h

/-- A consumer is woken by a command, and the next one it finds in the list. -/
theorem null_for_reason_sample :
    ∃ s, (timelyPops 1 Nat).Reachable s ∧ s.calls 0 = .returned (some 8) ∧
      NullForReason s := by
  have hrun : ∃ s ∈ ([.pop 0, .push (some 7) (some 0), .push (some 8) none, .resume 0, .pop 0] :
      List (QueueEvent 1 Nat)).foldlM (fun s e => if Timely s e then queueStep s e else none)
        (PopCalls.start 1 Nat), (s.calls 0).result = some (some 8) := by decide
  obtain ⟨s, hrun, hresult⟩ := hrun
  have hreach : (timelyPops 1 Nat).Reachable s :=
    Lts.Reachable.replay_guard (fun _ _ _ h => h) (.init rfl) hrun
  exact ⟨s, hreach, returned_of_result hresult, (null_for_reason hreach).1⟩

/-- A consumer waits and goes on without a signal. -/
theorem null_for_reason_fails :
    ¬∀ s, (queueThreads 1 Nat).Reachable s → NullForReason s := by
  intro hclaim
  have hrun : ∃ s ∈ ([.pop 0, .spurious 0, .resume 0] : List (QueueEvent 1 Nat)).foldlM
      queueStep (PopCalls.start 1 Nat), (s.calls 0).result = some none ∧
        s.everFrozen = false ∧ none ∉ s.accepted := by decide
  obtain ⟨s, hrun, hresult, hfrozen, haccepted⟩ := hrun
  have hreach : (queueThreads 1 Nat).Reachable s :=
    Lts.Reachable.replay (fun _ _ _ h => h) (.init rfl) hrun
  rcases hclaim s hreach 0 (returned_of_result hresult) with hever | hnull
  · rw [hfrozen] at hever
    cases hever
  · exact haccepted hnull

/-! ## One consumer, woken by signals -/

/-- No spurious wake-up, and no `tq_thaw` of a queue that was never frozen, whose
signal would come without an entry. -/
def Signalled (s : PopCalls n α) : QueueEvent n α → Prop
  | .spurious _ => False
  | .freezethaw frozen _ => s.everFrozen = true ∨ frozen = true
  | .push _ _ | .pop _ | .resume _ => True

def signalledPops (α : Type) : Lts (PopCalls 1 α) (QueueEvent 1 α) :=
  (queueThreads 1 α).guard Signalled

/-- The entry that a consumer was woken for is still there. -/
structure WokenInvariant (s : PopCalls 1 α) : Prop where
  frozen : s.tq.frozen = true → s.everFrozen = true
  woken : ∀ i, s.calls i = .woken → s.tq.q ≠ [] ∨ s.everFrozen = true

theorem wokenInvariant_push {s : PopCalls 1 α} (hs : WokenInvariant s) (data : Option α)
    (calls : Fin 1 → PopCall α) (accepted : List (Option α)) :
    WokenInvariant { s with tq := (tqPush s.tq data).2, calls := calls, accepted := accepted } := by
  rw [tqPush]
  split
  · refine ⟨hs.frozen, fun i _ => .inl ?_⟩
    exact List.append_ne_nil_of_right_ne_nil _ (List.cons_ne_nil _ _)
  · next hfrozen =>
      rw [Bool.not_eq_true, Bool.not_eq_false'] at hfrozen
      exact ⟨hs.frozen, fun i _ => .inr (hs.frozen hfrozen)⟩

/-- The only consumer is not woken once it has had the mutex. -/
theorem wokenInvariant_popLocked {s : PopCalls 1 α} (hs : WokenInvariant s) (i : Fin 1)
    {empty : PopCall α} (hempty : empty ≠ .woken) : WokenInvariant (popLocked s i empty) := by
  rw [popLocked]
  split
  · refine ⟨hs.frozen, fun j hj => absurd hj ?_⟩
    show Function.update s.calls i empty j ≠ .woken
    rw [Subsingleton.elim j i, Function.update_self]
    exact hempty
  · next data q hq =>
      refine ⟨hs.frozen, fun j hj => absurd hj ?_⟩
      show Function.update s.calls i (.returned data) j ≠ .woken
      rw [Subsingleton.elim j i, Function.update_self]
      exact nofun

theorem wokenInvariant_step {s s' : PopCalls 1 α} {e : QueueEvent 1 α} (hs : WokenInvariant s)
    (hsignalled : Signalled s e) (h : queueStep s e = some s') : WokenInvariant s' := by
  cases e with
  | push data wake =>
      obtain ⟨calls, -, rfl⟩ := Option.map_eq_some_iff.1 h
      exact wokenInvariant_push hs data calls _
  | freezethaw frozen wake =>
      obtain ⟨calls, -, rfl⟩ := Option.map_eq_some_iff.1 h
      have hever : (s.everFrozen || frozen) = true := Bool.or_eq_true_iff.2 hsignalled
      exact ⟨fun _ => hever, fun _ _ => .inr hever⟩
  | pop i =>
      rw [queueStep_pop h]
      exact wokenInvariant_popLocked hs i nofun
  | spurious i => exact hsignalled.elim
  | resume i =>
      rw [(queueStep_resume h).2]
      exact wokenInvariant_popLocked hs i nofun

/-- Such runs are timely throughout. -/
theorem timely_of_signalled {s : PopCalls 1 α} (h : (signalledPops α).Reachable s) :
    (timelyPops 1 α).Reachable s := by
  refine (h.invariant (I := fun s => (timelyPops 1 α).Reachable s ∧ WokenInvariant s) ?_ ?_).1
  · intro s hs
    obtain rfl : s = .start 1 α := hs
    exact ⟨.init rfl, nofun, nofun⟩
  · rintro s e s' ⟨hreach, hs⟩ ⟨hsignalled, hnext⟩
    have htimely : Timely s e := by
      cases e with
      | resume i =>
          rcases hs.woken i (queueStep_resume hnext).1 with hq | hfrozen
          · exact .inl hq
          · exact .inr (.inl hfrozen)
      | push data wake => trivial
      | freezethaw frozen wake => trivial
      | pop i => trivial
      | spurious i => trivial
    exact ⟨hreach.step ⟨htimely, hnext⟩, wokenInvariant_step hs hsignalled hnext⟩

end AlphaMiner
