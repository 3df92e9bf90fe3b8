import AlphaMiner.Model.ThreadList
import AlphaMiner.Proofs.ThreadQueue

/-!
# What is pushed is popped, once and in order

The pointers of the thread queue form a ring, and the entries of the ring are the
list of the queue that `ThreadQueue` is about (`Holds`). An entry that a producer
has filled out and not yet put there is allocated and in no ring, so neither
another producer's edit nor a consumer's `free` can touch it. With that every
critical section runs to its end, and every step of the pointers is one of the
abstract queue or none: `Delivered` then comes from there.
-/

namespace AlphaMiner

open Lib

variable {α : Type}

/-! ## Writing a link -/

theorem setNext_ok {m : ListHeads} {a : Nat} (next : Option Nat) (h : (m a).isSome = true) :
    ∃ m', setNext m (some a) next = some m' ∧
      (∀ x, nextOf m' x = if x = a then next else nextOf m x) ∧
      (∀ x, prevOf m' x = prevOf m x) ∧ ∀ x, (m' x).isSome = (m x).isSome := by
  obtain ⟨l, hl⟩ := Option.isSome_iff_exists.1 h
  refine ⟨Function.update m a (some { l with next := next }), ?_, fun x => ?_, fun x => ?_,
    fun x => ?_⟩
  · simp only [setNext, Option.bind_eq_bind, Option.bind_some, hl, Option.pure_def]
  all_goals
    by_cases hx : x = a
    · subst hx
      simp [nextOf, prevOf, hl]
    · simp [nextOf, prevOf, hx]

theorem setPrev_ok {m : ListHeads} {a : Nat} (prev : Option Nat) (h : (m a).isSome = true) :
    ∃ m', setPrev m (some a) prev = some m' ∧
      (∀ x, prevOf m' x = if x = a then prev else prevOf m x) ∧
      (∀ x, nextOf m' x = nextOf m x) ∧ ∀ x, (m' x).isSome = (m x).isSome := by
  obtain ⟨l, hl⟩ := Option.isSome_iff_exists.1 h
  refine ⟨Function.update m a (some { l with prev := prev }), ?_, fun x => ?_, fun x => ?_,
    fun x => ?_⟩
  · simp only [setPrev, Option.bind_eq_bind, Option.bind_some, hl, Option.pure_def]
  all_goals
    by_cases hx : x = a
    · subst hx
      simp [nextOf, prevOf, hl]
    · simp [nextOf, prevOf, hx]

theorem free_ok {m : ListHeads} {a : Nat} (h : (m a).isSome = true) :
    free m a = some (Function.update m a none) := by
  obtain ⟨l, hl⟩ := Option.isSome_iff_exists.1 h
  simp only [free, Option.bind_eq_bind, Option.bind_some, hl, Option.pure_def]

/-! ## The list -/

variable {m : ListHeads} {q ent : Nat} {qs : List Nat}

theorem listAddTail_ok (h : Ring m q qs) (hent : (m ent).isSome = true) (hnew : ent ∉ q :: qs) :
    ∃ m', listAddTail m ent q = some m' ∧ Ring m' q (qs ++ [ent]) ∧
      ∀ x, (m' x).isSome = (m x).isSome := by
  obtain ⟨pre, last, hsplit, -, -, hlast⟩ := h.last
  have hq : (m q).isSome = true := h.mem_isSome List.mem_cons_self
  have hlastMem : last ∈ q :: qs := hsplit ▸ List.mem_append_right pre (.head _)
  obtain ⟨l, hl⟩ := Option.isSome_iff_exists.1 hq
  have hprev : l.prev = some last := by
    rw [← hlast, prevOf, hl]
    rfl
  obtain ⟨m₁, h₁, hprev₁, hnext₁, hsome₁⟩ := setPrev_ok (some ent) hq
  obtain ⟨m₂, h₂, hnext₂, hprev₂, hsome₂⟩ := setNext_ok (some q) ((hsome₁ ent).trans hent)
  obtain ⟨m₃, h₃, hprev₃, hnext₃, hsome₃⟩ :=
    setPrev_ok (some last) (((hsome₂ ent).trans (hsome₁ ent)).trans hent)
  have hsome₃' : ∀ x, (m₃ x).isSome = (m x).isSome :=
    fun x => ((hsome₃ x).trans (hsome₂ x)).trans (hsome₁ x)
  obtain ⟨m₄, h₄, hnext₄, hprev₄, hsome₄⟩ :=
    setNext_ok (some ent) ((hsome₃' last).trans (h.mem_isSome hlastMem))
  refine ⟨m₄, ?_, h.insert hnew hlast (fun x => ?_) fun x => ?_,
    fun x => (hsome₄ x).trans (hsome₃' x)⟩
  · simp only [listAddTail, listAddBetween, Option.bind_eq_bind, hl, Option.bind_some, hprev,
      h₁, h₂, h₃, h₄]
  · rw [hnext₄, hnext₃, hnext₂, hnext₁]
  · rw [hprev₄, hprev₃, hprev₂, hprev₁]

theorem listDel_ok (h : Ring m q (ent :: qs)) :
    ∃ m', listDel m ent = some m' ∧ (∀ x, (m' x).isSome = (m x).isSome) ∧
      Ring (Function.update m' ent none) q qs := by
  obtain ⟨hfirst, hback, -⟩ := h.first
  obtain ⟨after, hmem, hafter⟩ := h.after
  have hafterMem : after ∈ q :: ent :: qs := by
    rcases List.mem_cons.1 hmem with rfl | hmem
    · exact List.mem_cons_self
    · exact List.mem_cons_of_mem q (List.mem_cons_of_mem ent hmem)
  have hq : (m q).isSome = true := h.mem_isSome List.mem_cons_self
  have hent : (m ent).isSome = true := h.mem_isSome (List.mem_cons_of_mem q List.mem_cons_self)
  obtain ⟨e, he⟩ := Option.isSome_iff_exists.1 hent
  rw [nextOf, he, Option.bind_some] at hafter
  rw [prevOf, he, Option.bind_some] at hback
  obtain ⟨m₁, h₁, hprev₁, hnext₁, hsome₁⟩ := setPrev_ok (some q) (h.mem_isSome hafterMem)
  obtain ⟨m₂, h₂, hnext₂, hprev₂, hsome₂⟩ := setNext_ok (some after) ((hsome₁ q).trans hq)
  have hsome₂' : ∀ x, (m₂ x).isSome = (m x).isSome := fun x => (hsome₂ x).trans (hsome₁ x)
  obtain ⟨m₃, h₃, hnext₃, hprev₃, hsome₃⟩ := setNext_ok none ((hsome₂' ent).trans hent)
  have hsome₃' : ∀ x, (m₃ x).isSome = (m x).isSome := fun x => (hsome₃ x).trans (hsome₂' x)
  obtain ⟨m₄, h₄, hprev₄, hnext₄, hsome₄⟩ := setPrev_ok none ((hsome₃' ent).trans hent)
  refine ⟨m₄, ?_, fun x => (hsome₄ x).trans (hsome₃' x),
    h.remove (show nextOf m ent = some after from ?_) (fun y hy => ?_) fun y hy => ?_⟩
  · simp only [listDel, listDelBetween, Option.bind_eq_bind, he, Option.bind_some, hback, hafter,
      h₁, h₂, h₃, h₄]
  · rw [nextOf, he, Option.bind_some, hafter]
  · have hfree : nextOf (Function.update m₄ ent none) y = nextOf m₄ y := by
      rw [nextOf, Function.update_of_ne hy]
      rfl
    rw [hfree, hnext₄, hnext₃, if_neg hy, hnext₂, hnext₁]
  · have hfree : prevOf (Function.update m₄ ent none) y = prevOf m₄ y := by
      rw [prevOf, Function.update_of_ne hy]
      rfl
    rw [hfree, hprev₄, if_neg hy, hprev₃, hprev₂, hprev₁]

/-! ## The queue -/

variable {tq : TqHeap α}

/-- An entry that its producer has filled out with `data` and still has to itself. -/
structure Private (tq : TqHeap α) (qs : List Nat) (data : Option α) (ent : Nat) : Prop where
  allocated : (tq.heads ent).isSome = true
  apart : ent ∉ tq.q :: qs
  holds : tq.data ent = data

/-- What an operation on the entry `ent` leaves as it was. -/
structure Elsewhere (ent : Nat) (tq tq' : TqHeap α) : Prop where
  q : tq'.q = tq.q
  allocated : ∀ x, x ≠ ent → (tq'.heads x).isSome = (tq.heads x).isSome
  data : ∀ x, x ≠ ent → tq'.data x = tq.data x

theorem initListHead_fresh (m : ListHeads) (ent : Nat) :
    initListHead (Function.update m ent (some ⟨none, none⟩)) ent =
      some (Function.update m ent (some ⟨some ent, some ent⟩)) := by
  simp [initListHead, setNext, setPrev]

theorem newEnt_ok (h : Ring tq.heads tq.q qs) (data : Option α) (hent : tq.heads ent = none) :
    ∃ tq', tq.newEnt ent data = some tq' ∧ tq'.frozen = tq.frozen ∧ Elsewhere ent tq tq' ∧
      Ring tq'.heads tq'.q qs ∧ Private tq' qs data ent := by
  have hout : ent ∉ tq.q :: qs := by
    intro hmem
    have hsome := h.mem_isSome hmem
    rw [hent] at hsome
    cases hsome
  rw [TqHeap.newEnt, initListHead_fresh]
  refine ⟨_, rfl, rfl, ⟨rfl, fun x hx => ?_, fun x hx => ?_⟩, h.update hout _,
    ⟨?_, hout, ?_⟩⟩
  · exact congrArg Option.isSome (Function.update_of_ne hx _ _)
  · exact Function.update_of_ne hx _ _
  · show (Function.update tq.heads ent _ ent).isSome = true
    rw [Function.update_self]
    rfl
  · exact Function.update_self ent _ _

theorem push_ok (h : Ring tq.heads tq.q qs) {data : Option α} (hent : Private tq qs data ent) :
    ∃ tq', tq.push ent = some (!tq.frozen, tq') ∧ tq'.frozen = tq.frozen ∧ tq'.data = tq.data ∧
      Elsewhere ent tq tq' ∧
      Ring tq'.heads tq'.q (if !tq.frozen then qs ++ [ent] else qs) := by
  rw [TqHeap.push]
  cases tq.frozen with
  | false =>
      obtain ⟨heads, hadd, hring, hsome⟩ := listAddTail_ok h hent.allocated hent.apart
      simp only [hadd]
      exact ⟨_, rfl, rfl, rfl, ⟨rfl, fun x _ => hsome x, fun _ _ => rfl⟩, hring⟩
  | true =>
      simp only [free_ok hent.allocated]
      refine ⟨_, rfl, rfl, rfl, ⟨rfl, fun x hx => ?_, fun _ _ => rfl⟩, h.update hent.apart _⟩
      exact congrArg Option.isSome (Function.update_of_ne hx _ _)

theorem pop_empty (h : Ring tq.heads tq.q []) : tq.pop = some (none, tq) := by
  have hnext := h.empty_iff.2 rfl
  obtain ⟨l, hl⟩ := Option.isSome_iff_exists.1 (h.mem_isSome List.mem_cons_self)
  rw [nextOf, hl, Option.bind_some] at hnext
  simp only [TqHeap.pop, Option.bind_eq_bind, hl, Option.bind_some, hnext, if_true, Option.pure_def]

theorem pop_ok (h : Ring tq.heads tq.q (ent :: qs)) :
    ∃ tq', tq.pop = some (some (tq.data ent), tq') ∧ tq'.frozen = tq.frozen ∧
      tq'.data = tq.data ∧ Elsewhere ent tq tq' ∧ Ring tq'.heads tq'.q qs := by
  have hnext := h.first.1
  have hent := h.mem_isSome (List.mem_cons_of_mem tq.q List.mem_cons_self)
  obtain ⟨l, hl⟩ := Option.isSome_iff_exists.1 (h.mem_isSome List.mem_cons_self)
  rw [nextOf, hl, Option.bind_some] at hnext
  have hne : ¬some ent = some tq.q := by
    rintro ⟨⟩
    exact (List.nodup_cons.1 h.nodup).1 List.mem_cons_self
  obtain ⟨m, hdel, hsome, hring⟩ := listDel_ok h
  have hfree := free_ok ((hsome ent).trans hent)
  refine ⟨{ tq with heads := Function.update m ent none }, ?_, rfl, rfl,
    ⟨rfl, fun x hx => ?_, fun _ _ => rfl⟩, hring⟩
  · simp only [TqHeap.pop, Option.bind_eq_bind, hl, Option.bind_some, hnext, if_neg hne, hdel,
      hfree, Option.pure_def]
  · exact (congrArg Option.isSome (Function.update_of_ne hx _ _)).trans (hsome x)

theorem Private.elsewhere {tq' : TqHeap α} {qs' : List Nat} {data : Option α} {x : Nat}
    (h : Private tq qs data x) (helse : Elsewhere ent tq tq') (hx : x ≠ ent)
    (hqs : qs' ⊆ ent :: qs) : Private tq' qs' data x := by
  refine ⟨(helse.allocated x hx).trans h.allocated, fun hmem => h.apart ?_,
    (helse.data x hx).trans h.holds⟩
  rw [helse.q] at hmem
  rcases List.mem_cons.1 hmem with rfl | hmem
  · exact List.mem_cons_self
  · exact List.mem_cons_of_mem tq.q ((List.mem_cons.1 (hqs hmem)).resolve_left hx)

/-! ## The threads -/

variable {P : Type} {pushes pushes' : P → PushCall α}

/-- Every producer that is about to push has an entry of its own. -/
structure OwnEntries (tq : TqHeap α) (pushes : P → PushCall α) (qs : List Nat) : Prop where
  ready : ∀ p data ent, pushes p = .ready data ent → Private tq qs data ent
  distinct : ∀ p p' data data' ent,
    pushes p = .ready data ent → pushes p' = .ready data' ent → p = p'

theorem OwnEntries.elsewhere {tq' : TqHeap α} {qs' : List Nat} (h : OwnEntries tq pushes qs)
    (helse : Elsewhere ent tq tq') (hqs : qs' ⊆ ent :: qs)
    (hpushes : ∀ p data x, pushes' p = .ready data x → pushes p = .ready data x ∧ x ≠ ent) :
    OwnEntries tq' pushes' qs' := by
  refine ⟨fun p data x hp => ?_, fun p p' data data' x hp hp' => ?_⟩
  · obtain ⟨hold, hx⟩ := hpushes p data x hp
    exact (h.ready p data x hold).elsewhere helse hx hqs
  · exact h.distinct p p' data data' x (hpushes p data x hp).1 (hpushes p' data' x hp').1

variable [DecidableEq P]

theorem ready_update {p p' : P} {call : PushCall α} {data : Option α}
    (h : Function.update pushes p call p' = .ready data ent) :
    p' = p ∧ call = .ready data ent ∨ p' ≠ p ∧ pushes p' = .ready data ent := by
  rw [Function.update_apply] at h
  split at h
  · next hp => exact .inl ⟨hp, h⟩
  · next hp => exact .inr ⟨hp, h⟩

/-- A call that is over has no entry any more. -/
theorem OwnEntries.returned {tq' : TqHeap α} {qs' : List Nat} {p : P} {data : Option α}
    (h : OwnEntries tq pushes qs) (hp : pushes p = .ready data ent)
    (helse : Elsewhere ent tq tq') (hqs : qs' ⊆ ent :: qs) (rc : Bool) :
    OwnEntries tq' (Function.update pushes p (.returned rc)) qs' := by
  refine h.elsewhere helse hqs fun p' data' x hp' => ?_
  rcases ready_update hp' with ⟨-, hcall⟩ | ⟨hne, hold⟩
  · cases hcall
  · refine ⟨hold, ?_⟩
    rintro rfl
    exact hne (h.distinct p' p data' data x hold hp)

theorem OwnEntries.filled {tq' : TqHeap α} {p : P} {data : Option α}
    (h : OwnEntries tq pushes qs) (hent : tq.heads ent = none) (helse : Elsewhere ent tq tq')
    (hown : Private tq' qs data ent) :
    OwnEntries tq' (Function.update pushes p (.ready data ent)) qs := by
  have hfresh : ∀ p' data', pushes p' ≠ .ready data' ent := by
    intro p' data' hp'
    have hsome := (h.ready p' data' ent hp').allocated
    rw [hent] at hsome
    cases hsome
  refine ⟨fun p' data' x hp' => ?_, fun p₁ p₂ data₁ data₂ x hp₁ hp₂ => ?_⟩
  · rcases ready_update hp' with ⟨-, hcall⟩ | ⟨-, hold⟩
    · cases hcall
      exact hown
    · refine (h.ready p' data' x hold).elsewhere helse ?_ (List.subset_cons_self ent qs)
      rintro rfl
      exact hfresh p' data' hold
  · rcases ready_update hp₁ with ⟨rfl, hcall₁⟩ | ⟨-, hold₁⟩
    · cases hcall₁
      rcases ready_update hp₂ with ⟨rfl, -⟩ | ⟨-, hold₂⟩
      · rfl
      · exact absurd hold₂ (hfresh p₂ data₂)
    · rcases ready_update hp₂ with ⟨rfl, hcall₂⟩ | ⟨-, hold₂⟩
      · cases hcall₂
        exact absurd hold₁ (hfresh p₁ data₁)
      · exact h.distinct p₁ p₂ data₁ data₂ x hold₁ hold₂

variable {n : Nat} {s s' : HeapCalls P n α} {a : PopCalls n α}

/-- The pointers of `s` are the queue of `a`. -/
structure Implements (s : HeapCalls P n α) (a : PopCalls n α) (qs : List Nat) : Prop where
  ring : Ring s.tq.heads s.tq.q qs
  own : OwnEntries s.tq s.pushes qs
  tq : a.tq = ⟨qs.map s.tq.data, s.tq.frozen⟩
  calls : a.calls = s.calls
  accepted : a.accepted = s.accepted
  popped : a.popped = s.popped

/-! ## The steps -/

theorem implements_calloc {p : P} {data : Option α} {ent : Option Nat} (h : Implements s a qs)
    (hnext : heapStep s (.calloc p data ent) = some s') : Implements s' a qs := by
  have hcalloc : s.callocEnt p data ent = some s' ∧ ∀ d x, s.pushes p ≠ .ready d x := by
    rw [heapStep] at hnext
    split at hnext
    · next hp => exact ⟨hnext, fun d x => hp ▸ nofun⟩
    · next hp => exact ⟨hnext, fun d x => hp ▸ nofun⟩
    · cases hnext
  cases ent with
  | none =>
      obtain rfl : _ = s' := Option.some_inj.1 hcalloc.1
      refine ⟨h.ring, ⟨fun p' d x hp' => ?_, fun p₁ p₂ d₁ d₂ x hp₁ hp₂ => ?_⟩, h.tq, h.calls,
        h.accepted, h.popped⟩
      · rcases ready_update hp' with ⟨-, hcall⟩ | ⟨-, hold⟩
        · cases hcall
        · exact h.own.ready p' d x hold
      · rcases ready_update hp₁ with ⟨-, hcall⟩ | ⟨-, hold₁⟩
        · cases hcall
        rcases ready_update hp₂ with ⟨-, hcall⟩ | ⟨-, hold₂⟩
        · cases hcall
        exact h.own.distinct p₁ p₂ d₁ d₂ x hold₁ hold₂
  | some ent =>
      have hnew := hcalloc.1
      rw [HeapCalls.callocEnt] at hnew
      split at hnew
      · cases hnew
      · next hfree =>
          rw [Option.not_isSome_iff_eq_none] at hfree
          obtain ⟨tq, htq, hfrozen, helse, hring, hown⟩ := newEnt_ok h.ring data hfree
          rw [htq] at hnew
          obtain rfl : _ = s' := Option.some_inj.1 hnew
          refine ⟨hring, h.own.filled hfree helse hown, ?_, h.calls, h.accepted, h.popped⟩
          rw [h.tq, hfrozen]
          refine congrArg (ThreadQ.mk · s.tq.frozen) (List.map_congr_left fun x hx => ?_)
          refine (helse.data x ?_).symm
          rintro rfl
          exact hown.apart (List.mem_cons_of_mem _ hx)

/-- A push that has its entry is carried out, and what it does is this. -/
theorem heapStep_push {p : P} {wake : Option (Fin n)}
    (hnext : heapStep s (.push p wake) = some s') :
    ∃ data ent calls rc tq, s.pushes p = .ready data ent ∧ signal s.calls wake = some calls ∧
      s.tq.push ent = some (rc, tq) ∧
      s' = { s with
        tq := tq
        pushes := Function.update s.pushes p (.returned rc)
        calls := calls
        accepted := if rc then s.accepted ++ [data] else s.accepted } := by
  rw [heapStep] at hnext
  split at hnext
  · next data ent hp =>
      obtain ⟨calls, hsignal, hnext⟩ := Option.bind_eq_some_iff.1 hnext
      obtain ⟨⟨rc, tq⟩, hpush, hnext⟩ := Option.bind_eq_some_iff.1 hnext
      exact ⟨data, ent, calls, rc, tq, hp, hsignal, hpush, (Option.some_inj.1 hnext).symm⟩
  all_goals cases hnext

theorem implements_push {p : P} {wake : Option (Fin n)} (h : Implements s a qs)
    (hnext : heapStep s (.push p wake) = some s') :
    ∃ data a' qs', queueStep a (.push data wake) = some a' ∧ Implements s' a' qs' := by
  obtain ⟨data, ent, calls, rc, tq, hp, hsignal, hpush, rfl⟩ := heapStep_push hnext
  have hent := h.own.ready p data ent hp
  obtain ⟨tq', hpush', hfrozen, hdata, helse, hring⟩ := push_ok h.ring hent
  obtain ⟨rfl, rfl⟩ : (!s.tq.frozen) = rc ∧ tq' = tq := by
    rw [hpush'] at hpush
    cases hpush
    exact ⟨rfl, rfl⟩
  have hsub : (if !s.tq.frozen then qs ++ [ent] else qs) ⊆ ent :: qs := by
    split
    · exact List.append_subset.2 ⟨List.subset_cons_self ent qs, by simp⟩
    · exact List.subset_cons_self ent qs
  have hstep : queueStep a (.push data wake) = some { a with
      tq := (tqPush a.tq data).2
      calls := calls
      accepted := if (tqPush a.tq data).1 then a.accepted ++ [data] else a.accepted } := by
    rw [queueStep, h.calls, hsignal]
    rfl
  refine ⟨data, _, _, hstep, hring, h.own.returned hp helse hsub _, ?_, rfl, ?_, h.popped⟩
  · rw [h.tq, tqPush, hdata, hfrozen]
    cases s.tq.frozen with
    | false => simp [hent.holds]
    | true => rfl
  · rw [h.tq, h.accepted, tqPush]
    cases s.tq.frozen with
    | false => rfl
    | true => rfl

theorem popLocked_nil {i : Fin n} {empty : PopCall α} (h : a.tq.q = []) :
    popLocked a i empty = { a with calls := Function.update a.calls i empty } := by
  rw [popLocked, h]

theorem popLocked_cons {i : Fin n} {empty : PopCall α} {data : Option α} {q : List (Option α)}
    (h : a.tq.q = data :: q) :
    popLocked a i empty =
      { a with
        tq := { a.tq with q := q }
        calls := Function.update a.calls i (.returned data)
        popped := a.popped ++ [data] } := by
  rw [popLocked, h]

omit [DecidableEq P] in
theorem implements_popLocked {i : Fin n} {empty : PopCall α} (h : Implements s a qs)
    (hnext : s.popLocked i empty = some s') :
    ∃ qs', Implements s' (popLocked a i empty) qs' := by
  rw [HeapCalls.popLocked] at hnext
  cases qs with
  | nil =>
      rw [pop_empty h.ring] at hnext
      obtain rfl : _ = s' := Option.some_inj.1 hnext
      rw [popLocked_nil (congrArg ThreadQ.q h.tq)]
      exact ⟨[], h.ring, h.own, h.tq, congrArg (Function.update · i empty) h.calls, h.accepted,
        h.popped⟩
  | cons ent qs =>
      obtain ⟨tq, hpop, hfrozen, hdata, helse, hring⟩ := pop_ok h.ring
      rw [hpop] at hnext
      obtain rfl : _ = s' := Option.some_inj.1 hnext
      have hown : OwnEntries tq s.pushes qs := by
        refine h.own.elsewhere helse ?_ fun p data x hp => ⟨hp, ?_⟩
        · exact fun x hx => List.mem_cons_of_mem ent (List.mem_cons_of_mem ent hx)
        · rintro rfl
          exact (h.own.ready p data x hp).apart (List.mem_cons_of_mem _ List.mem_cons_self)
      rw [popLocked_cons (congrArg ThreadQ.q h.tq)]
      refine ⟨qs, hring, hown, ?_, ?_, h.accepted, ?_⟩
      · simp only [h.tq, hdata, hfrozen]
      · simp only [h.calls]
      · simp only [h.popped]

/-- Every step of the pointers is a step of the queue, or none. -/
theorem implements_step {e : HeapEvent P n α} (h : Implements s a qs)
    (hnext : heapStep s e = some s') :
    (∃ qs', Implements s' a qs') ∨
      ∃ e' a', queueStep a e' = some a' ∧ ∃ qs', Implements s' a' qs' := by
  cases e with
  | calloc p data ent => exact .inl ⟨qs, implements_calloc h hnext⟩
  | push p wake =>
      obtain ⟨data, a', qs', ha, h'⟩ := implements_push h hnext
      exact .inr ⟨_, a', ha, qs', h'⟩
  | freezethaw frozen wake =>
      obtain ⟨calls, hsignal, hnext⟩ := Option.bind_eq_some_iff.1 hnext
      obtain rfl : _ = s' := Option.some_inj.1 hnext
      have hstep : queueStep a (.freezethaw frozen wake) = some { a with
          tq := tqFreezethaw a.tq frozen
          calls := calls
          everFrozen := a.everFrozen || frozen } := by
        rw [queueStep, h.calls, hsignal]
        rfl
      refine .inr ⟨_, _, hstep, qs, h.ring, ⟨fun p data x hp => ?_, h.own.distinct⟩, ?_, rfl,
        h.accepted, h.popped⟩
      · exact ⟨(h.own.ready p data x hp).allocated, (h.own.ready p data x hp).apart,
          (h.own.ready p data x hp).holds⟩
      · rw [h.tq]
        rfl
  | pop i =>
      rw [heapStep] at hnext
      refine .inr ⟨.pop i, popLocked a i .waiting, ?_, ?_⟩
      · rw [queueStep, h.calls]
        cases hcall : s.calls i with
        | idle => rfl
        | returned rval => rfl
        | waiting =>
            rw [hcall] at hnext
            cases hnext
        | woken =>
            rw [hcall] at hnext
            cases hnext
      · split at hnext
        · exact implements_popLocked h hnext
        · exact implements_popLocked h hnext
        all_goals cases hnext
  | spurious i =>
      rw [heapStep] at hnext
      split at hnext
      · next hwaiting =>
          obtain rfl : _ = s' := Option.some_inj.1 hnext
          refine .inr ⟨.spurious i, { a with calls := Function.update a.calls i .woken }, ?_, qs,
            h.ring, h.own, h.tq, ?_, h.accepted, h.popped⟩
          · rw [queueStep, h.calls, if_pos hwaiting]
          · rw [h.calls]
      · cases hnext
  | resume i =>
      rw [heapStep] at hnext
      split at hnext
      · next hcall =>
          refine .inr ⟨.resume i, popLocked a i (.returned none), ?_, implements_popLocked h hnext⟩
          rw [queueStep, h.calls, hcall]
      all_goals cases hnext

omit [DecidableEq P] in
theorem implements_start (q : Nat) :
    Implements (HeapCalls.start P n α q) (PopCalls.start n α) [] := by
  refine ⟨⟨⟨⟨?_, ?_⟩, trivial⟩, ?_⟩, ⟨fun p data ent hp => ?_, fun p p' d d' x hp => ?_⟩, rfl, rfl,
    rfl, rfl⟩
  · simp [nextOf, HeapCalls.start, TqHeap.new]
  · simp [prevOf, HeapCalls.start, TqHeap.new]
  · exact List.pairwise_singleton _ _
  · cases hp
  · cases hp

/-- Whatever run led to it, the pointers are those of a queue that a run leads to. -/
theorem heapThreads_implements (h : (heapThreads P n α).Reachable s) :
    ∃ a, (queueThreads n α).Reachable a ∧ ∃ qs, Implements s a qs := by
  refine h.simulate (L := queueThreads n α) (R := fun s a => ∃ qs, Implements s a qs)
    (fun s hs => ?_) fun s e s' a hR hnext => ?_
  · obtain ⟨q, rfl⟩ := hs
    exact ⟨.start n α, rfl, [], implements_start q⟩
  · obtain ⟨qs, h⟩ := hR
    exact implements_step h hnext

/-- No thread reaches for an entry that is not there. -/
theorem heapThreads_no_fault (h : (heapThreads P n α).Reachable s) :
    (∀ p data ent, s.pushes p = .ready data ent → (s.tq.push ent).isSome = true) ∧
      s.tq.pop.isSome = true := by
  obtain ⟨a, -, qs, himpl⟩ := heapThreads_implements h
  refine ⟨fun p data ent hp => ?_, ?_⟩
  · obtain ⟨tq, hpush, -⟩ := push_ok himpl.ring (himpl.own.ready p data ent hp)
    rw [hpush]
    rfl
  · cases qs with
    | nil =>
        rw [pop_empty himpl.ring]
        rfl
    | cons ent qs =>
        obtain ⟨tq, hpop, -⟩ := pop_ok himpl.ring
        rw [hpop]
        rfl

/-! ## Once and in order -/

/-- The list is still the ring of `qs`, with the same data. -/
structure SameList (s s' : HeapCalls P n α) (qs : List Nat) : Prop where
  ring : Ring s'.tq.heads s'.tq.q qs
  data : qs.map s'.tq.data = qs.map s.tq.data

theorem calloc_sameList {p : P} {data : Option α} {ent : Option Nat} (h : Implements s a qs)
    (hnext : heapStep s (.calloc p data ent) = some s') : SameList s s' qs := by
  have h' := implements_calloc h hnext
  exact ⟨h'.ring, congrArg ThreadQ.q (h'.tq.symm.trans h.tq)⟩

/-- A push that is refused gives its entry back. -/
theorem push_sameList {p : P} {wake : Option (Fin n)} (h : Implements s a qs)
    (hnext : heapStep s (.push p wake) = some s') (hrc : s'.pushes p = .returned false) :
    SameList s s' qs := by
  obtain ⟨data, ent, calls, rc, tq, hp, -, hpush, rfl⟩ := heapStep_push hnext
  obtain ⟨tq', hpush', -, hdata, helse, hring⟩ := push_ok h.ring (h.own.ready p data ent hp)
  obtain ⟨rfl, rfl⟩ : (!s.tq.frozen) = rc ∧ tq' = tq := by
    rw [hpush'] at hpush
    cases hpush
    exact ⟨rfl, rfl⟩
  simp only [Function.update_self, PushCall.returned.injEq] at hrc
  rw [hrc] at hring
  exact ⟨hring, congrArg (List.map · qs) hdata⟩

/-- What was accepted is what was popped and then what is in the list, a push that is
not accepted does not touch the list, and no thread reaches for an entry that is not
there. -/
theorem queue_delivers (h : (heapThreads P n α).Reachable s) :
    (∃ qs, Ring s.tq.heads s.tq.q qs ∧ s.accepted = s.popped ++ qs.map s.tq.data ∧
      (∀ p data ent s', (heapThreads P n α).next s (.calloc p data ent) s' →
        SameList s s' qs) ∧
      ∀ p wake s', (heapThreads P n α).next s (.push p wake) s' →
        s'.pushes p = .returned false → SameList s s' qs) ∧
      (∀ p data ent, s.pushes p = .ready data ent → (s.tq.push ent).isSome = true) ∧
      s.tq.pop.isSome = true := by
  obtain ⟨a, hreach, qs, himpl⟩ := heapThreads_implements h
  have hdelivered : Delivered a := by
    refine hreach.invariant (fun a ha => ?_) fun a e a' hs hnext => delivered_step hs hnext
    obtain rfl : a = .start n α := ha
    rfl
  refine ⟨⟨qs, himpl.ring, ?_, fun p data ent s' hnext => calloc_sameList himpl hnext,
    fun p wake s' hnext => push_sameList himpl hnext⟩, heapThreads_no_fault h⟩
  rw [← himpl.accepted, ← himpl.popped, hdelivered, himpl.tq]

/-- A queue is frozen between two pushes, and the consumer gets the first. -/
theorem queue_delivers_sample :
    ∃ s, (heapThreads Bool 1 Nat).Reachable s ∧ s.popped = [some 7] ∧
      ∃ qs, Ring s.tq.heads s.tq.q qs ∧ s.accepted = s.popped ++ qs.map s.tq.data := by
  have hrun : ∃ s ∈ ([.calloc true (some 7) (some 1), .calloc false (some 8) (some 2),
      .push true none, .freezethaw true none, .push false none, .pop 0] :
      List (HeapEvent Bool 1 Nat)).foldlM heapStep (HeapCalls.start Bool 1 Nat 0),
      s.popped = [some 7] := by decide +kernel
  obtain ⟨s, hrun, hpopped⟩ := hrun
  have hreach : (heapThreads Bool 1 Nat).Reachable s :=
    Lts.Reachable.replay (fun _ _ _ h => h) (.init ⟨0, rfl⟩) hrun
  obtain ⟨⟨qs, hring, haccepted, -⟩, -⟩ := queue_delivers hreach
  exact ⟨s, hreach, hpopped, qs, hring, haccepted⟩

end AlphaMiner
