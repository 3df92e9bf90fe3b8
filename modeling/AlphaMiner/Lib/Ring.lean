import Mathlib.Data.List.Basic
import Mathlib.Logic.Function.Basic

/-!
# Rings of links

A circular doubly linked list is a memory of `next` and `prev` pointers and a
head that stands for no entry. Both edits are local once the list is seen as a
chain of links from the head around to the head again: `Linked` says of
neighbours that each points at the other, and a chain splits at any node into
the chain up to it and the chain from it (`linked_append`). `Linked.congr` moves
a chain to another memory, which has to agree on the `next` of all but the last
node and the `prev` of all but the first.

A `Ring` asks for distinct nodes besides. The chain alone would also hold of a
list that goes around twice. Its head is only where one starts (`Ring.rotate`), so an
edit at the head is an edit at any node.
-/

namespace AlphaMiner.Lib

structure Link (N : Type) where
  next : Option N
  prev : Option N

section
variable {N : Type}

def nextOf (m : N → Option (Link N)) (x : N) : Option N := (m x).bind Link.next

def prevOf (m : N → Option (Link N)) (x : N) : Option N := (m x).bind Link.prev

/-- Neighbours are linked both ways. -/
def Linked (m : N → Option (Link N)) : List N → Prop
  | x :: y :: rest => (nextOf m x = some y ∧ prevOf m y = some x) ∧ Linked m (y :: rest)
  | [_] | [] => True

structure Ring (m : N → Option (Link N)) (head : N) (qs : List N) : Prop where
  linked : Linked m (head :: qs ++ [head])
  nodup : (head :: qs).Nodup

variable {m m' : N → Option (Link N)} {head : N} {qs : List N}

theorem linked_append (pre : List N) (x : N) (post : List N) :
    Linked m (pre ++ x :: post) ↔ Linked m (pre ++ [x]) ∧ Linked m (x :: post) := by
  induction pre with
  | nil => exact (and_iff_right trivial).symm
  | cons a pre ih =>
      cases pre with
      | nil => exact (and_congr_left' (and_iff_left trivial).symm)
      | cons b pre => exact (and_congr_right' ih).trans and_assoc.symm

theorem Linked.congr {l : List N} (h : Linked m l)
    (hnext : ∀ x ∈ l.dropLast, nextOf m' x = nextOf m x)
    (hprev : ∀ x ∈ l.tail, prevOf m' x = prevOf m x) : Linked m' l := by
  induction l with
  | nil => trivial
  | cons x l ih =>
      cases l with
      | nil => trivial
      | cons y rest =>
          obtain ⟨⟨hxy, hyx⟩, hrest⟩ := h
          refine ⟨⟨?_, ?_⟩, ih hrest (fun z hz => hnext z ?_) fun z hz => hprev z ?_⟩
          · rw [hnext x List.mem_cons_self, hxy]
          · rw [hprev y List.mem_cons_self, hyx]
          · exact List.mem_cons_of_mem x hz
          · exact List.mem_cons_of_mem y hz

/-- Each node's `next` is the one after it. -/
def Chained (m : N → Option (Link N)) : List N → Prop
  | x :: y :: rest => nextOf m x = some y ∧ Chained m (y :: rest)
  | [_] | [] => True

theorem Linked.chained {l : List N} (h : Linked m l) : Chained m l := by
  induction l with
  | nil => trivial
  | cons x l ih =>
      cases l with
      | nil => trivial
      | cons y rest => exact ⟨h.1.1, ih h.2⟩

theorem Chained.congr {l : List N} (h : Chained m l)
    (hnext : ∀ x ∈ l.dropLast, nextOf m' x = nextOf m x) : Chained m' l := by
  induction l with
  | nil => trivial
  | cons x l ih =>
      cases l with
      | nil => trivial
      | cons y rest =>
          refine ⟨(hnext x List.mem_cons_self).trans h.1, ih h.2 fun z hz => hnext z ?_⟩
          exact List.mem_cons_of_mem x hz

theorem Chained.right (pre : List N) {post : List N} (h : Chained m (pre ++ post)) :
    Chained m post := by
  induction pre with
  | nil => exact h
  | cons x pre ih =>
      refine ih ?_
      cases hrest : pre ++ post with
      | nil => trivial
      | cons y rest =>
          rw [List.cons_append, hrest] at h
          exact h.2

theorem Chained.left {pre : List N} (post : List N) (h : Chained m (pre ++ post)) :
    Chained m pre := by
  induction pre with
  | nil => trivial
  | cons x pre ih =>
      cases pre with
      | nil => trivial
      | cons y pre => exact ⟨h.1, ih h.2⟩

theorem Ring.chained (h : Ring m head qs) : Chained m (head :: qs ++ [head]) := h.linked.chained

/-- Any node of a ring may stand for its head. -/
theorem Ring.rotate {pre post : List N} {x : N} (h : Ring m head (pre ++ x :: post)) :
    Ring m x (post ++ head :: pre) := by
  have hlinked := h.linked
  have hsplit : head :: (pre ++ x :: post) ++ [head] = (head :: pre) ++ x :: (post ++ [head]) := by
    rw [List.cons_append, List.cons_append, List.append_assoc, List.cons_append]
  rw [hsplit, linked_append] at hlinked
  refine ⟨?_, ?_⟩
  · have hsplit' : x :: (post ++ head :: pre) ++ [x] = (x :: post) ++ head :: (pre ++ [x]) := by
      rw [List.cons_append, List.cons_append, List.append_assoc, List.cons_append]
    rw [hsplit', linked_append]
    exact ⟨hlinked.2, hlinked.1⟩
  · refine List.Perm.nodup ?_ h.nodup
    have hperm : (head :: pre ++ x :: post).Perm (x :: post ++ head :: pre) :=
      List.perm_append_comm
    exact hperm

/-! ## The two ends -/

theorem Ring.first {x : N} (h : Ring m head (x :: qs)) :
    nextOf m head = some x ∧ prevOf m x = some head ∧ Linked m (x :: qs ++ [head]) :=
  ⟨h.linked.1.1, h.linked.1.2, h.linked.2⟩

theorem Ring.after {x : N} (h : Ring m head (x :: qs)) :
    ∃ after ∈ head :: qs, nextOf m x = some after := by
  cases qs with
  | nil => exact ⟨head, List.mem_cons_self, h.first.2.2.1.1⟩
  | cons y qs => exact ⟨y, List.mem_cons_of_mem head List.mem_cons_self, h.first.2.2.1.1⟩

theorem Ring.last (h : Ring m head qs) : ∃ pre last, head :: qs = pre ++ [last] ∧
    Linked m (pre ++ [last]) ∧ nextOf m last = some head ∧ prevOf m head = some last := by
  have hsplit := List.dropLast_concat_getLast (List.cons_ne_nil head qs)
  have hlinked := h.linked
  rw [← hsplit, List.append_assoc, List.singleton_append, linked_append] at hlinked
  exact ⟨_, _, hsplit.symm, hlinked.1, hlinked.2.1.1, hlinked.2.1.2⟩

theorem Ring.empty_iff (h : Ring m head qs) : nextOf m head = some head ↔ qs = [] := by
  refine ⟨fun hnext => ?_, fun hqs => ?_⟩
  · cases qs with
    | nil => rfl
    | cons x qs =>
        rw [h.first.1, Option.some_inj] at hnext
        exact absurd (hnext ▸ List.mem_cons_self) (List.nodup_cons.1 h.nodup).1
  · subst hqs
    exact h.linked.1.1

/-- Every node of a ring is in memory, since each has a `prev` that is read. -/
theorem Ring.mem_isSome (h : Ring m head qs) {x : N} (hx : x ∈ head :: qs) :
    (m x).isSome = true := by
  obtain ⟨pre, post, hsplit⟩ := List.append_of_mem hx
  have hlinked := h.linked
  rw [hsplit, List.append_assoc, List.cons_append, linked_append] at hlinked
  have hnext : ∃ y, nextOf m x = some y := by
    cases post with
    | nil => exact ⟨head, hlinked.2.1.1⟩
    | cons y post => exact ⟨y, hlinked.2.1.1⟩
  obtain ⟨y, hy⟩ := hnext
  cases hm : m x with
  | some l => rfl
  | none =>
      rw [nextOf, hm] at hy
      cases hy

theorem Ring.congr (h : Ring m head qs) (hm : ∀ x ∈ head :: qs, m' x = m x) :
    Ring m' head qs := by
  refine ⟨h.linked.congr (fun x hx => ?_) fun x hx => ?_, h.nodup⟩
  · rw [List.dropLast_concat] at hx
    rw [nextOf, hm x hx, nextOf]
  · have hmem : x ∈ head :: qs := by
      rcases List.mem_append.1 hx with hx | hx
      · exact List.mem_cons_of_mem head hx
      · exact List.mem_singleton.1 hx ▸ List.mem_cons_self
    rw [prevOf, hm x hmem, prevOf]

/-! ## The two edits -/

variable [DecidableEq N]

theorem Ring.update (h : Ring m head qs) {x : N} (hx : x ∉ head :: qs) (l : Option (Link N)) :
    Ring (Function.update m x l) head qs := by
  refine h.congr fun y hy => Function.update_of_ne ?_ _ _
  rintro rfl
  exact hx hy

/-- A new node goes between the last node and the head. -/
theorem Ring.insert (h : Ring m head qs) {new last : N} (hnew : new ∉ head :: qs)
    (hlast : prevOf m head = some last)
    (hnext : ∀ x, nextOf m' x =
      if x = last then some new else if x = new then some head else nextOf m x)
    (hprev : ∀ x, prevOf m' x =
      if x = new then some last else if x = head then some new else prevOf m x) :
    Ring m' head (qs ++ [new]) := by
  obtain ⟨pre, last', hsplit, hlinked, -, hlast'⟩ := h.last
  obtain rfl : last' = last := Option.some_inj.1 (hlast'.symm.trans hlast)
  have hlastMem : last' ∈ head :: qs := hsplit ▸ List.mem_append_right pre (.head _)
  have hnodup : (pre ++ [last']).Nodup := hsplit ▸ h.nodup
  have hchain : Linked m' (pre ++ [last']) := by
    refine hlinked.congr (fun x hx => ?_) fun x hx => ?_
    · rw [List.dropLast_concat] at hx
      have hxNew : x ≠ new := fun heq => hnew (heq ▸ hsplit ▸ List.mem_append_left _ hx)
      have hxLast : x ≠ last' :=
        fun heq => (List.nodup_append.1 hnodup).2.2 x hx last' (.head _) heq
      rw [hnext, if_neg hxLast, if_neg hxNew]
    · rw [← hsplit, List.tail_cons] at hx
      have hxNew : x ≠ new := fun heq => hnew (heq ▸ List.mem_cons_of_mem head hx)
      have hxHead : x ≠ head := fun heq => (List.nodup_cons.1 h.nodup).1 (heq ▸ hx)
      rw [hprev, if_neg hxNew, if_neg hxHead]
  have hneLast : new ≠ last' := fun heq => hnew (heq ▸ hlastMem)
  have hneHead : new ≠ head := fun heq => hnew (heq ▸ List.mem_cons_self)
  refine ⟨?_, ?_⟩
  · have heq : head :: (qs ++ [new]) ++ [head] = pre ++ last' :: [new, head] := by
      rw [← List.cons_append, hsplit, List.append_assoc, List.append_assoc]
      rfl
    rw [heq, linked_append]
    refine ⟨hchain, ⟨?_, ?_⟩, ⟨?_, ?_⟩, trivial⟩
    · rw [hnext, if_pos rfl]
    · rw [hprev, if_pos rfl]
    · rw [hnext, if_neg hneLast, if_pos rfl]
    · rw [hprev, if_neg hneHead.symm, if_pos rfl]
  · rw [← List.cons_append]
    refine List.nodup_append.2
      ⟨h.nodup, List.pairwise_singleton _ new, fun a ha b hb hab => hnew ?_⟩
    exact List.mem_singleton.1 hb ▸ hab ▸ ha

/-- The node after the head goes. What its own links become does not matter. -/
theorem Ring.remove {x after : N} (h : Ring m head (x :: qs)) (hafter : nextOf m x = some after)
    (hnext : ∀ y, y ≠ x → nextOf m' y = if y = head then some after else nextOf m y)
    (hprev : ∀ y, y ≠ x → prevOf m' y = if y = after then some head else prevOf m y) :
    Ring m' head qs := by
  obtain ⟨hx, hnodup⟩ := List.nodup_cons.1 (List.nodup_cons.1 h.nodup).2
  have hhead := (List.nodup_cons.1 h.nodup).1
  have hheadNe : head ≠ x := fun heq => hhead (heq ▸ List.mem_cons_self)
  refine ⟨?_, List.nodup_cons.2 ⟨fun hmem => hhead (List.mem_cons_of_mem x hmem), hnodup⟩⟩
  have hlinked := h.first.2.2
  cases qs with
  | nil =>
      obtain rfl : after = head := Option.some_inj.1 (hafter.symm.trans hlinked.1.1)
      refine ⟨⟨?_, ?_⟩, trivial⟩
      · rw [hnext after hheadNe, if_pos rfl]
      · rw [hprev after hheadNe, if_pos rfl]
  | cons y qs =>
      obtain rfl : after = y := Option.some_inj.1 (hafter.symm.trans hlinked.1.1)
      have hafterNe : after ≠ x := fun heq => hx (heq ▸ List.mem_cons_self)
      refine ⟨⟨?_, ?_⟩, hlinked.2.congr (fun z hz => ?_) fun z hz => ?_⟩
      · rw [hnext head hheadNe, if_pos rfl]
      · rw [hprev after hafterNe, if_pos rfl]
      · have hzMem : z ∈ after :: qs := by
          have hdrop : (after :: qs ++ [head]).dropLast = after :: qs := List.dropLast_concat
          rw [← hdrop]
          exact hz
        rw [hnext z fun heq => hx (heq ▸ hzMem), if_neg fun heq => ?_]
        exact hhead (heq ▸ List.mem_cons_of_mem x hzMem)
      · rcases List.mem_append.1 hz with hz | hz
        · rw [hprev z fun heq => hx (heq ▸ List.mem_cons_of_mem after hz), if_neg fun heq => ?_]
          exact (List.nodup_cons.1 hnodup).1 (heq ▸ hz)
        · obtain rfl := List.mem_singleton.1 hz
          rw [hprev z hheadNe, if_neg fun heq => ?_]
          exact hhead (heq ▸ List.mem_cons_of_mem x List.mem_cons_self)

end

end AlphaMiner.Lib
