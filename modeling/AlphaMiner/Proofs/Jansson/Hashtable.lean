import AlphaMiner.Model.Jansson.Hashtable
import AlphaMiner.Proofs.Jansson.Table
import AlphaMiner.Proofs.ThreadList
import Mathlib.Data.List.Nodup

/-!
# The pointers of the hash table

The list of all pairs is a ring, and the buckets are stretches of it (`Arranged`): a
new pair goes in front of its bucket, which is the list operation of `Table`, so that
the pairs of a bucket still stand together. A search walks over a stretch, and a rehash
takes the ring apart from its front while it builds the new one, where the links of
what is still to be taken have to outlive the edits on what is done.

`Rep` is what holds between two calls, and each operation has a lemma that it runs to
its end and what the entries are then.
-/

namespace AlphaMiner.Jansson

open Lib Table

variable {K V : Type}

/-! ## The list -/

section
variable {m : ListHeads} {list new : Nat} {qs : List Nat}

theorem listInit_ok (h : (m list).isSome = true) :
    ∃ m', listInit m list = some m' ∧
      (∀ x, nextOf m' x = if x = list then some list else nextOf m x) ∧
      (∀ x, prevOf m' x = if x = list then some list else prevOf m x) ∧
      ∀ x, (m' x).isSome = (m x).isSome := by
  obtain ⟨m₁, h₁, hnext₁, hprev₁, hsome₁⟩ := setNext_ok (some list) h
  obtain ⟨m₂, h₂, hprev₂, hnext₂, hsome₂⟩ := setPrev_ok (some list) ((hsome₁ list).trans h)
  refine ⟨m₂, ?_, fun x => ?_, fun x => ?_, fun x => (hsome₂ x).trans (hsome₁ x)⟩
  · simp only [listInit, Option.bind_eq_bind, h₁, h₂, Option.bind_some]
  · rw [hnext₂, hnext₁]
  · rw [hprev₂, hprev₁]

/-- A list of its own. -/
theorem ring_nil (hnext : nextOf m list = some list) (hprev : prevOf m list = some list) :
    Ring m list [] :=
  ⟨⟨⟨hnext, hprev⟩, trivial⟩, List.pairwise_singleton _ list⟩

theorem load_prev {x y : Nat} (h : prevOf m x = some y) : ∃ l, m x = some l ∧ l.prev = some y := by
  obtain ⟨l, hl, hprev⟩ := Option.bind_eq_some_iff.mp h
  exact ⟨l, hl, hprev⟩

theorem load_next {x y : Nat} (h : nextOf m x = some y) : ∃ l, m x = some l ∧ l.next = some y := by
  obtain ⟨l, hl, hnext⟩ := Option.bind_eq_some_iff.mp h
  exact ⟨l, hl, hnext⟩

/-- In front of the node that is taken for the head. -/
theorem listInsert_ok (h : Ring m list qs) (hnew : (m new).isSome = true) (hout : new ∉ list :: qs) :
    ∃ m', listInsert m list new = some m' ∧ Ring m' list (qs ++ [new]) ∧
      (∀ x, (m' x).isSome = (m x).isSome) ∧
      ∀ x, x ∉ list :: qs → x ≠ new → nextOf m' x = nextOf m x := by
  obtain ⟨pre, last, hsplit, -, -, hlast⟩ := h.last
  have hlistMem : list ∈ list :: qs := List.mem_cons_self
  have hlastMem : last ∈ list :: qs := hsplit ▸ List.mem_append_right pre (.head _)
  have hlist := h.mem_isSome hlistMem
  have hne : list ≠ new := fun heq => hout (heq ▸ hlistMem)
  obtain ⟨m₁, h₁, hnext₁, hprev₁, hsome₁⟩ := setNext_ok (some list) hnew
  obtain ⟨l₁, hl₁, hload₁⟩ := load_prev ((hprev₁ list).trans hlast)
  obtain ⟨m₂, h₂, hprev₂, hnext₂, hsome₂⟩ := setPrev_ok (some last) ((hsome₁ new).trans hnew)
  have hback₂ : prevOf m₂ list = some last := by rw [hprev₂, if_neg hne, hprev₁, hlast]
  obtain ⟨l₂, hl₂, hload₂⟩ := load_prev hback₂
  have hsome₂' : ∀ x, (m₂ x).isSome = (m x).isSome := fun x => (hsome₂ x).trans (hsome₁ x)
  obtain ⟨m₃, h₃, hnext₃, hprev₃, hsome₃⟩ :=
    setNext_ok (some new) ((hsome₂' last).trans (h.mem_isSome hlastMem))
  have hsome₃' : ∀ x, (m₃ x).isSome = (m x).isSome := fun x => (hsome₃ x).trans (hsome₂' x)
  obtain ⟨m₄, h₄, hprev₄, hnext₄, hsome₄⟩ := setPrev_ok (some new) ((hsome₃' list).trans hlist)
  have hnext : ∀ x, nextOf m₄ x =
      if x = last then some new else if x = new then some list else nextOf m x := by
    intro x
    rw [hnext₄, hnext₃, hnext₂, hnext₁]
  refine ⟨m₄, ?_, h.insert hout hlast hnext fun x => ?_, fun x => (hsome₄ x).trans (hsome₃' x),
    fun x hx hxnew => ?_⟩
  · simp only [listInsert, Option.bind_eq_bind, h₁, Option.bind_some, hl₁, hload₁, h₂, hl₂, hload₂,
      h₃, h₄]
  · rw [hprev₄, hprev₃, hprev₂, hprev₁]
    -- the two writes are to different nodes
    by_cases hxlist : x = list
    · subst hxlist
      rw [if_pos rfl, if_neg hne, if_pos rfl]
    · rw [if_neg hxlist, if_neg hxlist]
  · have hxlast : x ≠ last := fun heq => hx (heq ▸ hlastMem)
    rw [hnext, if_neg hxlast, if_neg hxnew]

/-- In front of any node. -/
theorem listInsert_front {front post : List Nat} {x : Nat} (h : Ring m list (front ++ x :: post))
    (hnew : (m new).isSome = true) (hout : new ∉ list :: (front ++ x :: post)) :
    ∃ m', listInsert m x new = some m' ∧ Ring m' list (front ++ new :: x :: post) ∧
      (∀ y, (m' y).isSome = (m y).isSome) ∧
      ∀ y, y ∉ list :: (front ++ x :: post) → y ≠ new → nextOf m' y = nextOf m y := by
  have hperm : (x :: (post ++ list :: front)).Perm (list :: (front ++ x :: post)) :=
    (List.perm_append_comm : ((x :: post) ++ (list :: front)).Perm _)
  have hmem : ∀ y, y ∈ x :: (post ++ list :: front) ↔ y ∈ list :: (front ++ x :: post) :=
    fun y => hperm.mem_iff
  obtain ⟨m', hinsert, hring, hsome, hnext⟩ :=
    listInsert_ok h.rotate hnew fun hmem' => hout ((hmem new).mp hmem')
  rw [List.append_assoc, List.cons_append] at hring
  refine ⟨m', hinsert, ?_, hsome, fun y hy => hnext y fun hmem' => hy ((hmem y).mp hmem')⟩
  have hback := hring.rotate
  rwa [List.append_assoc, List.singleton_append] at hback

/-- Any node that is not the head. -/
theorem listRemove_ok {front post : List Nat} {x : Nat} (h : Ring m list (front ++ x :: post)) :
    ∃ m', listRemove m x = some m' ∧ (∀ y, (m' y).isSome = (m y).isSome) ∧
      Ring (Function.update m' x none) list (front ++ post) := by
  -- the head is taken to be the node before it
  have hbefore : ∃ before rest, Ring m before (x :: rest) ∧
      ∀ m', Ring m' before rest → Ring m' list (front ++ post) := by
    rcases List.eq_nil_or_concat front with rfl | ⟨front', before, rfl⟩
    · exact ⟨list, post, h, fun m' h' => h'⟩
    · rw [List.concat_eq_append, List.append_assoc, List.singleton_append] at h
      refine ⟨before, post ++ list :: front', h.rotate, fun m' h' => ?_⟩
      rw [List.concat_eq_append, List.append_assoc]
      exact h'.rotate
  obtain ⟨before, rest, hring, hturn⟩ := hbefore
  obtain ⟨hfirst, hback, -⟩ := hring.first
  obtain ⟨after, hafterMem, hafter⟩ := hring.after
  have hafterMem' : after ∈ before :: x :: rest := by
    rcases List.mem_cons.mp hafterMem with rfl | hmem
    · exact List.mem_cons_self
    · exact List.mem_cons_of_mem before (List.mem_cons_of_mem x hmem)
  have hneBefore : x ≠ before := by
    rintro rfl
    exact (List.nodup_cons.mp hring.nodup).1 List.mem_cons_self
  obtain ⟨l, hl, hprev⟩ := load_prev hback
  obtain ⟨l', hl', hnext⟩ := load_next hafter
  cases hl.symm.trans hl'
  obtain ⟨m₁, h₁, hnext₁, hprev₁, hsome₁⟩ :=
    setNext_ok (some after) (hring.mem_isSome List.mem_cons_self)
  obtain ⟨l₁, hl₁, hload₁⟩ := load_prev ((hprev₁ x).trans hback)
  have hafter₁ : nextOf m₁ x = some after := by rw [hnext₁, if_neg hneBefore, hafter]
  obtain ⟨l₁', hl₁', hload₁'⟩ := load_next hafter₁
  cases hl₁.symm.trans hl₁'
  obtain ⟨m₂, h₂, hprev₂, hnext₂, hsome₂⟩ :=
    setPrev_ok (some before) ((hsome₁ after).trans (hring.mem_isSome hafterMem'))
  refine ⟨m₂, ?_, fun y => (hsome₂ y).trans (hsome₁ y),
    hturn _ (hring.remove hafter (fun y hy => ?_) fun y hy => ?_)⟩
  · simp only [listRemove, Option.bind_eq_bind, hl, Option.bind_some, hprev, hnext, h₁, hl₁, hload₁,
      hload₁', h₂]
  · rw [nextOf, Function.update_of_ne hy]
    exact (hnext₂ y).trans (hnext₁ y)
  · rw [prevOf, Function.update_of_ne hy]
    exact (hprev₂ y).trans (by rw [hprev₁])

end

/-! ## The buckets

An entry is a key with where its pair is and its value. -/

def node (p : K × Nat × V) : Nat := p.2.1

/-- The entries of a bucket. -/
def stretch (hash : K → UInt32) (count i : Nat) (l : List (K × Nat × V)) : List (K × Nat × V) :=
  l.filter fun p => index hash count p.1 = i

def bucketOf (list : Nat) (here : List (K × Nat × V)) : Bucket where
  first := (here.head?.map node).getD list
  last := (here.getLast?.map node).getD list

/-- The entries are in the ring in their order, and each bucket is a stretch of it. -/
structure Arranged (hash : K → UInt32) (count : Nat) (ht : Hashtable K V)
    (l : List (K × Nat × V)) : Prop where
  ring : Ring ht.heads ht.list (l.map node)
  grouped : Grouped hash count l
  buckets : ht.buckets =
    some ((List.range count).map fun i => bucketOf ht.list (stretch hash count i l))

section
variable {hash : K → UInt32} {cmp : K → K → Bool} {count : Nat} {ht : Hashtable K V}
  {l : List (K × Nat × V)}

theorem stretch_cons (p : K × Nat × V) (i : Nat) (l : List (K × Nat × V)) :
    stretch hash count i (p :: l) =
      if index hash count p.1 = i then p :: stretch hash count i l else stretch hash count i l := by
  rw [stretch, List.filter_cons]
  simp only [decide_eq_true_eq]
  rfl

theorem stretch_insert (p : K × Nat × V) (i : Nat) (l : List (K × Nat × V)) :
    stretch hash count i (insertToBucket hash count p l) =
      if index hash count p.1 = i then p :: stretch hash count i l else stretch hash count i l := by
  induction l with
  | nil => exact stretch_cons p i []
  | cons q l ih =>
      rw [insertToBucket]
      by_cases hq : index hash count q.1 = index hash count p.1
      · rw [if_pos hq, stretch_cons]
      · rw [if_neg hq, stretch_cons, stretch_cons, ih]
        by_cases hqi : index hash count q.1 = i
        · have hpi : index hash count p.1 ≠ i := fun heq => hq (hqi.trans heq.symm)
          rw [if_pos hqi, if_neg hpi, if_pos hqi, if_neg hpi]
        · rw [if_neg hqi, if_neg hqi]

/-- The entries of a bucket stand together. -/
theorem Arranged.split (h : Arranged hash count ht l) (i : Nat) : ∃ front back,
    l = front ++ stretch hash count i l ++ back ∧
      ∀ p ∈ front ++ back, index hash count p.1 ≠ i := by
  obtain ⟨front, here, back, hl, hhere, hother⟩ := h.grouped i
  have hstretch : stretch hash count i l = here := by
    rw [stretch, hl, List.filter_append, List.filter_append]
    have hout : ∀ side : List (K × Nat × V), (∀ p ∈ side, index hash count p.1 ≠ i) →
        side.filter (fun p => decide (index hash count p.1 = i)) = [] := fun side hside =>
      List.filter_eq_nil_iff.mpr fun p hp => by simpa using hside p hp
    rw [hout front fun p hp => hother p (List.mem_append_left back hp),
      hout back fun p hp => hother p (List.mem_append_right front hp), List.nil_append,
      List.append_nil]
    exact List.filter_eq_self.mpr fun p hp => decide_eq_true (hhere p hp)
  rw [hstretch]
  exact ⟨front, back, hl, hother⟩

theorem stretch_mem {i : Nat} {p : K × Nat × V} (h : p ∈ stretch hash count i l) :
    p ∈ l ∧ index hash count p.1 = i := by
  obtain ⟨hmem, hi⟩ := List.mem_filter.mp h
  exact ⟨hmem, of_decide_eq_true hi⟩

theorem Arranged.node_ne (h : Arranged hash count ht l) {p : K × Nat × V} (hp : p ∈ l) :
    node p ≠ ht.list := fun heq =>
  (List.nodup_cons.mp h.ring.nodup).1 (heq ▸ List.mem_map_of_mem hp)

theorem Arranged.bucket (h : Arranged hash count ht l) {i : Nat} (hi : i < count) :
    ∃ buckets, ht.buckets = some buckets ∧
      buckets[i]? = some (bucketOf ht.list (stretch hash count i l)) := by
  refine ⟨_, h.buckets, ?_⟩
  rw [List.getElem?_map, List.getElem?_range hi, Option.map_some]

theorem Arranged.bucketIsEmpty (h : Arranged hash count ht l) (i : Nat) :
    bucketIsEmpty ht (bucketOf ht.list (stretch hash count i l)) =
      decide (stretch hash count i l = []) := by
  cases hhere : stretch hash count i l with
  | nil => simp [Jansson.bucketIsEmpty, bucketOf]
  | cons p here =>
      have hp : p ∈ stretch hash count i l := hhere ▸ List.mem_cons_self
      have hne := h.node_ne (stretch_mem hp).1
      simp [Jansson.bucketIsEmpty, bucketOf, hne]

/-- A table with no pair has every bucket empty. -/
theorem buckets_nil (list : Nat) : List.replicate count ⟨list, list⟩ =
    (List.range count).map fun i => bucketOf list (stretch hash count i ([] : List (K × Nat × V))) := by
  refine List.ext_getElem? fun j => ?_
  rw [List.getElem?_replicate, List.getElem?_map]
  by_cases hj : j < count
  · rw [if_pos hj, List.getElem?_range hj]
    rfl
  · rw [if_neg hj, List.getElem?_eq_none (by simpa using hj), Option.map_none]

/-- The array with one bucket replaced. -/
theorem set_range {f g : Nat → Bucket} {i : Nat} (hg : ∀ j, j ≠ i → g j = f j) :
    ((List.range count).map f).set i (g i) = (List.range count).map g := by
  refine List.ext_getElem? fun j => ?_
  rw [List.getElem?_set, List.getElem?_map, List.getElem?_map, List.length_map, List.length_range]
  by_cases hji : i = j
  · subst hji
    rw [if_pos rfl]
    by_cases hi : i < count
    · rw [if_pos hi, List.getElem?_range hi, Option.map_some]
    · rw [if_neg hi, List.getElem?_eq_none (by simpa using hi), Option.map_none]
  · rw [if_neg hji]
    cases hrange : (List.range count)[j]? with
    | none => rfl
    | some k =>
        obtain ⟨_, hk⟩ := List.getElem?_eq_some_iff.mp hrange
        rw [List.getElem_range] at hk
        rw [Option.map_some, Option.map_some, hg k fun heq => hji (heq ▸ hk ▸ rfl)]

/-- A new entry, whose `list` is allocated and in no ring. -/
theorem htInsertToBucket_ok (h : Arranged hash count ht l) {p : K × Nat × V}
    (hi : index hash count p.1 < count) (hnew : (ht.heads (node p)).isSome = true)
    (hout : node p ∉ ht.list :: l.map node) :
    ∃ heads buckets, htInsertToBucket ht (index hash count p.1) (node p) =
        some { ht with heads := heads, buckets := buckets } ∧
      Arranged hash count { ht with heads := heads, buckets := buckets }
        (insertToBucket hash count p l) ∧
      (∀ x, (heads x).isSome = (ht.heads x).isSome) ∧
      ∀ x, x ∉ ht.list :: l.map node → x ≠ node p → nextOf heads x = nextOf ht.heads x := by
  obtain ⟨i, hiEq⟩ : ∃ i, index hash count p.1 = i := ⟨_, rfl⟩
  obtain ⟨buckets, hbuckets, hget⟩ := h.bucket hi
  obtain ⟨front, back, hl, hother⟩ := h.split i
  have hhere : ∀ q ∈ stretch hash count i l, index hash count q.1 = index hash count p.1 :=
    fun q hq => (stretch_mem hq).2.trans hiEq.symm
  have hinsert : insertToBucket hash count p l =
      if stretch hash count i l = [] then front ++ back ++ [p]
      else front ++ p :: stretch hash count i l ++ back := by
    rw [← insertToBucket_split hhere (hiEq.symm ▸ hother), ← hl]
  -- what the buckets are afterwards
  have hother' : ∀ j, j ≠ i →
      bucketOf ht.list (stretch hash count j (insertToBucket hash count p l)) =
        bucketOf ht.list (stretch hash count j l) := by
    intro j hj
    have hne : index hash count p.1 ≠ j := fun heq => hj (heq.symm.trans hiEq)
    rw [stretch_insert, if_neg hne]
  have harray : ∀ bucket, bucket =
      bucketOf ht.list (stretch hash count i (insertToBucket hash count p l)) →
      some (buckets.set i bucket) = some ((List.range count).map fun j =>
        bucketOf ht.list (stretch hash count j (insertToBucket hash count p l))) := by
    intro bucket hbucket
    rw [Option.some_inj.mp (hbuckets.symm.trans h.buckets), hbucket]
    exact congrArg some (set_range hother')
  rw [hiEq] at hget ⊢
  have hempty := h.bucketIsEmpty i
  by_cases hnil : stretch hash count i l = []
  · rw [decide_eq_true hnil] at hempty
    obtain ⟨heads, hlist, hring, hsome, hnext⟩ := listInsert_ok h.ring hnew hout
    refine ⟨heads, some (buckets.set i ⟨node p, node p⟩), ?_, ⟨?_, h.grouped.insert p, ?_⟩, hsome,
      hnext⟩
    · simp only [htInsertToBucket, Option.bind_eq_bind, hbuckets, hget, Option.bind_some, hempty,
        if_true, hlist, Option.pure_def]
    · rw [if_pos hnil] at hinsert
      rw [hinsert]
      rw [hnil, List.append_nil] at hl
      rw [List.map_append, ← hl]
      exact hring
    · refine harray _ ?_
      rw [stretch_insert, if_pos hiEq, hnil]
      rfl
  · rw [decide_eq_false hnil] at hempty
    obtain ⟨q, here, hq⟩ := List.exists_cons_of_ne_nil hnil
    have hnodes : l.map node = front.map node ++ node q :: (here.map node ++ back.map node) := by
      rw [hl, hq, List.map_append, List.map_append, List.append_assoc]
      rfl
    have hring := h.ring
    rw [hnodes] at hring hout
    obtain ⟨heads, hlist, hring', hsome, hnext⟩ := listInsert_front hring hnew hout
    rw [← hnodes] at hnext
    obtain ⟨bucket, hbucket⟩ : ∃ bucket, bucketOf ht.list (stretch hash count i l) = bucket :=
      ⟨_, rfl⟩
    have hfirst : bucket.first = node q := by
      rw [← hbucket, hq]
      rfl
    rw [hbucket] at hempty hget
    refine ⟨heads, some (buckets.set i { bucket with first := node p }), ?_,
      ⟨?_, h.grouped.insert p, ?_⟩, hsome, hnext⟩
    · simp only [htInsertToBucket, Option.bind_eq_bind, hbuckets, hget, Option.bind_some, hempty,
        Bool.false_eq_true, if_false, hfirst, hlist, Option.pure_def]
    · rw [if_neg hnil] at hinsert
      rw [hinsert, hq, List.map_append, List.map_append, List.append_assoc]
      exact hring'
    · refine harray _ ?_
      rw [stretch_insert, if_pos hiEq, ← hbucket, hq]
      rfl

/-! ## What a table holds -/

/-- The entries of a table, and nothing else that is allocated. -/
structure Rep (hash : K → UInt32) (cmp : K → K → Bool) (ht : Hashtable K V)
    (l : List (K × Nat × V)) : Prop where
  count : ht.numBuckets < primes.length
  arranged : Arranged hash (primes.getD ht.numBuckets 0) ht l
  held : ∀ p ∈ l, ht.pairs (node p) = some ⟨p.1, p.2.2, hash p.1⟩
  heads : ∀ a, (ht.heads a).isSome = true → a ∈ ht.list :: l.map node
  pairs : ∀ a, (ht.pairs a).isSome = true → a ∈ l.map node
  size : ht.size = l.length
  distinct : Distinct cmp l

theorem Rep.bucketCount (h : Rep hash cmp ht l) :
    ht.bucketCount = some (primes.getD ht.numBuckets 0) := by
  rw [Hashtable.bucketCount, List.getD_eq_getElem?_getD, List.getElem?_eq_getElem h.count,
    Option.getD_some]

theorem primes_pos : ∀ p ∈ primes, 0 < p := by decide

theorem Rep.count_pos (h : Rep hash cmp ht l) : 0 < primes.getD ht.numBuckets 0 := by
  rw [List.getD_eq_getElem?_getD, List.getElem?_eq_getElem h.count, Option.getD_some]
  exact primes_pos _ (List.getElem_mem h.count)

theorem index_lt (key : K) (h : 0 < count) : index hash count key < count := Nat.mod_lt _ h

/-! ## The search -/

/-- A search walks over what is left of a bucket. -/
theorem findPairFrom_ok {bucket : Bucket} {key : K} {p : K × Nat × V} {rest : List (K × Nat × V)} :
    ∀ fuel : Nat, (p :: rest).length ≤ fuel → Chained ht.heads ((p :: rest).map node) →
      ((p :: rest).map node).Nodup →
      (∀ q ∈ p :: rest, ht.pairs (node q) = some ⟨q.1, q.2.2, hash q.1⟩) →
      bucket.last = (bucketOf ht.list (p :: rest)).last →
      findPairFrom cmp ht bucket key (hash key) fuel (node p) =
        some (((p :: rest).find? (isKey hash cmp key)).map node) := by
  induction rest generalizing p with
  | nil =>
      intro fuel hfuel _ _ hheld hlast
      obtain ⟨fuel, rfl⟩ : ∃ left, fuel = left + 1 := Nat.exists_eq_add_of_le' hfuel
      have hpair := hheld p List.mem_cons_self
      have hend : node p = bucket.last := hlast.symm
      simp only [findPairFrom, hpair, Option.bind_eq_bind, Option.bind_some]
      rw [List.find?_cons]
      by_cases hkey : hash p.1 = hash key ∧ cmp p.1 key = true
      · have hmatch : isKey hash cmp key p = true := by simpa [isKey] using hkey
        rw [if_pos hkey, hmatch]
        rfl
      · have hmatch : isKey hash cmp key p = false := by simpa [isKey] using hkey
        rw [if_neg hkey, if_pos hend, hmatch]
        rfl
  | cons q rest ih =>
      intro fuel hfuel hchain hnodup hheld hlast
      obtain ⟨fuel, rfl⟩ : ∃ left, fuel = left + 1 :=
        Nat.exists_eq_add_of_le' (Nat.le_trans (Nat.succ_pos _) hfuel)
      have hpair := hheld p List.mem_cons_self
      obtain ⟨hout, hnodup'⟩ := List.nodup_cons.mp hnodup
      have hend : node p ≠ bucket.last := by
        rw [hlast, bucketOf, List.getLast?_cons_cons,
          List.getLast?_eq_some_getLast (List.cons_ne_nil q rest)]
        exact fun heq => hout (heq ▸ List.mem_map_of_mem (List.getLast_mem _))
      obtain ⟨link, hlink, hnext⟩ := load_next hchain.1
      have hrest := ih fuel (Nat.le_of_succ_le_succ hfuel) hchain.2 hnodup'
        (fun r hr => hheld r (List.mem_cons_of_mem p hr)) (hlast.trans (by
          rw [bucketOf, bucketOf, List.getLast?_cons_cons]))
      simp only [findPairFrom, hpair, Option.bind_eq_bind, Option.bind_some]
      rw [List.find?_cons]
      by_cases hkey : hash p.1 = hash key ∧ cmp p.1 key = true
      · have hmatch : isKey hash cmp key p = true := by simpa [isKey] using hkey
        rw [if_pos hkey, hmatch]
        rfl
      · have hmatch : isKey hash cmp key p = false := by simpa [isKey] using hkey
        rw [if_neg hkey, if_neg hend, hmatch]
        simp only [hlink, hnext, Option.bind_some]
        exact hrest

/-- No key is found outside its bucket. -/
theorem find?_stretch (key : K) (l : List (K × Nat × V)) :
    (stretch hash count (index hash count key) l).find? (isKey hash cmp key) =
      l.find? (isKey hash cmp key) := by
  induction l with
  | nil => rfl
  | cons p l ih =>
      rw [stretch_cons]
      by_cases hi : index hash count p.1 = index hash count key
      · rw [if_pos hi, List.find?_cons, List.find?_cons, ih]
      · have hmatch : ¬isKey hash cmp key p = true := by
          rw [isKey, Bool.and_eq_true, decide_eq_true_iff]
          rintro ⟨hhash, -⟩
          exact hi (by rw [index, index, hhash])
        rw [if_neg hi, List.find?_cons_of_neg hmatch, ih]

theorem Rep.findPair (h : Rep hash cmp ht l) (key : K) {i : Nat}
    (hi : i = index hash (primes.getD ht.numBuckets 0) key) :
    hashtableFindPair cmp ht
        (bucketOf ht.list (stretch hash (primes.getD ht.numBuckets 0) i l)) key (hash key) =
      some ((l.find? (isKey hash cmp key)).map node) := by
  subst hi
  have hfind : (stretch hash (primes.getD ht.numBuckets 0)
      (index hash (primes.getD ht.numBuckets 0) key) l).find? (isKey hash cmp key) =
      l.find? (isKey hash cmp key) := find?_stretch key l
  rw [hashtableFindPair, h.arranged.bucketIsEmpty]
  cases hhere : stretch hash (primes.getD ht.numBuckets 0)
      (index hash (primes.getD ht.numBuckets 0) key) l with
  | nil =>
      rw [hhere] at hfind
      rw [← hfind]
      rfl
  | cons p rest =>
      rw [hhere] at hfind
      rw [if_neg (by simp), ← hfind]
      obtain ⟨front, back, hl, -⟩ := h.arranged.split (index hash (primes.getD ht.numBuckets 0) key)
      rw [hhere] at hl
      have hnodes : l.map node = front.map node ++ ((p :: rest).map node ++ back.map node) := by
        rw [hl, List.map_append, List.map_append, List.append_assoc]
      have hmem : ∀ q ∈ p :: rest, q ∈ l := fun q hq =>
        hl ▸ List.mem_append_left back (List.mem_append_right front hq)
      refine findPairFrom_ok ht.size ?_ ?_ ?_ (fun q hq => h.held q (hmem q hq)) rfl
      · rw [h.size, hl, List.length_append, List.length_append]
        omega
      · have hchain := h.arranged.ring.chained
        rw [hnodes, ← List.cons_append, List.append_assoc, List.append_assoc] at hchain
        exact (Chained.right (ht.list :: front.map node) hchain).left _
      · have hnodup := (List.nodup_cons.mp h.arranged.ring.nodup).2
        rw [hnodes] at hnodup
        exact (List.nodup_append.mp (List.nodup_append.mp hnodup).2.1).1

/-- The bucket of a key. -/
theorem Rep.bucket (h : Rep hash cmp ht l) (key : K) : ∃ buckets, ht.buckets = some buckets ∧
    buckets[(hash key).toNat % primes.getD ht.numBuckets 0]? =
      some (bucketOf ht.list (stretch hash (primes.getD ht.numBuckets 0)
        (index hash (primes.getD ht.numBuckets 0) key) l)) :=
  h.arranged.bucket (index_lt key h.count_pos)

theorem Rep.iterAt (h : Rep hash cmp ht l) (key : K) :
    hashtableIterAt hash cmp ht key = some ((l.find? (isKey hash cmp key)).map node) := by
  obtain ⟨buckets, hbuckets, hget⟩ := h.bucket key
  simp only [hashtableIterAt, h.bucketCount, hbuckets, hget, Option.bind_eq_bind, Option.bind_some]
  exact h.findPair key rfl

theorem Rep.get (h : Rep hash cmp ht l) (key : K) : hashtableGet hash cmp ht key =
    some ((l.find? (isKey hash cmp key)).map fun p => p.2.2) := by
  rw [hashtableGet, h.iterAt]
  cases hfind : l.find? (isKey hash cmp key) with
  | none => rfl
  | some p =>
      have hheld := h.held p (List.mem_of_find?_eq_some hfind)
      simp only [Option.map_some, Option.bind_eq_bind, Option.bind_some, hheld, Option.pure_def]

/-! ## The rehash -/

/-- Where a list of entries starts that goes on to the table's own `list`. -/
def startOf (list : Nat) (rest : List (K × Nat × V)) : Nat := (rest.head?.map node).getD list

theorem next_of_chained {m : ListHeads} {list : Nat} {x : Nat} {rest : List (K × Nat × V)}
    (h : Chained m (x :: (rest.map node ++ [list]))) : nextOf m x = some (startOf list rest) := by
  cases rest with
  | nil => exact h.1
  | cons p rest => exact h.1

/-- The entries `done` are in the new ring, and the links of `rest` are the old ones. -/
theorem doRehashFrom_ok (hcount : 0 < count) {rest : List (K × Nat × V)} :
    ∀ (ht : Hashtable K V) {done : List (K × Nat × V)} (fuel : Nat), rest.length < fuel →
      Arranged hash count ht done → Chained ht.heads (rest.map node ++ [ht.list]) →
      (ht.list :: (done.map node ++ rest.map node)).Nodup →
      (∀ p ∈ rest, (ht.heads (node p)).isSome = true) →
      (∀ p ∈ rest, ht.pairs (node p) = some ⟨p.1, p.2.2, hash p.1⟩) →
      ∃ heads buckets, doRehashFrom count ht fuel (startOf ht.list rest) =
          some { ht with heads := heads, buckets := buckets } ∧
        Arranged hash count { ht with heads := heads, buckets := buckets }
          (rest.foldl (fun l p => insertToBucket hash count p l) done) ∧
        ∀ x, (heads x).isSome = (ht.heads x).isSome := by
  induction rest with
  | nil =>
      intro ht done fuel hfuel harranged _ _ _ _
      obtain ⟨fuel, rfl⟩ : ∃ left, fuel = left + 1 := Nat.exists_eq_add_of_le' hfuel
      exact ⟨ht.heads, ht.buckets, if_pos rfl, harranged, fun _ => rfl⟩
  | cons p rest ih =>
      intro ht done fuel hfuel harranged hchain hnodup halloc hheld
      obtain ⟨fuel, rfl⟩ : ∃ left, fuel = left + 1 :=
        Nat.exists_eq_add_of_le' (Nat.lt_of_le_of_lt (Nat.zero_le _) hfuel)
      obtain ⟨hlist, hnodes⟩ := List.nodup_cons.mp hnodup
      obtain ⟨hdone, hrest, hapart⟩ := List.nodup_append.mp hnodes
      obtain ⟨hprest, hrestNodup⟩ := List.nodup_cons.mp hrest
      have hpmem : node p ∈ (p :: rest).map node := List.mem_cons_self
      have hpne : node p ≠ ht.list := fun heq => hlist (heq ▸ List.mem_append_right _ hpmem)
      have hpout : node p ∉ ht.list :: done.map node := by
        intro hmem
        rcases List.mem_cons.mp hmem with heq | hmem
        · exact hpne heq
        · exact hapart _ hmem _ hpmem rfl
      obtain ⟨link, hlink, hnext⟩ := load_next (next_of_chained hchain)
      obtain ⟨heads, buckets, hinsert, harranged', hsome, helse⟩ :=
        htInsertToBucket_ok harranged (index_lt p.1 hcount) (halloc p List.mem_cons_self) hpout
      have hinsert' : htInsertToBucket ht ((hash p.1).toNat % count) (node p) =
        some { ht with heads := heads, buckets := buckets } := hinsert
      -- the rest is in no ring yet
      have hother : ∀ x ∈ rest.map node, x ∉ ht.list :: done.map node ∧ x ≠ node p := by
        intro x hx
        refine ⟨fun hmem => ?_, fun heq => hprest (heq ▸ hx)⟩
        have hx' := List.mem_cons_of_mem (node p) hx
        rcases List.mem_cons.mp hmem with heq | hmem
        · exact hlist (heq ▸ List.mem_append_right _ hx')
        · exact hapart _ hmem _ hx' rfl
      have hchain' : Chained heads (rest.map node ++ [ht.list]) := by
        refine Chained.congr (hchain.right [node p]) fun x hx => ?_
        rw [List.dropLast_concat] at hx
        exact helse x (hother x hx).1 (hother x hx).2
      have hnodup' : (ht.list :: ((insertToBucket hash count p done).map node ++
          rest.map node)).Nodup := by
        refine List.Perm.nodup (List.Perm.cons _ ?_) hnodup
        refine List.Perm.trans ?_ (((insertToBucket_perm count p done).map node).symm.append_right _)
        exact List.perm_middle
      obtain ⟨heads', buckets', hloop, harranged'', hsome'⟩ :=
        ih { ht with heads := heads, buckets := buckets } fuel (Nat.lt_of_succ_lt_succ hfuel)
          harranged' hchain' hnodup'
          (fun q hq => (hsome _).trans (halloc q (List.mem_cons_of_mem p hq)))
          fun q hq => hheld q (List.mem_cons_of_mem p hq)
      refine ⟨heads', buckets', ?_, harranged'', fun x => (hsome' x).trans (hsome x)⟩
      have hstart : startOf ht.list (p :: rest) = node p := rfl
      have hpair := hheld p List.mem_cons_self
      rw [hstart, doRehashFrom, if_neg hpne]
      simp only [hlink, hnext, hpair, hinsert', Option.bind_eq_bind, Option.bind_some]
      exact hloop

/-- A prime is left. -/
theorem Rep.doRehash (h : Rep hash cmp ht l) (hcount : ht.numBuckets + 1 < primes.length)
    (laws : KeyLaws hash cmp) : ∃ heads buckets,
    hashtableDoRehash ht true =
        some (true, { ht with heads := heads, buckets := buckets, numBuckets := ht.numBuckets + 1 }) ∧
      Rep hash cmp { ht with heads := heads, buckets := buckets, numBuckets := ht.numBuckets + 1 }
        (rehash hash ⟨ht.numBuckets, l⟩).pairs := by
  have hnew : primes[ht.numBuckets + 1]? = some (primes.getD (ht.numBuckets + 1) 0) := by
    rw [List.getD_eq_getElem?_getD, List.getElem?_eq_getElem hcount, Option.getD_some]
  have hpos : 0 < primes.getD (ht.numBuckets + 1) 0 := by
    rw [List.getD_eq_getElem?_getD, List.getElem?_eq_getElem hcount, Option.getD_some]
    exact primes_pos _ (List.getElem_mem hcount)
  obtain ⟨count, hcountEq⟩ : ∃ count, primes.getD (ht.numBuckets + 1) 0 = count := ⟨_, rfl⟩
  rw [hcountEq] at hnew hpos
  have hring := h.arranged.ring
  have hlist : (ht.heads ht.list).isSome = true := hring.mem_isSome List.mem_cons_self
  obtain ⟨link, hlink, hnext⟩ := load_next (next_of_chained hring.chained)
  obtain ⟨m, hinit, hnext', hprev', hsome⟩ := listInit_ok hlist
  obtain ⟨ht₁, hht₁⟩ : ∃ ht₁, ht₁ = { ht with
      buckets := some (List.replicate count ⟨ht.list, ht.list⟩)
      numBuckets := ht.numBuckets + 1
      heads := m } := ⟨_, rfl⟩
  have hempty : Arranged hash count ht₁ [] := by
    subst hht₁
    refine ⟨ring_nil ((hnext' _).trans (if_pos rfl)) ((hprev' _).trans (if_pos rfl)),
      grouped_nil count, congrArg some (buckets_nil ht.list)⟩
  have hchain : Chained m (l.map node ++ [ht.list]) := by
    refine Chained.congr (hring.chained.right [ht.list]) fun x hx => ?_
    rw [List.dropLast_concat] at hx
    have hne : x ≠ ht.list := fun heq => (List.nodup_cons.mp hring.nodup).1 (heq ▸ hx)
    rw [hnext', if_neg hne]
  obtain ⟨heads, buckets, hloop, harranged, hsome'⟩ :=
    doRehashFrom_ok hpos ht₁ (ht.size + 1) (Nat.lt_succ_of_le (Nat.le_of_eq h.size.symm)) hempty (by rw [hht₁]; exact hchain)
      (by rw [hht₁]; exact hring.nodup)
      (fun p hp => by
        rw [hht₁]
        exact (hsome _).trans (hring.mem_isSome (List.mem_cons_of_mem _ (List.mem_map_of_mem hp))))
      fun p hp => by
        rw [hht₁]
        exact h.held p hp
  subst hht₁
  have hperm : (rehash hash ⟨ht.numBuckets, l⟩).pairs.Perm l := rehash_perm _
  have hpairs : (rehash hash ⟨ht.numBuckets, l⟩).pairs =
      l.foldl (fun l p => insertToBucket hash count p l) [] := by
    rw [← hcountEq]
    rfl
  refine ⟨heads, buckets, ?_, ⟨hcount, ?_, ?_, ?_, ?_, ?_, ?_⟩⟩
  · simp only [hashtableDoRehash, hnew, Option.bind_eq_bind, Option.bind_some, Bool.not_true,
      Bool.false_eq_true, if_false, hlink, hnext, hinit]
    exact congrArg (fun r => r.bind fun ht => some (true, ht)) hloop
  · rw [hpairs, hcountEq]
    exact harranged
  · exact fun p hp => h.held p (hperm.mem_iff.mp hp)
  · intro a ha
    rcases List.mem_cons.mp (h.heads a ((hsome a).symm.trans ((hsome' a).symm.trans ha))) with heq | ha
    · exact heq ▸ List.mem_cons_self
    · exact List.mem_cons_of_mem _ ((hperm.map node).mem_iff.mpr ha)
  · exact fun a ha => (hperm.map node).mem_iff.mpr (h.pairs a ha)
  · exact h.size.trans hperm.length_eq.symm
  · exact (Distinct.perm laws hperm).mpr h.distinct

/-! ## A pair that is there -/

theorem Rep.node_inj (h : Rep hash cmp ht l) {p q : K × Nat × V} (hp : p ∈ l) (hq : q ∈ l)
    (heq : node p = node q) : p = q :=
  List.inj_on_of_nodup_map (List.nodup_cons.mp h.arranged.ring.nodup).2 hp hq heq

/-- No other entry has the key. -/
theorem Rep.unique (h : Rep hash cmp ht l) (laws : KeyLaws hash cmp) {key : K}
    {p q : K × Nat × V} (hp : l.find? (isKey hash cmp key) = some p) (hq : q ∈ l)
    (hkey : isKey hash cmp key q = true) : q = p := by
  have hfind := find?_of_mem laws h.distinct hq ((isKey_iff laws).mp hkey)
  exact Option.some_inj.mp (hfind.symm.trans hp)

/-- The entries with another value for a key. -/
def revalued (hash : K → UInt32) (cmp : K → K → Bool) (key : K) (value : V)
    (p : K × Nat × V) : K × Nat × V :=
  if isKey hash cmp key p then (p.1, p.2.1, value) else p

theorem revalued_key (key : K) (value : V) (p : K × Nat × V) :
    (revalued hash cmp key value p).1 = p.1 := by
  rw [revalued]
  split <;> rfl

theorem revalued_node (key : K) (value : V) (p : K × Nat × V) :
    node (revalued hash cmp key value p) = node p := by
  rw [revalued]
  split <;> rfl

theorem map_node_revalued (key : K) (value : V) (l : List (K × Nat × V)) :
    (l.map (revalued hash cmp key value)).map node = l.map node := by
  rw [List.map_map]
  exact List.map_congr_left fun p _ => revalued_node key value p

theorem Arranged.revalue (h : Arranged hash count ht l) (key : K) (value : V) :
    Arranged hash count ht (l.map (revalued hash cmp key value)) := by
  refine ⟨?_, h.grouped.map (revalued_key key value), ?_⟩
  · rw [map_node_revalued]
    exact h.ring
  · rw [h.buckets]
    refine congrArg some (List.map_congr_left fun i _ => ?_)
    have hstretch : stretch hash count i (l.map (revalued hash cmp key value)) =
        (stretch hash count i l).map (revalued hash cmp key value) := by
      rw [stretch, List.filter_map]
      refine congrArg _ (List.filter_congr fun p _ => ?_)
      rw [Function.comp_apply, revalued_key]
    have hnode : ∀ o : Option (K × Nat × V),
        (o.map (revalued hash cmp key value)).map node = o.map node := by
      intro o
      cases o with
      | none => rfl
      | some p => exact congrArg some (revalued_node key value p)
    rw [hstretch, bucketOf, bucketOf, List.head?_map, List.getLast?_map, hnode, hnode]

theorem Rep.revalue (h : Rep hash cmp ht l) (laws : KeyLaws hash cmp) {key : K}
    {p : K × Nat × V} (hp : l.find? (isKey hash cmp key) = some p) (value : V) (ks : List K)
    (vs : List V) :
    Rep hash cmp { ht with
        pairs := Function.update ht.pairs (node p) (some ⟨p.1, value, hash p.1⟩)
        freedKeys := ks
        freedValues := vs }
      (l.map (revalued hash cmp key value)) := by
  have hpmem := List.mem_of_find?_eq_some hp
  refine ⟨h.count, ?_, ?_, ?_, ?_, ?_, ?_⟩
  · obtain ⟨hring, hgrouped, hbuckets⟩ := h.arranged.revalue key value
    exact ⟨hring, hgrouped, hbuckets⟩
  · intro r hr
    obtain ⟨q, hq, rfl⟩ := List.mem_map.mp hr
    dsimp only
    rw [revalued_node, revalued_key, revalued]
    by_cases hkey : isKey hash cmp key q = true
    · obtain rfl := h.unique laws hp hq hkey
      rw [if_pos hkey, Function.update_self]
    · have hne : node q ≠ node p := by
        intro heq
        rw [h.node_inj hq hpmem heq] at hkey
        exact hkey (List.find?_some hp)
      rw [if_neg hkey, Function.update_of_ne hne]
      exact h.held q hq
  · rw [map_node_revalued]
    exact h.heads
  · rw [map_node_revalued]
    intro a ha
    by_cases hap : a = node p
    · exact hap ▸ List.mem_map_of_mem hpmem
    · dsimp only at ha
      rw [Function.update_of_ne hap] at ha
      exact h.pairs a ha
  · rw [List.length_map]
    exact h.size
  · refine List.pairwise_map.mpr (h.distinct.imp fun hpq => ?_)
    rw [revalued_key, revalued_key]
    exact hpq

theorem Rep.set_found (h : Rep hash cmp ht l) (laws : KeyLaws hash cmp) {key : K}
    {p : K × Nat × V} (hp : l.find? (isKey hash cmp key) = some p) (value : V) (new : Option Nat) :
    ∃ pairs, Jansson.setPair hash cmp ht key value new = some (true, { ht with
        pairs := pairs
        freedKeys := key :: ht.freedKeys
        freedValues := p.2.2 :: ht.freedValues }) ∧
      Rep hash cmp { ht with
          pairs := pairs
          freedKeys := key :: ht.freedKeys
          freedValues := p.2.2 :: ht.freedValues }
        (l.map (revalued hash cmp key value)) := by
  obtain ⟨buckets, hbuckets, hget⟩ := h.bucket key
  have hheld := h.held p (List.mem_of_find?_eq_some hp)
  refine ⟨_, ?_, h.revalue laws hp value _ _⟩
  simp only [Jansson.setPair, h.bucketCount, hbuckets, hget, h.findPair key rfl, hp,
    Option.map_some, hheld, Option.bind_eq_bind, Option.bind_some, Option.pure_def]

theorem Rep.iterSet (h : Rep hash cmp ht l) (laws : KeyLaws hash cmp) {key : K}
    {p : K × Nat × V} (hp : l.find? (isKey hash cmp key) = some p) (value : V) :
    ∃ pairs, hashtableIterSet ht (node p) value =
        some { ht with pairs := pairs, freedValues := p.2.2 :: ht.freedValues } ∧
      Rep hash cmp { ht with pairs := pairs, freedValues := p.2.2 :: ht.freedValues }
        (l.map (revalued hash cmp key value)) := by
  have hheld := h.held p (List.mem_of_find?_eq_some hp)
  refine ⟨_, ?_, h.revalue laws hp value ht.freedKeys _⟩
  simp only [hashtableIterSet, hheld, Option.bind_eq_bind, Option.bind_some, Option.pure_def]

/-! ## A pair that is new -/

/-- What `malloc` gives is not in use. -/
theorem Rep.set_new (h : Rep hash cmp ht l) {key : K}
    (hp : l.find? (isKey hash cmp key) = none) (laws : KeyLaws hash cmp) (value : V) {new : Nat}
    (hnew : ht.heads new = none) :
    ∃ heads buckets pairs, Jansson.setPair hash cmp ht key value (some new) = some (true, { ht with
        size := ht.size + 1, heads := heads, buckets := buckets, pairs := pairs }) ∧
      Rep hash cmp { ht with
          size := ht.size + 1, heads := heads, buckets := buckets, pairs := pairs }
        (insertToBucket hash (primes.getD ht.numBuckets 0) (key, new, value) l) := by
  obtain ⟨count, hcount⟩ : ∃ count, primes.getD ht.numBuckets 0 = count := ⟨_, rfl⟩
  obtain ⟨buckets, hbuckets, hget⟩ := h.bucket key
  have hring := h.arranged.ring
  have hout : new ∉ ht.list :: l.map node := by
    intro hmem
    have hsome := hring.mem_isSome hmem
    rw [hnew] at hsome
    cases hsome
  have hfresh : (Function.update ht.heads new (some ⟨none, none⟩) new).isSome = true := by
    rw [Function.update_self]
    rfl
  obtain ⟨m, hinit, hnext, hprev, hsome⟩ := listInit_ok hfresh
  obtain ⟨ht₁, hht₁⟩ : ∃ ht₁, ht₁ = { ht with
      heads := m
      pairs := Function.update ht.pairs new (some ⟨key, value, hash key⟩) } := ⟨_, rfl⟩
  have hsome' : ∀ x, x ≠ new → (m x).isSome = (ht.heads x).isSome := fun x hx => by
    rw [hsome, Function.update_of_ne hx]
  have harranged : Arranged hash count ht₁ l := by
    subst hht₁
    rw [← hcount]
    refine ⟨⟨hring.linked.congr (fun x hx => ?_) fun x hx => ?_, hring.nodup⟩, h.arranged.grouped,
      h.arranged.buckets⟩
    · rw [List.dropLast_concat] at hx
      have hne : x ≠ new := fun heq => hout (heq ▸ hx)
      rw [hnext, if_neg hne, nextOf, nextOf, Function.update_of_ne hne]
    · have hne : x ≠ new := by
        rintro rfl
        rcases List.mem_append.mp hx with hx | hx
        · exact hout (List.mem_cons_of_mem _ hx)
        · exact hout (List.mem_singleton.mp hx ▸ List.mem_cons_self)
      rw [hprev, if_neg hne, prevOf, prevOf, Function.update_of_ne hne]
  obtain ⟨heads, buckets', hinsert, harranged', hsome'', -⟩ :=
    htInsertToBucket_ok harranged (p := (key, new, value)) (hcount ▸ index_lt key h.count_pos)
      (by rw [hht₁]; exact (hsome new).trans hfresh)
      (by rw [hht₁]; exact hout)
  have hperm : (insertToBucket hash count (key, new, value) l).Perm ((key, new, value) :: l) :=
    insertToBucket_perm count _ l
  subst hht₁
  rw [← hcount] at hinsert harranged' hperm
  rw [hbuckets] at hinsert
  refine ⟨heads, buckets', Function.update ht.pairs new (some ⟨key, value, hash key⟩), ?_,
    ⟨h.count, ?_, ?_, ?_, ?_, ?_, ?_⟩⟩
  · simp only [Jansson.setPair, h.bucketCount, hbuckets, hget, h.findPair key rfl, hp,
      Option.map_none, Option.bind_eq_bind, Option.bind_some, Option.pure_def, hinit]
    exact congrArg (fun r => r.bind fun ht => some (true, { ht with size := ht.size + 1 })) hinsert
  · exact ⟨harranged'.ring, harranged'.grouped, harranged'.buckets⟩
  · intro p hp
    rcases List.mem_cons.mp (hperm.mem_iff.mp hp) with rfl | hp
    · exact Function.update_self ..
    · have hne : node p ≠ new :=
        fun heq => hout (heq ▸ List.mem_cons_of_mem _ (List.mem_map_of_mem hp))
      exact (Function.update_of_ne hne ..).trans (h.held p hp)
  · intro a ha
    by_cases hanew : a = new
    · exact List.mem_cons_of_mem _ ((hperm.map node).mem_iff.mpr (hanew ▸ List.mem_cons_self))
    · rcases List.mem_cons.mp (h.heads a ((hsome' a hanew).symm.trans ((hsome'' a).symm.trans ha)))
        with heq | ha
      · exact heq ▸ List.mem_cons_self
      · refine List.mem_cons_of_mem _ ((hperm.map node).mem_iff.mpr ?_)
        exact List.mem_cons_of_mem _ ha
  · intro a ha
    refine (hperm.map node).mem_iff.mpr ?_
    by_cases hanew : a = new
    · exact hanew ▸ List.mem_cons_self
    · dsimp only at ha
      rw [Function.update_of_ne hanew] at ha
      exact List.mem_cons_of_mem _ (h.pairs a ha)
  · dsimp only
    rw [hperm.length_eq, h.size]
    rfl
  · refine (Distinct.perm laws hperm).mpr (List.pairwise_cons.mpr ⟨fun p hp' => ?_, h.distinct⟩)
    by_contra hsame
    have hkey := laws.symm _ _ (by simpa using hsame : cmp key p.1 = true)
    exact List.find?_eq_none.mp hp p hp' ((isKey_iff laws).mpr hkey)

theorem Rep.set_none (h : Rep hash cmp ht l) {key : K}
    (hp : l.find? (isKey hash cmp key) = none) (value : V) :
    Jansson.setPair hash cmp ht key value none = some (false, ht) := by
  obtain ⟨buckets, hbuckets, hget⟩ := h.bucket key
  simp only [Jansson.setPair, h.bucketCount, hbuckets, hget, h.findPair key rfl, hp,
    Option.map_none, Option.bind_eq_bind, Option.bind_some, Option.pure_def]

/-! ## A pair that goes -/

/-- An entry goes from a stretch, and the bucket with it. -/
theorem bucketWithout_ok {list : Nat} {p : K × Nat × V} {front back rest : List (K × Nat × V)}
    (hnodup : (list :: (front ++ p :: (back ++ rest)).map node).Nodup) {l : Link Nat}
    (hnext : back ≠ [] → l.next = some (startOf list back))
    (hprev : front ≠ [] → l.prev = some (bucketOf list front).last) {bucket : Bucket}
    (hbucket : bucket = bucketOf list (front ++ p :: back)) :
    bucketWithout list bucket (node p) l = some (bucketOf list (front ++ back)) := by
  have hapart : ∀ q ∈ front ++ back, node p ≠ node q := by
    intro q hq heq
    have hsub : (node p :: (front ++ back).map node).Nodup := by
      have hperm : ((front ++ p :: (back ++ rest)).map node).Perm
          (node p :: (front ++ (back ++ rest)).map node) := List.perm_middle.map node
      refine (hperm.nodup (List.nodup_cons.mp hnodup).2).sublist ?_
      rw [← List.append_assoc]
      exact ((List.sublist_append_left _ rest).map node).cons_cons _
    exact (List.nodup_cons.mp hsub).1 (heq ▸ List.mem_map_of_mem hq)
  have hfirst : node p = bucket.first ↔ front = [] := by
    subst hbucket
    cases front with
    | nil => exact iff_of_true rfl rfl
    | cons q front => exact iff_of_false (hapart q List.mem_cons_self) (List.cons_ne_nil q front)
  have hlast : node p = bucket.last ↔ back = [] := by
    subst hbucket
    rcases List.eq_nil_or_concat back with rfl | ⟨back, q, rfl⟩
    · refine iff_of_true ?_ rfl
      rw [bucketOf, List.getLast?_concat]
      rfl
    · refine iff_of_false ?_ (by simp)
      have hends : (front ++ p :: back.concat q).getLast? = some q := by
        rw [List.concat_eq_append, ← List.cons_append, ← List.append_assoc, List.getLast?_concat]
      rw [bucketOf, hends]
      exact hapart q (by simp)
  rw [bucketWithout]
  by_cases hfront : front = []
  · by_cases hback : back = []
    · rw [if_pos ⟨hfirst.mpr hfront, hlast.mpr hback⟩, hfront, hback]
      rfl
    · rw [if_neg fun h => hback (hlast.mp h.2), if_pos (hfirst.mpr hfront), hnext hback, hbucket,
        hfront, Option.map_some]
      refine congrArg some (congrArg (Bucket.mk _) ?_)
      obtain ⟨q, back, rfl⟩ := List.exists_cons_of_ne_nil hback
      exact congrArg (fun o : Option (K × Nat × V) => (o.map node).getD list)
        List.getLast?_cons_cons
  · rw [if_neg fun h => hfront (hfirst.mp h.1), if_neg fun h => hfront (hfirst.mp h)]
    obtain ⟨q, front, rfl⟩ := List.exists_cons_of_ne_nil hfront
    by_cases hback : back = []
    · rw [if_pos (hlast.mpr hback), hprev hfront, hbucket, hback, List.append_nil, Option.map_some]
      rfl
    · rw [if_neg fun h => hback (hlast.mp h), hbucket]
      obtain ⟨r, back, rfl⟩ := List.exists_cons_of_ne_nil hback
      refine congrArg some (congrArg (Bucket.mk _) ?_)
      refine congrArg (fun o : Option (K × Nat × V) => (o.map node).getD list) ?_
      rw [List.getLast?_append_of_ne_nil _ (List.cons_ne_nil _ _), List.getLast?_cons_cons,
        List.getLast?_append_of_ne_nil _ (List.cons_ne_nil _ _)]

theorem eraseP_unique (laws : KeyLaws hash cmp) {key : K} {p : K × Nat × V}
    {front back : List (K × Nat × V)} (hdistinct : Distinct cmp (front ++ p :: back))
    (hkey : isKey hash cmp key p = true) :
    (front ++ p :: back).eraseP (isKey hash cmp key) = front ++ back := by
  rw [List.eraseP_append_right, List.eraseP_cons_of_pos hkey]
  intro q hq hmatch
  have hsame := laws.trans _ _ _ ((isKey_iff laws).mp hmatch) (laws.symm _ _ ((isKey_iff laws).mp hkey))
  rw [(List.pairwise_append.mp hdistinct).2.2 q hq p List.mem_cons_self] at hsame
  cases hsame

theorem stretch_append (i : Nat) (l₁ l₂ : List (K × Nat × V)) :
    stretch hash count i (l₁ ++ l₂) = stretch hash count i l₁ ++ stretch hash count i l₂ :=
  List.filter_append _ _

theorem Rep.delPair (h : Rep hash cmp ht l) (laws : KeyLaws hash cmp) {key : K}
    {p : K × Nat × V} (hp : l.find? (isKey hash cmp key) = some p) :
    ∃ buckets heads pairs,
      Jansson.delPair ht (index hash (primes.getD ht.numBuckets 0) key)
          (bucketOf ht.list (stretch hash (primes.getD ht.numBuckets 0)
            (index hash (primes.getD ht.numBuckets 0) key) l)) (node p) =
        some { ht with
          size := ht.size - 1, buckets := buckets, heads := heads, pairs := pairs,
          freedKeys := p.1 :: ht.freedKeys, freedValues := p.2.2 :: ht.freedValues } ∧
      Rep hash cmp { ht with
          size := ht.size - 1, buckets := buckets, heads := heads, pairs := pairs,
          freedKeys := p.1 :: ht.freedKeys, freedValues := p.2.2 :: ht.freedValues }
        (l.eraseP (isKey hash cmp key)) := by
  obtain ⟨count, hcount⟩ : ∃ count, primes.getD ht.numBuckets 0 = count := ⟨_, rfl⟩
  have hkey := List.find?_some hp
  have hpi : index hash count p.1 = index hash count key := by
    rw [index, index, laws.hash_eq _ _ ((isKey_iff laws).mp hkey)]
  have harranged := hcount ▸ h.arranged
  have hi : index hash count key < count := hcount ▸ index_lt key h.count_pos
  rw [hcount]
  -- where the entry is in its bucket, and the bucket in the ring
  obtain ⟨before, after, hl, hother⟩ := harranged.split (index hash count key)
  have hpmem : p ∈ stretch hash count (index hash count key) l :=
    List.mem_filter.mpr ⟨List.mem_of_find?_eq_some hp, decide_eq_true hpi⟩
  obtain ⟨front, back, hhere⟩ := List.append_of_mem hpmem
  rw [hhere] at hl
  have hl' : l = before ++ (front ++ p :: (back ++ after)) := by
    rw [hl, List.append_assoc, List.append_assoc, List.cons_append]
  have hfound : l.eraseP (isKey hash cmp key) = before ++ (front ++ (back ++ after)) := by
    have hdistinct := h.distinct
    rw [hl', ← List.append_assoc] at hdistinct ⊢
    rw [eraseP_unique laws hdistinct hkey, List.append_assoc]
  have hring := harranged.ring
  have hnodes : l.map node = (before ++ front).map node ++ node p :: (back ++ after).map node := by
    rw [hl', ← List.append_assoc, List.map_append, List.map_cons]
  rw [hnodes] at hring
  obtain ⟨m, hremove, hsome, hring'⟩ := listRemove_ok hring
  have hpsome : (ht.heads (node p)).isSome = true :=
    hring.mem_isSome (List.mem_cons_of_mem _ (List.mem_append_right _ List.mem_cons_self))
  obtain ⟨link, hlink⟩ := Option.isSome_iff_exists.mp hpsome
  have hlinked := hring.linked
  have hpout : node p ∉ ht.list :: (before ++ (front ++ (back ++ after))).map node := by
    have hperm : (ht.list :: ((before ++ front).map node ++ node p :: (back ++ after).map node)).Perm
        (node p :: ht.list :: (before ++ (front ++ (back ++ after))).map node) := by
      have hsplit : (before ++ (front ++ (back ++ after))).map node =
          (before ++ front).map node ++ (back ++ after).map node := by
        rw [← List.append_assoc before, List.map_append]
      rw [hsplit]
      exact (List.perm_middle.cons _).trans (.swap _ _ _)
    exact (List.nodup_cons.mp (hperm.nodup hring.nodup)).1
  -- the neighbours in the ring are the neighbours in the bucket
  have hnext : back ≠ [] → link.next = some (startOf ht.list back) := by
    intro hback
    obtain ⟨q, back, rfl⟩ := List.exists_cons_of_ne_nil hback
    have hchain := hring.chained
    rw [← List.cons_append, List.append_assoc] at hchain
    have hstep := (hchain.right _).1
    rw [nextOf, hlink] at hstep
    exact hstep
  have hprev : front ≠ [] → link.prev = some (bucketOf ht.list front).last := by
    intro hfront
    rcases List.eq_nil_or_concat front with rfl | ⟨front, q, rfl⟩
    · exact absurd rfl hfront
    · rw [List.concat_eq_append, ← List.append_assoc, List.map_append,
        List.append_assoc, ← List.cons_append, List.append_assoc] at hlinked
      have hstep := ((linked_append (ht.list :: (before ++ front).map node) (node q) _).mp hlinked).2.1.2
      rw [prevOf, hlink] at hstep
      rw [bucketOf, List.concat_eq_append, List.getLast?_concat]
      exact hstep
  have hnodup : (ht.list :: (front ++ p :: (back ++ after)).map node).Nodup := by
    have hnodup := harranged.ring.nodup
    rw [hl', List.map_append] at hnodup
    exact hnodup.sublist ((List.sublist_append_right _ _).cons_cons _)
  have hbucket := bucketWithout_ok hnodup hnext hprev rfl
  rw [hhere]
  have hheld := h.held p (List.mem_of_find?_eq_some hp)
  refine ⟨some (((List.range count).map fun i => bucketOf ht.list (stretch hash count i l)).set
      (index hash count key) (bucketOf ht.list (front ++ back))),
    Function.update m (node p) none, Function.update ht.pairs (node p) none, ?_,
    ⟨h.count, ?_, ?_, ?_, ?_, ?_, ?_⟩⟩
  · have hfree := free_ok ((hsome (node p)).trans hpsome)
    simp only [Jansson.delPair, harranged.buckets, hlink, hbucket, hremove, hheld, hfree,
      Option.bind_eq_bind, Option.bind_some, Option.pure_def]
  · rw [hfound]
    dsimp only
    rw [hcount]
    refine ⟨?_, ?_, ?_⟩
    · rw [← List.append_assoc, List.map_append]
      exact hring'
    · rw [← hfound]
      exact harranged.grouped.eraseP _
    · dsimp only
      refine congrArg some ?_
      have hside : ∀ side : List (K × Nat × V),
          (∀ q ∈ side, index hash count q.1 ≠ index hash count key) →
          stretch hash count (index hash count key) side = [] := fun side hside =>
        List.filter_eq_nil_iff.mpr fun q hq => by simpa using hside q hq
      have hin : ∀ side : List (K × Nat × V), (∀ q ∈ side, q ∈ front ++ p :: back) →
          stretch hash count (index hash count key) side = side := fun side hside =>
        List.filter_eq_self.mpr fun q hq =>
          decide_eq_true (stretch_mem (hhere ▸ hside q hq)).2
      have hnew : stretch hash count (index hash count key) (before ++ (front ++ (back ++ after))) =
          front ++ back := by
        rw [stretch_append, stretch_append, stretch_append,
          hside before fun q hq => hother q (List.mem_append_left _ hq),
          hside after fun q hq => hother q (List.mem_append_right _ hq),
          hin front fun q hq => List.mem_append_left _ hq,
          hin back fun q hq => List.mem_append_right _ (List.mem_cons_of_mem _ hq),
          List.nil_append, List.append_nil]
      rw [← hnew]
      refine set_range (f := fun i => bucketOf ht.list (stretch hash count i l))
        (g := fun i => bucketOf ht.list
          (stretch hash count i (before ++ (front ++ (back ++ after))))) fun j hj => ?_
      have hpj : index hash count p.1 ≠ j := fun heq => hj (heq.symm.trans hpi)
      rw [hl', stretch_append, stretch_append, stretch_append, stretch_append, stretch_append,
        stretch_cons, if_neg hpj, stretch_append]
  · rw [hfound]
    intro q hq
    have hne : node q ≠ node p := fun heq =>
      hpout (heq ▸ List.mem_cons_of_mem _ (List.mem_map_of_mem hq))
    refine (Function.update_of_ne hne ..).trans (h.held q ?_)
    rw [← hfound] at hq
    exact List.mem_of_mem_eraseP hq
  · rw [hfound]
    intro a ha
    by_cases hap : a = node p
    · rw [hap] at ha
      dsimp only at ha
      rw [Function.update_self] at ha
      cases ha
    · dsimp only at ha
      rw [Function.update_of_ne hap] at ha
      have hmem := h.heads a ((hsome a).symm.trans ha)
      rw [hl', List.map_append, List.map_append, List.map_cons] at hmem
      rw [List.map_append, List.map_append]
      simp only [List.mem_cons, List.mem_append] at hmem ⊢
      tauto
  · rw [hfound]
    intro a ha
    by_cases hap : a = node p
    · rw [hap] at ha
      dsimp only at ha
      rw [Function.update_self] at ha
      cases ha
    · dsimp only at ha
      rw [Function.update_of_ne hap] at ha
      have hmem := h.pairs a ha
      rw [hl', List.map_append, List.map_append, List.map_cons] at hmem
      rw [List.map_append, List.map_append]
      simp only [List.mem_cons, List.mem_append] at hmem ⊢
      tauto
  · rw [hfound]
    dsimp only
    rw [h.size, hl']
    simp only [List.length_append, List.length_cons]
    omega
  · exact h.distinct.sublist List.eraseP_sublist

theorem Rep.del (h : Rep hash cmp ht l) (laws : KeyLaws hash cmp) {key : K}
    {p : K × Nat × V} (hp : l.find? (isKey hash cmp key) = some p) :
    ∃ buckets heads pairs, hashtableDel hash cmp ht key = some (true, { ht with
          size := ht.size - 1, buckets := buckets, heads := heads, pairs := pairs,
          freedKeys := p.1 :: ht.freedKeys, freedValues := p.2.2 :: ht.freedValues }) ∧
      Rep hash cmp { ht with
          size := ht.size - 1, buckets := buckets, heads := heads, pairs := pairs,
          freedKeys := p.1 :: ht.freedKeys, freedValues := p.2.2 :: ht.freedValues }
        (l.eraseP (isKey hash cmp key)) := by
  obtain ⟨buckets, hbuckets, hget⟩ := h.bucket key
  obtain ⟨buckets', heads, pairs, hdel, hrep⟩ := Rep.delPair h laws hp
  refine ⟨buckets', heads, pairs, ?_, hrep⟩
  simp only [hashtableDel, hashtableDoDel, h.bucketCount, hbuckets, hget, h.findPair key rfl, hp,
    Option.map_some, Option.bind_eq_bind, Option.bind_some, Option.pure_def]
  exact congrArg (fun r => r.bind fun ht => some (true, ht)) hdel

theorem Rep.del_none (h : Rep hash cmp ht l) {key : K}
    (hp : l.find? (isKey hash cmp key) = none) :
    hashtableDel hash cmp ht key = some (false, ht) := by
  obtain ⟨buckets, hbuckets, hget⟩ := h.bucket key
  simp only [hashtableDel, hashtableDoDel, h.bucketCount, hbuckets, hget, h.findPair key rfl, hp,
    Option.map_none, Option.bind_eq_bind, Option.bind_some, Option.pure_def]

/-! ## All pairs go -/

theorem doClearFrom_ok {rest : List (K × Nat × V)} : ∀ (ht : Hashtable K V) (fuel : Nat),
    rest.length < fuel → Chained ht.heads (rest.map node ++ [ht.list]) →
    (ht.list :: rest.map node).Nodup → (∀ p ∈ rest, (ht.heads (node p)).isSome = true) →
    (∀ p ∈ rest, ht.pairs (node p) = some ⟨p.1, p.2.2, hash p.1⟩) →
    ∃ heads pairs, doClearFrom ht fuel (startOf ht.list rest) = some { ht with
        heads := heads
        pairs := pairs
        freedKeys := (rest.map Prod.fst).reverse ++ ht.freedKeys
        freedValues := (rest.map fun p => p.2.2).reverse ++ ht.freedValues } ∧
      (∀ x, heads x = if x ∈ rest.map node then none else ht.heads x) ∧
      ∀ x, pairs x = if x ∈ rest.map node then none else ht.pairs x := by
  induction rest with
  | nil =>
      intro ht fuel hfuel _ _ _ _
      obtain ⟨fuel, rfl⟩ : ∃ left, fuel = left + 1 := Nat.exists_eq_add_of_le' hfuel
      exact ⟨ht.heads, ht.pairs, if_pos rfl, fun x => by rw [if_neg nofun],
        fun x => by rw [if_neg nofun]⟩
  | cons p rest ih =>
      intro ht fuel hfuel hchain hnodup halloc hheld
      obtain ⟨fuel, rfl⟩ : ∃ left, fuel = left + 1 :=
        Nat.exists_eq_add_of_le' (Nat.lt_of_le_of_lt (Nat.zero_le _) hfuel)
      obtain ⟨hlist, hnodes⟩ := List.nodup_cons.mp hnodup
      obtain ⟨hprest, hrest⟩ := List.nodup_cons.mp hnodes
      have hpne : node p ≠ ht.list := fun heq => hlist (heq ▸ List.mem_cons_self)
      obtain ⟨link, hlink, hnext⟩ := load_next (next_of_chained hchain)
      have hpair := hheld p List.mem_cons_self
      have hfree := free_ok (halloc p List.mem_cons_self)
      have hother : ∀ q ∈ rest, node q ≠ node p := fun q hq heq =>
        hprest (heq ▸ List.mem_map_of_mem hq)
      obtain ⟨heads, pairs, hloop, hheads, hpairs⟩ := ih { ht with
          heads := Function.update ht.heads (node p) none
          pairs := Function.update ht.pairs (node p) none
          freedKeys := p.1 :: ht.freedKeys
          freedValues := p.2.2 :: ht.freedValues } fuel (Nat.lt_of_succ_lt_succ hfuel)
        (by
          refine Chained.congr (hchain.right [node p]) fun x hx => ?_
          rw [List.dropLast_concat] at hx
          have hne : x ≠ node p := fun heq => hprest (heq ▸ hx)
          rw [nextOf, nextOf]
          dsimp only
          rw [Function.update_of_ne hne])
        (List.nodup_cons.mpr ⟨fun hmem => hlist (List.mem_cons_of_mem _ hmem), hrest⟩)
        (fun q hq => by
          dsimp only
          rw [Function.update_of_ne (hother q hq)]
          exact halloc q (List.mem_cons_of_mem p hq))
        fun q hq => by
          dsimp only
          rw [Function.update_of_ne (hother q hq)]
          exact hheld q (List.mem_cons_of_mem p hq)
      refine ⟨heads, pairs, ?_, fun x => ?_, fun x => ?_⟩
      · have hstart : startOf ht.list (p :: rest) = node p := rfl
        rw [hstart, doClearFrom, if_neg hpne]
        simp only [hlink, hnext, hpair, hfree, Option.bind_eq_bind, Option.bind_some]
        refine hloop.trans ?_
        simp only [List.map_cons, List.reverse_cons, List.append_assoc, List.singleton_append]
      · rw [hheads, List.map_cons]
        by_cases hx : x = node p
        · subst hx
          rw [if_neg hprest, if_pos List.mem_cons_self]
          exact Function.update_self ..
        · by_cases hmem : x ∈ rest.map node
          · rw [if_pos hmem, if_pos (List.mem_cons_of_mem _ hmem)]
          · rw [if_neg hmem, if_neg fun h => (List.mem_cons.mp h).elim hx hmem]
            exact Function.update_of_ne hx ..
      · rw [hpairs, List.map_cons]
        by_cases hx : x = node p
        · subst hx
          rw [if_neg hprest, if_pos List.mem_cons_self]
          exact Function.update_self ..
        · by_cases hmem : x ∈ rest.map node
          · rw [if_pos hmem, if_pos (List.mem_cons_of_mem _ hmem)]
          · rw [if_neg hmem, if_neg fun h => (List.mem_cons.mp h).elim hx hmem]
            exact Function.update_of_ne hx ..

/-- Only the table's own `list` is left. -/
theorem Rep.doClear (h : Rep hash cmp ht l) : ∃ heads pairs,
    hashtableDoClear ht = some { ht with
        heads := heads
        pairs := pairs
        freedKeys := (l.map Prod.fst).reverse ++ ht.freedKeys
        freedValues := (l.map fun p => p.2.2).reverse ++ ht.freedValues } ∧
      (∀ a, a ≠ ht.list → heads a = none) ∧ (heads ht.list).isSome = true ∧
      ∀ a, pairs a = none := by
  have hring := h.arranged.ring
  obtain ⟨link, hlink, hnext⟩ := load_next (next_of_chained hring.chained)
  obtain ⟨heads, pairs, hloop, hheads, hpairs⟩ :=
    doClearFrom_ok ht (ht.size + 1) (Nat.lt_succ_of_le (Nat.le_of_eq h.size.symm)) (hring.chained.right [ht.list]) hring.nodup
      (fun p hp => hring.mem_isSome (List.mem_cons_of_mem _ (List.mem_map_of_mem hp))) h.held
  refine ⟨heads, pairs, ?_, fun a ha => ?_, ?_, fun a => ?_⟩
  · simp only [hashtableDoClear, hlink, hnext, Option.bind_eq_bind, Option.bind_some]
    exact hloop
  · rw [hheads]
    by_cases hmem : a ∈ l.map node
    · rw [if_pos hmem]
    · rw [if_neg hmem]
      by_contra hsome
      rcases List.mem_cons.mp (h.heads a (Option.isSome_iff_ne_none.mpr hsome)) with heq | hmem'
      · exact ha heq
      · exact hmem hmem'
  · rw [hheads, if_neg (List.nodup_cons.mp hring.nodup).1]
    exact hring.mem_isSome List.mem_cons_self
  · rw [hpairs]
    by_cases hmem : a ∈ l.map node
    · rw [if_pos hmem]
    · rw [if_neg hmem]
      by_contra hsome
      exact hmem (h.pairs a (Option.isSome_iff_ne_none.mpr hsome))

theorem Rep.clear (h : Rep hash cmp ht l) : ∃ buckets heads pairs,
    hashtableClear ht = some { ht with
        size := 0, buckets := buckets, heads := heads, pairs := pairs,
        freedKeys := (l.map Prod.fst).reverse ++ ht.freedKeys,
        freedValues := (l.map fun p => p.2.2).reverse ++ ht.freedValues } ∧
      Rep hash cmp { ht with
        size := 0, buckets := buckets, heads := heads, pairs := pairs,
        freedKeys := (l.map Prod.fst).reverse ++ ht.freedKeys,
        freedValues := (l.map fun p => p.2.2).reverse ++ ht.freedValues } [] := by
  obtain ⟨m, pairs, hclear, hother, hlist, hpairs⟩ := h.doClear
  obtain ⟨heads, hinit, hnext, hprev, hsome⟩ := listInit_ok hlist
  refine ⟨some (List.replicate (primes.getD ht.numBuckets 0) ⟨ht.list, ht.list⟩), heads, pairs, ?_,
    ⟨h.count, ⟨?_, grouped_nil _, ?_⟩, nofun, fun a ha => ?_, fun a ha => ?_, rfl,
      List.Pairwise.nil⟩⟩
  · have hcount := h.bucketCount
    rw [Hashtable.bucketCount] at hcount
    simp only [hashtableClear, hclear, Hashtable.bucketCount, hcount, h.arranged.buckets, hinit,
      Option.bind_eq_bind, Option.bind_some, Option.pure_def]
  · exact ring_nil ((hnext _).trans (if_pos rfl)) ((hprev _).trans (if_pos rfl))
  · exact congrArg some (buckets_nil ht.list)
  · by_contra hmem
    have hnone := hother a fun heq => hmem (heq ▸ List.mem_cons_self)
    rw [hsome, hnone] at ha
    cases ha
  · dsimp only at ha
    rw [hpairs] at ha
    cases ha

/-! ## The iterator -/

/-- An entry without where its pair is. -/
def plain (p : K × Nat × V) : K × V := (p.1, p.2.2)

theorem iterNext_ok {x : Nat} {rest : List (K × Nat × V)}
    (h : nextOf ht.heads x = some (startOf ht.list rest)) (hne : ∀ p ∈ rest, node p ≠ ht.list) :
    hashtableIterNext ht x = some (rest.head?.map node) := by
  obtain ⟨link, hlink, hnext⟩ := load_next h
  simp only [hashtableIterNext, hlink, hnext, Option.bind_eq_bind, Option.bind_some, Option.pure_def]
  cases rest with
  | nil => exact if_pos rfl
  | cons p rest => exact if_neg (hne p List.mem_cons_self)

theorem iterateFrom_ok {rest : List (K × Nat × V)} : ∀ fuel : Nat, rest.length ≤ fuel →
    Chained ht.heads (rest.map node ++ [ht.list]) → (∀ p ∈ rest, node p ≠ ht.list) →
    (∀ p ∈ rest, ht.pairs (node p) = some ⟨p.1, p.2.2, hash p.1⟩) →
    iterateFrom ht fuel (rest.head?.map node) = some (rest.map plain) := by
  induction rest with
  | nil =>
      intro fuel _ _ _ _
      cases fuel <;> rfl
  | cons p rest ih =>
      intro fuel hfuel hchain hne hheld
      obtain ⟨fuel, rfl⟩ : ∃ left, fuel = left + 1 :=
        Nat.exists_eq_add_of_le' (Nat.le_trans (Nat.succ_pos _) hfuel)
      have hpair := hheld p List.mem_cons_self
      have hnext := iterNext_ok (next_of_chained hchain) fun q hq =>
        hne q (List.mem_cons_of_mem p hq)
      have hrest := ih fuel (Nat.le_of_succ_le_succ hfuel) (hchain.right [node p])
        (fun q hq => hne q (List.mem_cons_of_mem p hq))
        fun q hq => hheld q (List.mem_cons_of_mem p hq)
      simp only [List.head?_cons, Option.map_some, iterateFrom, hashtableIterKey,
        hashtableIterValue, hpair, hnext, hrest, Option.bind_eq_bind, Option.bind_some,
        Option.pure_def]
      rfl

theorem Rep.iterate (h : Rep hash cmp ht l) : Jansson.iterate ht = some (l.map plain) := by
  have hring := h.arranged.ring
  have hne : ∀ p ∈ l, node p ≠ ht.list := fun p hp => h.arranged.node_ne hp
  rw [Jansson.iterate, hashtableIter, iterNext_ok (next_of_chained hring.chained) hne]
  exact iterateFrom_ok ht.size (Nat.le_of_eq h.size.symm) (hring.chained.right [ht.list]) hne h.held

end

end AlphaMiner.Jansson
