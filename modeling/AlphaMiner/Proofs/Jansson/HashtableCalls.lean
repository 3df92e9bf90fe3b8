import AlphaMiner.Proofs.Jansson.Hashtable

/-!
# The hash table is a map

Every call that is allowed runs to its end and answers as a map does in which keys that
compare equal are one key (`hashtable_is_map`). And what the table was given it has or
has freed, once: after `hashtable_close` there is nothing that was not freed
(`hashtable_owns`). Both are inductions over the calls on `call_ok`, which says what one
call does to the entries.

A call is not allowed if `malloc` gives what is in use, if a rehash is due and `malloc`
gives nothing, or if it is due and there is no prime left. Then the table cannot be used
any more. A `malloc` that fails for a pair is allowed.
-/

namespace AlphaMiner.Jansson

open Lib Table

variable {K V : Type}

/-! ## Maps -/

/-- A call on a map: its answer, and the map afterwards. -/
def MapCall (cmp : K → K → Bool) (f : K → Option V) :
    HashtableCall K V → HashtableAnswer K V → (K → Option V) → Prop
  | .set key value _ new, answer, f' =>
      (answer = .ok true ∧ f' = fun k => if cmp key k = true then some value else f k) ∨
        (answer = .ok false ∧ new = none ∧ f key = none ∧ f' = f)
  | .get key, answer, f' => answer = .value (f key) ∧ f' = f
  | .del key, answer, f' =>
      answer = .ok (f key).isSome ∧ f' = fun k => if cmp key k = true then none else f k
  | .clear, answer, f' => answer = .ok true ∧ f' = fun _ => none
  | .iterate, answer, f' =>
      (∃ pairs, answer = .pairs pairs ∧ Distinct cmp pairs ∧
        ∀ k, (pairs.find? fun p => cmp p.1 k).map Prod.snd = f k) ∧ f' = f
  | .iterSet key value, answer, f' =>
      answer = .ok (f key).isSome ∧
        f' = fun k => if cmp key k = true then (f key).map fun _ => value else f k

def MapCalls (cmp : K → K → Bool) :
    (K → Option V) → List (HashtableCall K V) → List (HashtableAnswer K V) → Prop
  | _, [], [] => True
  | f, call :: calls, answer :: answers =>
      ∃ f', MapCall cmp f call answer f' ∧ MapCalls cmp f' calls answers
  | _, _, _ => False

section
variable (hash : K → UInt32) (cmp : K → K → Bool)

/-- What a caller and `malloc` have to see to. -/
def CallAllowed (ht : Hashtable K V) : HashtableCall K V → Prop
  | .set _ _ memory new =>
      (∀ count, ht.bucketCount = some count → ht.size ≥ count →
        memory = true ∧ ht.numBuckets + 1 < primes.length) ∧ ∀ a, new = some a → ht.heads a = none
  | _ => True

def CallsAllowed (ht : Hashtable K V) : List (HashtableCall K V) → Prop
  | [] => True
  | call :: calls => CallAllowed ht call ∧
      ∀ answer ht', hashtableCall hash cmp ht call = some (answer, ht') → CallsAllowed ht' calls

end

section
variable {hash : K → UInt32} {cmp : K → K → Bool} {ht : Hashtable K V}

def callAllowed (ht : Hashtable K V) : HashtableCall K V → Bool
  | .set _ _ memory new =>
      (ht.bucketCount.all fun count =>
        ht.size < count || (memory && ht.numBuckets + 1 < primes.length)) &&
      new.all fun a => (ht.heads a).isNone
  | _ => true

theorem callAllowed_iff {call : HashtableCall K V} :
    callAllowed ht call = true ↔ CallAllowed ht call := by
  cases call with
  | set key value memory new =>
      rw [callAllowed, CallAllowed, Bool.and_eq_true, Option.all_eq_true, Option.all_eq_true]
      refine and_congr (forall₂_congr fun count _ => ?_) (forall₂_congr fun a _ => ?_)
      · rw [Bool.or_eq_true, Bool.and_eq_true, decide_eq_true_iff, decide_eq_true_iff,
          or_iff_not_imp_left, Nat.not_lt]
      · exact Option.isNone_iff_eq_none
  | _ => exact iff_of_true rfl trivial

def callsAllowed (hash : K → UInt32) (cmp : K → K → Bool) (ht : Hashtable K V) :
    List (HashtableCall K V) → Bool
  | [] => true
  | call :: calls => callAllowed ht call &&
      (hashtableCall hash cmp ht call).all fun r => callsAllowed hash cmp r.2 calls

theorem callsAllowed_iff {calls : List (HashtableCall K V)} :
    callsAllowed hash cmp ht calls = true ↔ CallsAllowed hash cmp ht calls := by
  induction calls generalizing ht with
  | nil => exact iff_of_true rfl trivial
  | cons call calls ih =>
      rw [callsAllowed, CallsAllowed, Bool.and_eq_true, callAllowed_iff, Option.all_eq_true,
        Prod.forall]
      exact and_congr_right fun _ => forall₂_congr fun _ _ => forall_congr' fun _ => ih

instance {calls : List (HashtableCall K V)} : Decidable (CallsAllowed hash cmp ht calls) :=
  decidable_of_iff _ callsAllowed_iff

end

/-- The keys that are the table's from this call on. -/
def keysGiven : HashtableCall K V → HashtableAnswer K V → List K
  | .set key _ _ _, .ok true => [key]
  | _, _ => []

def valuesGiven : HashtableCall K V → HashtableAnswer K V → List V
  | .set _ value _ _, .ok true => [value]
  | .iterSet _ value, .ok true => [value]
  | _, _ => []

/-! ## One call -/

section
variable {hash : K → UInt32} {cmp : K → K → Bool} {ht : Hashtable K V} {l : List (K × Nat × V)}

def valueOf (hash : K → UInt32) (cmp : K → K → Bool) (l : List (K × Nat × V)) (key : K) : Option V :=
  (l.find? (isKey hash cmp key)).map fun p => p.2.2

/-- What a call leaves behind, with the keys and values it was given. -/
structure After (hash : K → UInt32) (cmp : K → K → Bool) (ht : Hashtable K V)
    (l : List (K × Nat × V)) (keys : List K) (values : List V) (ht' : Hashtable K V)
    (l' : List (K × Nat × V)) : Prop where
  rep : Rep hash cmp ht' l'
  list : ht'.list = ht.list
  keys : (ht'.freedKeys ++ l'.map Prod.fst).Perm (keys ++ (ht.freedKeys ++ l.map Prod.fst))
  values : (ht'.freedValues ++ l'.map fun p => p.2.2).Perm
    (values ++ (ht.freedValues ++ l.map fun p => p.2.2))

theorem After.same (h : Rep hash cmp ht l) : After hash cmp ht l [] [] ht l :=
  ⟨h, rfl, .refl _, .refl _⟩

theorem valueOf_perm (laws : KeyLaws hash cmp) {l l' : List (K × Nat × V)} (hl : Distinct cmp l)
    (h : l.Perm l') (key : K) : valueOf hash cmp l' key = valueOf hash cmp l key := by
  rw [valueOf, valueOf, find?_perm laws hl h]

theorem valueOf_insert (laws : KeyLaws hash cmp) {count : Nat} {p : K × Nat × V}
    (h : Distinct cmp (insertToBucket hash count p l)) (key : K) :
    valueOf hash cmp (insertToBucket hash count p l) key =
      if cmp p.1 key = true then some p.2.2 else valueOf hash cmp l key := by
  have hperm : (insertToBucket hash count p l).Perm (p :: l) := insertToBucket_perm count p l
  rw [valueOf_perm laws ((Distinct.perm laws hperm).mp h) hperm.symm, valueOf, List.find?_cons]
  by_cases hkey : cmp p.1 key = true
  · rw [(isKey_iff laws).mpr hkey, if_pos hkey]
    rfl
  · have hmatch : isKey hash cmp key p = false := by
      rw [← Bool.not_eq_true, isKey_iff laws]
      exact hkey
    rw [hmatch, if_neg hkey]
    rfl

theorem valueOf_revalued (laws : KeyLaws hash cmp) {p : K × Nat × V} {key : K}
    (h : Distinct cmp l) (hp : l.find? (isKey hash cmp key) = some p) (value : V) (k : K) :
    valueOf hash cmp (l.map (revalued hash cmp key value)) k =
      if cmp key k = true then some value else valueOf hash cmp l k := by
  have hfind : ∀ k, (l.map (revalued hash cmp key value)).find? (isKey hash cmp k) =
      (l.find? (isKey hash cmp k)).map (revalued hash cmp key value) := by
    intro k
    rw [List.find?_map]
    refine congrArg _ (congrArg (fun f => List.find? f l) (funext fun q => ?_))
    rw [Function.comp_apply, isKey, isKey, revalued_key]
  rw [valueOf, hfind]
  by_cases hkey : cmp key k = true
  · -- the key stands for the same entry
    have hpk : l.find? (isKey hash cmp k) = some p :=
      find?_of_mem laws h (List.mem_of_find?_eq_some hp)
        (laws.trans _ _ _ ((isKey_iff laws).mp (List.find?_some hp)) hkey)
    rw [hpk, if_pos hkey, Option.map_some, Option.map_some, revalued, if_pos (List.find?_some hp)]
  · rw [if_neg hkey, valueOf]
    cases hq : l.find? (isKey hash cmp k) with
    | none => rfl
    | some q =>
        have hmatch : ¬isKey hash cmp key q = true := by
          intro h'
          exact hkey (laws.trans _ _ _ (laws.symm _ _ ((isKey_iff laws).mp h'))
            ((isKey_iff laws).mp (List.find?_some hq)))
        rw [Option.map_some, Option.map_some, revalued, if_neg hmatch]
        rfl

theorem map_key_revalued (key : K) (value : V) (l : List (K × Nat × V)) :
    (l.map (revalued hash cmp key value)).map Prod.fst = l.map Prod.fst := by
  rw [List.map_map]
  exact List.map_congr_left fun p _ => revalued_key key value p

/-- One value is exchanged for another. -/
theorem revalued_perm (h : Rep hash cmp ht l) (laws : KeyLaws hash cmp) {p : K × Nat × V} {key : K}
    (hp : l.find? (isKey hash cmp key) = some p) (value : V) :
    (p.2.2 :: (l.map (revalued hash cmp key value)).map fun q => q.2.2).Perm
      (value :: l.map fun q => q.2.2) := by
  obtain ⟨front, back, rfl⟩ := List.append_of_mem (List.mem_of_find?_eq_some hp)
  have hkey := List.find?_some hp
  have hother : ∀ q ∈ front ++ back, revalued hash cmp key value q = q := by
    intro q hq
    refine if_neg fun hmatch => ?_
    have hmem : q ∈ front ++ p :: back := by
      rcases List.mem_append.mp hq with hq | hq
      · exact List.mem_append_left _ hq
      · exact List.mem_append_right _ (List.mem_cons_of_mem p hq)
    obtain rfl := h.unique laws hp hmem hmatch
    have hnodup := List.Nodup.of_map _ (List.nodup_cons.mp h.arranged.ring.nodup).2
    exact (List.nodup_cons.mp (List.perm_middle.nodup hnodup)).1 hq
  have hfront : front.map (revalued hash cmp key value) = front := by
    refine (List.map_congr_left fun q hq => ?_).trans (List.map_id front)
    exact hother q (List.mem_append_left _ hq)
  have hback : back.map (revalued hash cmp key value) = back := by
    refine (List.map_congr_left fun q hq => ?_).trans (List.map_id back)
    exact hother q (List.mem_append_right _ hq)
  rw [List.map_append, List.map_cons, hfront, hback, revalued, if_pos hkey, List.map_append,
    List.map_append, List.map_cons, List.map_cons]
  exact ((List.perm_middle.cons _).trans (.swap _ _ _)).trans (List.perm_middle.symm.cons _)

/-- `hashtable_set` without a rehash. -/
theorem set_ok (h : Rep hash cmp ht l) (laws : KeyLaws hash cmp) (key : K) (value : V)
    (memory : Bool) {new : Option Nat} (hnew : ∀ a, new = some a → ht.heads a = none) :
    ∃ rc ht' l', setPair hash cmp ht key value new = some (rc, ht') ∧
      After hash cmp ht l (keysGiven (.set key value memory new) (.ok rc : HashtableAnswer K V))
        (valuesGiven (.set key value memory new) (.ok rc)) ht' l' ∧
      MapCall cmp (valueOf hash cmp l) (.set key value memory new) (.ok rc)
        (valueOf hash cmp l') := by
  cases hp : l.find? (isKey hash cmp key) with
  | some p =>
      obtain ⟨pairs, hset, hrep⟩ := Rep.set_found h laws hp value new
      refine ⟨true, _, _, hset, ⟨hrep, rfl, ?_, ?_⟩, .inl ⟨rfl, funext fun k => ?_⟩⟩
      · rw [map_key_revalued]
        exact .refl _
      · exact (List.perm_middle.symm.trans ((revalued_perm h laws hp value).append_left _)).trans
          List.perm_middle
      · exact valueOf_revalued laws h.distinct hp value k
  | none =>
      cases new with
      | none =>
          refine ⟨false, ht, l, Rep.set_none h hp value, .same h, .inr ⟨rfl, rfl, ?_, rfl⟩⟩
          rw [valueOf, hp]
          rfl
      | some a =>
          obtain ⟨heads, buckets, pairs, hset, hrep⟩ :=
            Rep.set_new h hp laws value (hnew a rfl)
          have hperm : (insertToBucket hash (primes.getD ht.numBuckets 0) (key, a, value) l).Perm
              ((key, a, value) :: l) := insertToBucket_perm _ _ l
          refine ⟨true, _, _, hset, ⟨hrep, rfl, ?_, ?_⟩, .inl ⟨rfl, funext fun k => ?_⟩⟩
          · exact ((hperm.map Prod.fst).append_left _).trans List.perm_middle
          · exact ((hperm.map fun p => p.2.2).append_left _).trans List.perm_middle
          · exact valueOf_insert laws hrep.distinct k

theorem hashtableSet_ok (h : Rep hash cmp ht l) (laws : KeyLaws hash cmp) (key : K) (value : V)
    {memory : Bool} {new : Option Nat} (hallowed : CallAllowed ht (.set key value memory new)) :
    ∃ rc ht' l', hashtableSet hash cmp ht key value memory new = some (rc, ht') ∧
      After hash cmp ht l (keysGiven (.set key value memory new) (.ok rc : HashtableAnswer K V))
        (valuesGiven (.set key value memory new) (.ok rc)) ht' l' ∧
      MapCall cmp (valueOf hash cmp l) (.set key value memory new) (.ok rc)
        (valueOf hash cmp l') := by
  obtain ⟨hmemory, hnew⟩ := hallowed
  by_cases hfull : ht.size ≥ primes.getD ht.numBuckets 0
  · obtain ⟨rfl, hprime⟩ := hmemory _ h.bucketCount hfull
    obtain ⟨heads, buckets, hrehash, hrep⟩ := Rep.doRehash h hprime laws
    have hperm : (rehash hash ⟨ht.numBuckets, l⟩).pairs.Perm l := rehash_perm _
    have hnew' : ∀ a, new = some a → heads a = none := by
      intro a ha
      by_contra hsome
      have hmem := hrep.heads a (Option.isSome_iff_ne_none.mpr hsome)
      have hmem' := ((hperm.map node).cons ht.list).mem_iff.mp hmem
      have hused := h.arranged.ring.mem_isSome hmem'
      rw [hnew a ha] at hused
      cases hused
    obtain ⟨rc, ht', l', hset, hafter, hcall⟩ := set_ok hrep laws key value true hnew'
    refine ⟨rc, ht', l', ?_, ⟨hafter.rep, hafter.list, ?_, ?_⟩, ?_⟩
    · simp only [hashtableSet, h.bucketCount, Option.bind_eq_bind, Option.bind_some, if_pos hfull,
        hrehash]
      exact hset
    · exact hafter.keys.trans (((hperm.map Prod.fst).append_left _).append_left _)
    · exact hafter.values.trans (((hperm.map fun p => p.2.2).append_left _).append_left _)
    · have hsame : valueOf hash cmp (rehash hash ⟨ht.numBuckets, l⟩).pairs = valueOf hash cmp l :=
        funext fun k => valueOf_perm laws h.distinct hperm.symm k
      rwa [hsame] at hcall
  · obtain ⟨rc, ht', l', hset, hafter, hcall⟩ := set_ok h laws key value memory hnew
    refine ⟨rc, ht', l', ?_, hafter, hcall⟩
    simp only [hashtableSet, h.bucketCount, Option.bind_eq_bind, Option.bind_some, if_neg hfull]
    exact hset

theorem valueOf_none {key : K} (h : l.find? (isKey hash cmp key) = none) :
    valueOf hash cmp l key = none := by
  rw [valueOf, h]
  rfl

theorem valueOf_some {key : K} {p : K × Nat × V} (h : l.find? (isKey hash cmp key) = some p) :
    valueOf hash cmp l key = some p.2.2 := by
  rw [valueOf, h]
  rfl

/-- A key that is not there stands for no key that is. -/
theorem valueOf_none_of_cmp (laws : KeyLaws hash cmp) {key : K}
    (h : l.find? (isKey hash cmp key) = none) {k : K} (hkey : cmp key k = true) :
    valueOf hash cmp l k = none := by
  refine valueOf_none (List.find?_eq_none.mpr fun p hp hmatch => ?_)
  refine List.find?_eq_none.mp h p hp ((isKey_iff laws).mpr ?_)
  exact laws.trans _ _ _ ((isKey_iff laws).mp hmatch) (laws.symm _ _ hkey)

theorem del_ok (h : Rep hash cmp ht l) (laws : KeyLaws hash cmp) (key : K) :
    ∃ rc ht' l', hashtableDel hash cmp ht key = some (rc, ht') ∧ After hash cmp ht l [] [] ht' l' ∧
      MapCall cmp (valueOf hash cmp l) (.del key) (.ok rc) (valueOf hash cmp l') := by
  cases hp : l.find? (isKey hash cmp key) with
  | none =>
      refine ⟨false, ht, l, Rep.del_none h hp, .same h, ?_, funext fun k => ?_⟩
      · rw [valueOf_none hp]
        rfl
      · split
        · next hkey => exact valueOf_none_of_cmp laws hp hkey
        · rfl
  | some p =>
      obtain ⟨buckets, heads, pairs, hdel, hrep⟩ := Rep.del h laws hp
      have hperm : l.Perm (p :: l.eraseP (isKey hash cmp key)) := by
        obtain ⟨front, back, hl⟩ := List.append_of_mem (List.mem_of_find?_eq_some hp)
        have hdistinct := h.distinct
        rw [hl] at hdistinct ⊢
        rw [eraseP_unique laws hdistinct (List.find?_some hp)]
        exact List.perm_middle
      refine ⟨true, _, _, hdel, ⟨hrep, rfl, ?_, ?_⟩, ?_, funext fun k => ?_⟩
      · exact (List.perm_middle.symm.trans ((hperm.map Prod.fst).symm.append_left _))
      · exact (List.perm_middle.symm.trans ((hperm.map fun p => p.2.2).symm.append_left _))
      · rw [valueOf_some hp]
        rfl
      · rw [valueOf, find?_erase laws h.distinct]
        split <;> rfl

theorem find?_plain (laws : KeyLaws hash cmp) (l : List (K × Nat × V)) (key : K) :
    ((l.map plain).find? fun p => cmp p.1 key).map Prod.snd = valueOf hash cmp l key := by
  rw [List.find?_map, valueOf, Option.map_map]
  refine congrArg _ (congrArg (fun f => List.find? f l) (funext fun p => ?_))
  exact Bool.eq_iff_iff.mpr (isKey_iff laws).symm

/-- A call that is allowed runs to its end. -/
theorem call_ok (h : Rep hash cmp ht l) (laws : KeyLaws hash cmp) {call : HashtableCall K V}
    (hallowed : CallAllowed ht call) :
    ∃ answer ht' l', hashtableCall hash cmp ht call = some (answer, ht') ∧
      After hash cmp ht l (keysGiven call answer) (valuesGiven call answer) ht' l' ∧
      MapCall cmp (valueOf hash cmp l) call answer (valueOf hash cmp l') := by
  cases call with
  | set key value memory new =>
      obtain ⟨rc, ht', l', hset, hafter, hcall⟩ := hashtableSet_ok h laws key value hallowed
      refine ⟨.ok rc, ht', l', ?_, hafter, hcall⟩
      simp only [hashtableCall, hset, Option.bind_eq_bind, Option.bind_some, Option.pure_def]
  | get key =>
      refine ⟨.value (valueOf hash cmp l key), ht, l, ?_, .same h, rfl, rfl⟩
      simp only [hashtableCall, h.get, Option.bind_eq_bind, Option.bind_some, Option.pure_def]
      rfl
  | del key =>
      obtain ⟨rc, ht', l', hdel, hafter, hcall⟩ := del_ok h laws key
      refine ⟨.ok rc, ht', l', ?_, hafter, hcall⟩
      simp only [hashtableCall, hdel, Option.bind_eq_bind, Option.bind_some, Option.pure_def]
  | clear =>
      obtain ⟨buckets, heads, pairs, hclear, hrep⟩ := Rep.clear h
      refine ⟨.ok true, _, [], ?_, ⟨hrep, rfl, ?_, ?_⟩, rfl, rfl⟩
      · simp only [hashtableCall, hclear, Option.bind_eq_bind, Option.bind_some, Option.pure_def]
      · rw [List.map_nil, List.append_nil]
        exact (List.reverse_perm _).append_right _ |>.trans List.perm_append_comm
      · rw [List.map_nil, List.append_nil]
        exact (List.reverse_perm _).append_right _ |>.trans List.perm_append_comm
  | iterate =>
      refine ⟨.pairs (l.map plain), ht, l, ?_, .same h,
        ⟨_, rfl, List.pairwise_map.mpr h.distinct, find?_plain laws l⟩, rfl⟩
      simp only [hashtableCall, Rep.iterate h, Option.bind_eq_bind, Option.bind_some,
        Option.pure_def]
  | iterSet key value =>
      cases hp : l.find? (isKey hash cmp key) with
      | none =>
          refine ⟨.ok false, ht, l, ?_, .same h, ?_, funext fun k => ?_⟩
          · simp only [hashtableCall, h.iterAt, hp, Option.map_none, Option.bind_eq_bind,
              Option.bind_some, Option.pure_def]
          · rw [valueOf_none hp]
            rfl
          · split
            · next hkey => rw [valueOf_none_of_cmp laws hp hkey, valueOf_none hp, Option.map_none]
            · rfl
      | some p =>
          obtain ⟨pairs, hset, hrep⟩ := Rep.iterSet h laws hp value
          refine ⟨.ok true, _, _, ?_, ⟨hrep, rfl, ?_, ?_⟩, ?_, funext fun k => ?_⟩
          · simp only [hashtableCall, h.iterAt, hp, Option.map_some, hset, Option.bind_eq_bind,
              Option.bind_some, Option.pure_def]
          · rw [map_key_revalued]
            exact .refl _
          · exact (List.perm_middle.symm.trans
              ((revalued_perm h laws hp value).append_left _)).trans List.perm_middle
          · rw [valueOf_some hp]
            rfl
          · rw [valueOf_revalued laws h.distinct hp, valueOf_some hp, Option.map_some]

/-! ## Runs -/

theorem init_ok (hash : K → UInt32) (cmp : K → K → Bool) (list : Nat) :
    Rep hash cmp (hashtableInit K V list) [] := by
  have hcount : 0 < primes.length := Nat.succ_pos _
  refine ⟨hcount, ⟨ring_nil ?_ ?_, grouped_nil _, ?_⟩, nofun, fun a ha => ?_, nofun, rfl,
    List.Pairwise.nil⟩
  · simp [nextOf, hashtableInit]
  · simp [prevOf, hashtableInit]
  · exact congrArg some (buckets_nil list)
  · by_contra hmem
    have hne : a ≠ list := fun heq => hmem (heq ▸ List.mem_cons_self)
    simp [hashtableInit, hne] at ha

/-- What the calls have given the table. -/
def allGiven {α : Type} (given : HashtableCall K V → HashtableAnswer K V → List α)
    (calls : List (HashtableCall K V)) (answers : List (HashtableAnswer K V)) : List α :=
  (calls.zip answers).flatMap fun c => given c.1 c.2

theorem calls_ok (laws : KeyLaws hash cmp) {calls : List (HashtableCall K V)} :
    ∀ {ht : Hashtable K V} {l : List (K × Nat × V)}, Rep hash cmp ht l →
      CallsAllowed hash cmp ht calls →
      ∃ answers ht' l', hashtableCalls hash cmp ht calls = some (answers, ht') ∧
        After hash cmp ht l (allGiven keysGiven calls answers) (allGiven valuesGiven calls answers)
          ht' l' ∧
        MapCalls cmp (valueOf hash cmp l) calls answers := by
  induction calls with
  | nil => exact fun h _ => ⟨[], _, _, rfl, .same h, trivial⟩
  | cons call calls ih =>
      intro ht l h hallowed
      obtain ⟨answer, ht₁, l₁, hcall, hafter, hmap⟩ := call_ok h laws hallowed.1
      obtain ⟨answers, ht', l', hcalls, hafter', hmaps⟩ :=
        ih hafter.rep (hallowed.2 answer ht₁ hcall)
      refine ⟨answer :: answers, ht', l', ?_, ⟨hafter'.rep, hafter'.list.trans hafter.list, ?_, ?_⟩,
        _, hmap, hmaps⟩
      · simp only [hashtableCalls, hcall, hcalls, Option.bind_eq_bind, Option.bind_some,
          Option.pure_def]
      · refine (hafter'.keys.trans (hafter.keys.append_left _)).trans ?_
        rw [← List.append_assoc]
        exact List.perm_append_comm.append_right _
      · refine (hafter'.values.trans (hafter.values.append_left _)).trans ?_
        rw [← List.append_assoc]
        exact List.perm_append_comm.append_right _

end

/-- Calls that are allowed run to their end, without a fault, and answer as those of a map
do that starts out empty. -/
theorem hashtable_is_map {hash : K → UInt32} {cmp : K → K → Bool} (laws : KeyLaws hash cmp)
    (list : Nat) {calls : List (HashtableCall K V)}
    (h : CallsAllowed hash cmp (hashtableInit K V list) calls) :
    ∃ answers ht, hashtableCalls hash cmp (hashtableInit K V list) calls = some (answers, ht) ∧
      MapCalls cmp (fun _ => none) calls answers := by
  obtain ⟨answers, ht, l, hcalls, -, hmap⟩ := calls_ok laws (init_ok hash cmp list) h
  exact ⟨answers, ht, hcalls, hmap⟩

/-- A table of remainders modulo 7. -/
def remainderHash (k : Nat) : UInt32 := .ofNat (k % 7)

def remainderEqual (a b : Nat) : Bool := a % 7 = b % 7

theorem remainders_laws : KeyLaws remainderHash remainderEqual := by
  refine ⟨fun k => decide_eq_true rfl, fun a b h => ?_, fun a b c hab hbc => ?_, fun a b h => ?_⟩
  · exact decide_eq_true (of_decide_eq_true h).symm
  · exact decide_eq_true ((of_decide_eq_true hab).trans (of_decide_eq_true hbc))
  · rw [remainderHash, remainderHash, of_decide_eq_true h]

/-- The last of the six new keys is one too many for the first five buckets. -/
def remainderCalls : List (HashtableCall Nat Nat) :=
  [.set 3 30 true (some 201), .set 5 50 true (some 202), .set 8 80 true (some 203),
    .set 6 60 true (some 204), .set 9 90 true (some 205), .set 12 51 true none,
    .set 7 70 true (some 206), .del 10, .get 3, .iterSet 1 81, .iterate]

theorem hashtable_is_map_remainders : ∃ answers ht,
    hashtableCalls remainderHash remainderEqual (hashtableInit Nat Nat 100) remainderCalls =
      some (answers, ht) ∧ MapCalls remainderEqual (fun _ => none) remainderCalls answers :=
  hashtable_is_map remainders_laws 100 (by decide +kernel)

/-- What the table was given it has or has freed. `hashtable_close` then frees what it has,
with the memory of every pair. -/
theorem hashtable_owns {hash : K → UInt32} {cmp : K → K → Bool} (laws : KeyLaws hash cmp)
    (list : Nat) {calls : List (HashtableCall K V)}
    (h : CallsAllowed hash cmp (hashtableInit K V list) calls) :
    ∃ answers ht pairs ht', hashtableCalls hash cmp (hashtableInit K V list) calls =
        some (answers, ht) ∧ iterate ht = some pairs ∧
      (ht.freedKeys ++ pairs.map Prod.fst).Perm (allGiven keysGiven calls answers) ∧
      (ht.freedValues ++ pairs.map Prod.snd).Perm (allGiven valuesGiven calls answers) ∧
      hashtableClose ht = some ht' ∧ ht'.freedKeys.Perm (allGiven keysGiven calls answers) ∧
      ht'.freedValues.Perm (allGiven valuesGiven calls answers) ∧
      (∀ a, a ≠ list → ht'.heads a = none) ∧ ∀ a, ht'.pairs a = none := by
  obtain ⟨answers, ht, l, hcalls, hafter, -⟩ := calls_ok laws (init_ok hash cmp list) h
  obtain ⟨heads, pairs, hclear, hheads, -, hpairs⟩ := hafter.rep.doClear
  have hkeys := hafter.keys
  have hvalues := hafter.values
  rw [List.map_nil, List.append_nil] at hkeys hvalues
  rw [show (hashtableInit K V list).freedKeys = [] from rfl, List.append_nil] at hkeys
  rw [show (hashtableInit K V list).freedValues = [] from rfl, List.append_nil] at hvalues
  refine ⟨answers, ht, l.map plain, { ht with
      buckets := none
      heads := heads
      pairs := pairs
      freedKeys := (l.map Prod.fst).reverse ++ ht.freedKeys
      freedValues := (l.map fun p => p.2.2).reverse ++ ht.freedValues }, hcalls,
    Rep.iterate hafter.rep, ?_, ?_, ?_, ?_, ?_, ?_, hpairs⟩
  · rw [List.map_map]
    exact hkeys
  · rw [List.map_map]
    exact hvalues
  · simp only [hashtableClose, hclear, Option.bind_eq_bind, Option.bind_some, Option.pure_def]
  · exact (((List.reverse_perm _).append_right _).trans List.perm_append_comm).trans hkeys
  · exact (((List.reverse_perm _).append_right _).trans List.perm_append_comm).trans hvalues
  · exact fun a ha => hheads a fun heq => ha (heq.trans hafter.list)

theorem hashtable_owns_remainders : ∃ answers ht pairs ht',
    hashtableCalls remainderHash remainderEqual (hashtableInit Nat Nat 100) remainderCalls =
        some (answers, ht) ∧ iterate ht = some pairs ∧
      (ht.freedKeys ++ pairs.map Prod.fst).Perm (allGiven keysGiven remainderCalls answers) ∧
      (ht.freedValues ++ pairs.map Prod.snd).Perm (allGiven valuesGiven remainderCalls answers) ∧
      hashtableClose ht = some ht' ∧
      ht'.freedKeys.Perm (allGiven keysGiven remainderCalls answers) ∧
      ht'.freedValues.Perm (allGiven valuesGiven remainderCalls answers) ∧
      (∀ a, a ≠ 100 → ht'.heads a = none) ∧ ∀ a, ht'.pairs a = none :=
  hashtable_owns remainders_laws 100 (by decide +kernel)

end AlphaMiner.Jansson
