import AlphaMiner.Model.Jansson.Value
import Mathlib.Data.List.Perm.Basic

/-!
# The table is a map

What a table holds is a map from keys to values, where keys that compare equal are one
key: `get` after `set` is what it is for a map (`get_set`), and a search behind a removal
is one in the rest (`find?_erase`). Rehashing only permutes the pairs. For that no two
keys of a table may compare equal (`Distinct`), and equal keys need the same hash
(`KeyLaws`).

The pairs of one bucket stand together (`Grouped`), which is what the lookup in
`Hashtable` relies on.
-/

namespace AlphaMiner.Jansson.Table

/-- What is asked of the two functions a table is created with. -/
structure KeyLaws {K : Type} (hash : K → UInt32) (cmp : K → K → Bool) : Prop where
  refl : ∀ k, cmp k k = true
  symm : ∀ a b, cmp a b = true → cmp b a = true
  trans : ∀ a b c, cmp a b = true → cmp b c = true → cmp a c = true
  hash_eq : ∀ a b, cmp a b = true → hash a = hash b

variable {K V : Type} {hash : K → UInt32} {cmp : K → K → Bool}

theorem isKey_iff (laws : KeyLaws hash cmp) {key : K} {p : K × V} :
    isKey hash cmp key p = true ↔ cmp p.1 key = true := by
  rw [isKey, Bool.and_eq_true, decide_eq_true_iff]
  exact and_iff_right_of_imp fun h => laws.hash_eq _ _ h

/-- No two keys are the same. -/
def Distinct (cmp : K → K → Bool) (pairs : List (K × V)) : Prop :=
  pairs.Pairwise fun p q => cmp p.1 q.1 = false

theorem cmp_false_symm (laws : KeyLaws hash cmp) {a b : K} (h : cmp a b = false) :
    cmp b a = false := by
  by_contra hba
  rw [laws.symm b a (by simpa using hba)] at h
  cases h

theorem Distinct.perm (laws : KeyLaws hash cmp) {l l' : List (K × V)} (h : l.Perm l') :
    Distinct cmp l ↔ Distinct cmp l' :=
  h.pairwise_iff fun hab => cmp_false_symm laws hab

/-- The pair of a key is the only one, so it is the one that is found. -/
theorem find?_of_mem (laws : KeyLaws hash cmp) {l : List (K × V)} (hl : Distinct cmp l) {p : K × V}
    (hp : p ∈ l) {key : K} (hkey : cmp p.1 key = true) : l.find? (isKey hash cmp key) = some p := by
  induction l with
  | nil => cases hp
  | cons q l ih =>
      obtain ⟨hq, hl⟩ := List.pairwise_cons.mp hl
      rcases List.mem_cons.mp hp with rfl | hp
      · exact List.find?_cons_of_pos ((isKey_iff laws).mpr hkey)
      · rw [List.find?_cons_of_neg, ih hl hp]
        intro hmatch
        have hother := laws.trans _ _ _ ((isKey_iff laws).mp hmatch) (laws.symm _ _ hkey)
        rw [hq p hp] at hother
        cases hother

theorem find?_perm (laws : KeyLaws hash cmp) {l l' : List (K × V)} (hl : Distinct cmp l)
    (h : l.Perm l') (key : K) :
    l'.find? (isKey hash cmp key) = l.find? (isKey hash cmp key) := by
  cases hfind : l.find? (isKey hash cmp key) with
  | none =>
      rw [List.find?_eq_none] at hfind ⊢
      exact fun p hp => hfind p (h.mem_iff.mpr hp)
  | some p =>
      have hp := List.mem_of_find?_eq_some hfind
      exact find?_of_mem laws ((Distinct.perm laws h).mp hl) (h.mem_iff.mp hp)
        ((isKey_iff laws).mp (List.find?_some hfind))

/-! ## Where a pair is put -/

theorem insertToBucket_perm (buckets : Nat) (pair : K × V) (l : List (K × V)) :
    (insertToBucket hash buckets pair l).Perm (pair :: l) := by
  induction l with
  | nil => exact .refl _
  | cons p l ih =>
      rw [insertToBucket]
      split
      · exact .refl _
      · exact (ih.cons p).trans (.swap pair p l)

theorem foldl_insert_perm (buckets : Nat) (l : List (K × V)) : ∀ front : List (K × V),
    (l.foldl (fun pairs p => insertToBucket hash buckets p pairs) front).Perm (front ++ l) := by
  induction l with
  | nil => intro front; rw [List.foldl_nil, List.append_nil]
  | cons p l ih =>
      intro front
      rw [List.foldl_cons]
      refine (ih _).trans (((insertToBucket_perm buckets p front).append_right l).trans ?_)
      exact List.perm_middle.symm

theorem rehash_perm (t : Table K V) : (rehash hash t).pairs.Perm t.pairs := by
  have h : (rehash hash t).pairs.Perm ([] ++ t.pairs) := foldl_insert_perm _ t.pairs []
  rwa [List.nil_append] at h

/-- The table that a pair is put in. -/
def grown (hash : K → UInt32) (t : Table K V) : Table K V :=
  if t.size ≥ t.buckets then rehash hash t else t

theorem grown_perm (t : Table K V) : (grown hash t).pairs.Perm t.pairs := by
  rw [grown]
  split
  · exact rehash_perm t
  · exact .refl _

theorem set_eq (t : Table K V) (key : K) (value : V) :
    set hash cmp t key value =
      if (grown hash t).pairs.any (isKey hash cmp key) then
        ⟨(grown hash t).numBuckets, (grown hash t).pairs.map fun p =>
          if isKey hash cmp key p then (p.1, value) else p⟩
      else ⟨(grown hash t).numBuckets,
        insertToBucket hash (grown hash t).buckets (key, value) (grown hash t).pairs⟩ := rfl

/-! ## The map -/

theorem find?_replace (laws : KeyLaws hash cmp) (key key' : K) (value : V) (l : List (K × V)) :
    ((l.map fun p => if isKey hash cmp key p then (p.1, value) else p).find?
        (isKey hash cmp key')).map Prod.snd =
      if cmp key key' = true then (l.find? (isKey hash cmp key')).map fun _ => value
      else (l.find? (isKey hash cmp key')).map Prod.snd := by
  induction l with
  | nil => split <;> rfl
  | cons p l ih =>
      have hkey : isKey hash cmp key' (if isKey hash cmp key p then (p.1, value) else p) =
          isKey hash cmp key' p := by
        split <;> rfl
      rw [List.map_cons, List.find?_cons, List.find?_cons, hkey]
      cases hp : isKey hash cmp key' p with
      | false => exact ih
      | true =>
          have hp' := (isKey_iff laws).mp hp
          by_cases hsame : cmp key key' = true
          · have hmatch : isKey hash cmp key p = true :=
              (isKey_iff laws).mpr (laws.trans _ _ _ hp' (laws.symm _ _ hsame))
            simp [hmatch, hsame]
          · have hmatch : ¬isKey hash cmp key p = true := fun h =>
              hsame (laws.trans _ _ _ (laws.symm _ _ ((isKey_iff laws).mp h)) hp')
            simp [hmatch, hsame]

theorem distinct_set (laws : KeyLaws hash cmp) {t : Table K V} (h : Distinct cmp t.pairs) (key : K)
    (value : V) : Distinct cmp (set hash cmp t key value).pairs := by
  have hgrown : Distinct cmp (grown hash t).pairs := (Distinct.perm laws (grown_perm t)).mpr h
  rw [set_eq]
  split
  · refine List.pairwise_map.mpr (hgrown.imp ?_)
    intro p q hpq
    split <;> split <;> exact hpq
  · next hnone =>
      refine (Distinct.perm laws (insertToBucket_perm _ _ _)).mpr ?_
      refine List.pairwise_cons.mpr ⟨fun p hp => ?_, hgrown⟩
      by_contra hsame
      refine hnone (List.any_eq_true.mpr ⟨p, hp, (isKey_iff laws).mpr ?_⟩)
      exact laws.symm _ _ (by simpa using hsame)

theorem get_set (laws : KeyLaws hash cmp) {t : Table K V} (h : Distinct cmp t.pairs) (key key' : K)
    (value : V) : get hash cmp (set hash cmp t key value) key' =
      if cmp key key' = true then some value else get hash cmp t key' := by
  have hgrown : Distinct cmp (grown hash t).pairs := (Distinct.perm laws (grown_perm t)).mpr h
  have hsame : (grown hash t).pairs.find? (isKey hash cmp key') =
      t.pairs.find? (isKey hash cmp key') := find?_perm laws h (grown_perm t).symm key'
  rw [set_eq, get, get]
  by_cases hany : (grown hash t).pairs.any (isKey hash cmp key) = true
  · rw [if_pos hany]
    dsimp only
    rw [find?_replace laws, hsame]
    by_cases hkey : cmp key key' = true
    · obtain ⟨p, hp, hmatch⟩ := List.any_eq_true.mp hany
      have hfind := find?_of_mem laws hgrown hp
        (laws.trans _ _ _ ((isKey_iff laws).mp hmatch) hkey)
      rw [hsame] at hfind
      rw [if_pos hkey, if_pos hkey, hfind, Option.map_some]
    · rw [if_neg hkey, if_neg hkey]
  · rw [if_neg hany]
    dsimp only
    have hnew : Distinct cmp ((key, value) :: (grown hash t).pairs) := by
      have hset := distinct_set laws h key value
      rw [set_eq, if_neg hany] at hset
      exact (Distinct.perm laws (insertToBucket_perm _ _ _)).mp hset
    rw [find?_perm laws hnew (insertToBucket_perm _ _ _).symm, List.find?_cons, hsame]
    by_cases hkey : cmp key key' = true
    · rw [(isKey_iff laws (p := (key, value))).mpr hkey, if_pos hkey]
      rfl
    · have hmatch : isKey hash cmp key' (key, value) = false := by
        rw [← Bool.not_eq_true, isKey_iff laws]
        exact hkey
      rw [hmatch, if_neg hkey]

theorem find?_erase (laws : KeyLaws hash cmp) {l : List (K × V)} (h : Distinct cmp l)
    (key key' : K) : (l.eraseP (isKey hash cmp key)).find? (isKey hash cmp key') =
      if cmp key key' = true then none else l.find? (isKey hash cmp key') := by
  induction l with
  | nil => split <;> rfl
  | cons p l ih =>
      obtain ⟨hp, hl⟩ := List.pairwise_cons.mp h
      by_cases hmatch : isKey hash cmp key p = true
      · have hpkey := (isKey_iff laws).mp hmatch
        rw [List.eraseP_cons_of_pos hmatch]
        by_cases hkey : cmp key key' = true
        · rw [if_pos hkey, List.find?_eq_none]
          intro q hq hq'
          have hother := laws.trans _ _ _ (laws.trans _ _ _ hpkey hkey)
            (laws.symm _ _ ((isKey_iff laws).mp hq'))
          rw [hp q hq] at hother
          cases hother
        · rw [if_neg hkey, List.find?_cons_of_neg]
          intro hp'
          exact hkey (laws.trans _ _ _ (laws.symm _ _ hpkey) ((isKey_iff laws).mp hp'))
      · rw [List.eraseP_cons_of_neg hmatch, List.find?_cons, List.find?_cons, ih hl]
        cases hp' : isKey hash cmp key' p with
        | false => rfl
        | true =>
            have hkey : ¬cmp key key' = true := fun hkey => hmatch ((isKey_iff laws).mpr
              (laws.trans _ _ _ ((isKey_iff laws).mp hp') (laws.symm _ _ hkey)))
            exact (if_neg hkey).symm

/-! ## Buckets -/

/-- The pairs of a bucket stand together. -/
def Grouped (hash : K → UInt32) (buckets : Nat) (l : List (K × V)) : Prop :=
  ∀ i, ∃ front here back, l = front ++ here ++ back ∧ (∀ p ∈ here, index hash buckets p.1 = i) ∧
    ∀ p ∈ front ++ back, index hash buckets p.1 ≠ i

/-- A pair goes in front of its bucket, or to the end. -/
theorem insertToBucket_split {buckets : Nat} {pair : K × V} {front here back : List (K × V)}
    (hhere : ∀ p ∈ here, index hash buckets p.1 = index hash buckets pair.1)
    (hother : ∀ p ∈ front ++ back, index hash buckets p.1 ≠ index hash buckets pair.1) :
    insertToBucket hash buckets pair (front ++ here ++ back) =
      if here = [] then front ++ back ++ [pair] else front ++ pair :: here ++ back := by
  have hend : ∀ l : List (K × V),
      (∀ p ∈ l, index hash buckets p.1 ≠ index hash buckets pair.1) →
      insertToBucket hash buckets pair l = l ++ [pair] := by
    intro l hl
    induction l with
    | nil => rfl
    | cons p l ih =>
        rw [insertToBucket, if_neg (hl p List.mem_cons_self),
          ih fun q hq => hl q (List.mem_cons_of_mem p hq)]
        rfl
  induction front with
  | nil =>
      cases here with
      | nil => exact hend back hother
      | cons p here =>
          rw [if_neg (List.cons_ne_nil p here), List.nil_append, List.cons_append, insertToBucket,
            if_pos (hhere p List.mem_cons_self)]
          rfl
  | cons q front ih =>
      rw [List.cons_append, List.cons_append, insertToBucket,
        if_neg (hother q List.mem_cons_self),
        ih fun p hp => hother p (List.mem_cons_of_mem q hp)]
      split <;> rfl

theorem insertToBucket_append (buckets : Nat) (pair : K × V) (front l : List (K × V)) :
    insertToBucket hash buckets pair (front ++ l) =
      if ∃ p ∈ front, index hash buckets p.1 = index hash buckets pair.1 then
        insertToBucket hash buckets pair front ++ l
      else front ++ insertToBucket hash buckets pair l := by
  induction front with
  | nil => simp
  | cons q front ih =>
      rw [List.cons_append, insertToBucket, insertToBucket]
      by_cases hq : index hash buckets q.1 = index hash buckets pair.1
      · rw [if_pos hq, if_pos hq, if_pos ⟨q, List.mem_cons_self, hq⟩]
        rfl
      · rw [if_neg hq, if_neg hq, ih]
        by_cases hfront : ∃ p ∈ front, index hash buckets p.1 = index hash buckets pair.1
        · obtain ⟨p, hp, hidx⟩ := hfront
          rw [if_pos ⟨p, hp, hidx⟩, if_pos ⟨p, List.mem_cons_of_mem q hp, hidx⟩]
          rfl
        · rw [if_neg hfront, if_neg]
          · rfl
          · rintro ⟨p, hp, hidx⟩
            rcases List.mem_cons.mp hp with rfl | hp
            · exact hq hidx
            · exact hfront ⟨p, hp, hidx⟩

theorem Grouped.insert {buckets : Nat} {l : List (K × V)} (h : Grouped hash buckets l)
    (pair : K × V) : Grouped hash buckets (insertToBucket hash buckets pair l) := by
  intro i
  by_cases hi : i = index hash buckets pair.1
  · subst hi
    obtain ⟨front, here, back, rfl, hhere, hother⟩ := h (index hash buckets pair.1)
    rw [insertToBucket_split hhere hother]
    split
    · refine ⟨front ++ back, [pair], [], by rw [List.append_nil], ?_, ?_⟩
      · exact fun p hp => by rw [List.mem_singleton.mp hp]
      · rw [List.append_nil]
        exact hother
    · refine ⟨front, pair :: here, back, rfl, ?_, hother⟩
      intro p hp
      rcases List.mem_cons.mp hp with rfl | hp
      · rfl
      · exact hhere p hp
  · obtain ⟨front, here, back, rfl, hhere, hother⟩ := h i
    -- the pair goes to one side of the bucket
    have hpair : ∀ side : List (K × V), (∀ p ∈ side, index hash buckets p.1 ≠ i) →
        ∀ p ∈ insertToBucket hash buckets pair side, index hash buckets p.1 ≠ i := by
      intro side hside p hp
      rcases List.mem_cons.mp ((insertToBucket_perm buckets pair side).mem_iff.mp hp) with rfl | hp
      · exact fun h => hi h.symm
      · exact hside p hp
    have hfront : ∀ p ∈ front, index hash buckets p.1 ≠ i := fun p hp =>
      hother p (List.mem_append_left back hp)
    have hback : ∀ p ∈ back, index hash buckets p.1 ≠ i := fun p hp =>
      hother p (List.mem_append_right front hp)
    have hno : ¬∃ p ∈ here, index hash buckets p.1 = index hash buckets pair.1 := by
      rintro ⟨p, hp, hidx⟩
      exact hi ((hhere p hp).symm.trans hidx)
    rw [List.append_assoc, insertToBucket_append]
    split
    · refine ⟨insertToBucket hash buckets pair front, here, back, by rw [List.append_assoc], hhere,
        fun p hp => ?_⟩
      exact (List.mem_append.mp hp).elim (hpair front hfront p) (hback p)
    · rw [insertToBucket_append, if_neg hno]
      refine ⟨front, here, insertToBucket hash buckets pair back, by rw [List.append_assoc], hhere,
        fun p hp => ?_⟩
      exact (List.mem_append.mp hp).elim (hfront p) (hpair back hback p)

theorem grouped_nil (buckets : Nat) : Grouped hash buckets ([] : List (K × V)) :=
  fun _ => ⟨[], [], [], rfl, nofun, nofun⟩

theorem Grouped.map {buckets : Nat} {l : List (K × V)} (h : Grouped hash buckets l)
    {f : K × V → K × V} (hf : ∀ p, (f p).1 = p.1) : Grouped hash buckets (l.map f) := by
  intro i
  obtain ⟨front, here, back, rfl, hhere, hother⟩ := h i
  refine ⟨front.map f, here.map f, back.map f, by rw [List.map_append, List.map_append], ?_, ?_⟩
  · intro p hp
    obtain ⟨q, hq, rfl⟩ := List.mem_map.mp hp
    rw [hf]
    exact hhere q hq
  · intro p hp
    rw [← List.map_append] at hp
    obtain ⟨q, hq, rfl⟩ := List.mem_map.mp hp
    rw [hf]
    exact hother q hq

/-- What is left of a grouped list is grouped. -/
theorem Grouped.eraseP {buckets : Nat} {l : List (K × V)} (h : Grouped hash buckets l)
    (f : K × V → Bool) : Grouped hash buckets (l.eraseP f) := by
  intro i
  obtain ⟨front, here, back, rfl, hhere, hother⟩ := h i
  have hback : ∀ side : List (K × V), (∀ p ∈ side, index hash buckets p.1 ≠ i) →
      ∀ p ∈ side.eraseP f, index hash buckets p.1 ≠ i := fun side hside p hp =>
    hside p (List.mem_of_mem_eraseP hp)
  have hfront := fun p (hp : p ∈ front) => hother p (List.mem_append_left back hp)
  have hback := fun p (hp : p ∈ back) => hother p (List.mem_append_right front hp)
  rw [List.append_assoc, List.eraseP_append, List.eraseP_append]
  split
  · refine ⟨front.eraseP f, here, back, by rw [List.append_assoc], hhere, fun p hp => ?_⟩
    exact (List.mem_append.mp hp).elim (fun hp => hfront p (List.mem_of_mem_eraseP hp)) (hback p)
  · split
    · exact ⟨front, here.eraseP f, back, by rw [List.append_assoc],
        fun p hp => hhere p (List.mem_of_mem_eraseP hp), hother⟩
    · refine ⟨front, here, back.eraseP f, by rw [List.append_assoc], hhere, fun p hp => ?_⟩
      exact (List.mem_append.mp hp).elim (hfront p) fun hp => hback p (List.mem_of_mem_eraseP hp)

end AlphaMiner.Jansson.Table
