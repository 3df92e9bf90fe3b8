import AlphaMiner.Proofs.Bech32

/-!
# A typo in a Bech32 address is noticed

Two strings that differ in the data part only, and there in no more than six
characters next to each other, put two words into the check register that differ
in as many symbols. That `bech32_decode` has a generator which does not let such a
difference go is a property of five constants (`telling_generator`); the rest is
that the strings come apart at the same place, so that the same is put into the
register in front of the difference.

One wrong character and two that changed places are such differences. A `1` that
is typed for another character is not, because it moves the separator; nor is a
change of the case of letters, which leaves the values as they are.
-/

namespace AlphaMiner

open Lib Lib.Bech32

/-! ## Lists that differ in a window -/

/-- What lies outside of `n` places from `i` on is the same. -/
def SameOutside {α : Type*} (i n : Nat) (s t : List α) : Prop :=
  ∀ k, k < i ∨ i + n ≤ k → s[k]? = t[k]?

theorem SameOutside.take_drop {α : Type*} {i n : Nat} {s t : List α} (h : SameOutside i n s t) :
    s.take i = t.take i ∧ s.drop (i + n) = t.drop (i + n) := by
  constructor <;> apply List.ext_getElem? <;> intro k
  · rw [List.getElem?_take, List.getElem?_take]
    split
    · next hk => exact h k (.inl hk)
    · rfl
  · rw [List.getElem?_drop, List.getElem?_drop]
    exact h _ (.inr (Nat.le_add_right _ _))

theorem SameOutside.map {α β : Type*} {i n : Nat} {s t : List α} (h : SameOutside i n s t)
    (f : α → β) : SameOutside i n (s.map f) (t.map f) := by
  intro k hk
  rw [List.getElem?_map, List.getElem?_map, h k hk]

/-- The common front is cut off. -/
theorem SameOutside.of_append {α : Type*} {i n : Nat} {front s t : List α}
    (h : SameOutside (front.length + i) n (front ++ s) (front ++ t)) : SameOutside i n s t := by
  intro k hk
  have hat := h (front.length + k) (by omega)
  rwa [List.getElem?_append_right (by omega), List.getElem?_append_right (by omega),
    Nat.add_sub_cancel_left] at hat

/-! ## Errors close together -/

theorem verifyChecksum_window {hrp : Bytes} {vs us : List Value} {i : Nat}
    (hlen : vs.length = us.length) (h : SameOutside i 6 vs us)
    (hvs : verifyChecksum hrp vs = true) (hus : verifyChecksum hrp us = true) : vs = us := by
  have hcut : ∀ l : List Value, l = l.take i ++ (l.drop i).take 6 ++ l.drop (i + 6) := by
    intro l
    rw [← List.drop_drop, List.append_assoc, List.take_append_drop, List.take_append_drop]
  obtain ⟨hfront, hback⟩ := h.take_drop
  rw [verifyChecksum, decide_eq_true_iff, polymod, hcut vs, ← List.append_assoc,
    ← List.append_assoc] at hvs
  rw [verifyChecksum, decide_eq_true_iff, polymod, hcut us, ← hfront, ← hback,
    ← List.append_assoc, ← List.append_assoc] at hus
  have hwindow := feed_window linear_generator telling_generator (by simp [hlen]) (by simp)
    (hvs.trans hus.symm)
  rw [hcut vs, hwindow, hfront, hback, ← hcut us]

/-- How an accepted string comes apart. -/
theorem bech32Decode_parts {s hrp data : Bytes} (h : bech32Decode s = some (hrp, data)) :
    ∃ raw tail vs, s = raw ++ separator :: tail ∧ separatorAt s = raw.length ∧
      tail.map value? = vs.map some ∧ verifyChecksum (lower raw) vs = true := by
  have hmem : separator ∈ s := by
    by_contra hno
    rw [bech32Decode_none hno] at h
    cases h
  obtain ⟨raw, tail, rfl, hsep⟩ := last_separator hmem
  obtain ⟨-, -, vs, hvs, hvalid, -, -⟩ := (bech32Decode_split raw hrp data hsep).mp h
  exact ⟨raw, tail, vs, rfl, separatorAt_eq raw hsep, hvs, hvalid⟩

/-- Two addresses of one case that differ in a window of the data part do not
differ. -/
theorem eq_of_sameOutside {s t hrp hrp' data data' : Bytes} {i : Nat}
    (hs : bech32Decode s = some (hrp, data)) (ht : bech32Decode t = some (hrp', data'))
    (hlen : s.length = t.length) (hcase : ¬MixedCase (s ++ t))
    (hsep : separatorAt s = separatorAt t) (hi : separatorAt s < i) (h : SameOutside i 6 s t) :
    s = t := by
  obtain ⟨raw, tail, vs, rfl, hat, hvs, hvalid⟩ := bech32Decode_parts hs
  obtain ⟨raw', tail', vs', rfl, hat', hvs', hvalid'⟩ := bech32Decode_parts ht
  rw [hat] at hi
  obtain ⟨j, rfl⟩ : ∃ j, i = raw.length + 1 + j := ⟨i - (raw.length + 1), by omega⟩
  have hraw : raw' = raw := by
    have htake := congrArg (List.take raw.length) h.take_drop.1
    have hlen' : raw.length = raw'.length := by rw [← hat, ← hat', hsep]
    rw [List.take_take, List.take_take, Nat.min_eq_left (by omega), List.take_left] at htake
    rw [htake, hlen', List.take_left]
  subst hraw
  have hwindow : SameOutside j 6 tail tail' := by
    refine @SameOutside.of_append _ _ _ (raw' ++ [separator]) _ _ ?_
    simpa [Nat.add_assoc] using h
  have hvalues : SameOutside j 6 vs vs' := by
    have hmap := hwindow.map value?
    rw [hvs, hvs'] at hmap
    intro k hk
    have hat := hmap k hk
    rw [List.getElem?_map, List.getElem?_map] at hat
    exact Option.map_injective (fun _ _ => Option.some.inj) hat
  have hcount : vs.length = vs'.length := by
    have hsplit : tail.length = tail'.length := by simpa using hlen
    rw [← length_values hvs, hsplit, length_values hvs']
  obtain rfl := verifyChecksum_window hcount hvalues hvalid hvalid'
  refine eq_of_lower_eq hcase ?_
  have htail : lower tail = lower tail' := by rw [lower_of_values hvs, lower_of_values hvs']
  simp only [lower] at htail ⊢
  rw [List.map_append, List.map_append, List.map_cons, List.map_cons, htail]

/-! ## One character, and two that changed places -/

/-- What begins behind the separator stays behind it. -/
theorem front_of_separatorAt {s hrp data front rest : Bytes}
    (hs : bech32Decode s = some (hrp, data)) (hcut : s = front ++ rest)
    (hfront : separatorAt s < front.length) :
    ∃ raw inner, front = raw ++ separator :: inner ∧ separatorAt s = raw.length ∧
      separator ∉ inner ++ rest := by
  obtain ⟨raw, tail, vs, rfl, hat, hvs, -⟩ := bech32Decode_parts hs
  rw [hat] at hfront
  obtain h | h := List.append_eq_append_iff.mp hcut
  · obtain ⟨inner, rfl, htail⟩ := h
    cases inner with
    | nil => simp at hfront
    | cons c inner =>
        obtain ⟨rfl, rfl⟩ := List.cons.inj htail
        exact ⟨raw, inner, rfl, hat, separator_not_mem hvs⟩
  · obtain ⟨inner, rfl, -⟩ := h
    rw [List.length_append] at hfront
    omega

theorem separatorAt_of_front {s hrp data front rest rest' : Bytes}
    (hs : bech32Decode s = some (hrp, data)) (hcut : s = front ++ rest)
    (hfront : separatorAt s < front.length) (hrest : separator ∈ rest' → separator ∈ rest) :
    separatorAt (front ++ rest') = separatorAt s := by
  obtain ⟨raw, inner, rfl, hat, hsep⟩ := front_of_separatorAt hs hcut hfront
  rw [hat, List.append_assoc, List.cons_append]
  refine separatorAt_eq raw fun hmem => hsep ?_
  rw [List.mem_append] at hmem ⊢
  exact hmem.imp_right hrest

theorem sameOutside_of_front {α : Type*} (front : List α) {us vs back : List α} {n : Nat}
    (hlen : us.length = vs.length) (hn : us.length ≤ n) :
    SameOutside front.length n (front ++ us ++ back) (front ++ vs ++ back) := by
  intro k hk
  obtain hk | hk := hk
  · rw [List.append_assoc, List.append_assoc, List.getElem?_append_left hk,
      List.getElem?_append_left hk]
  · have hus : (front ++ us).length ≤ k := by
      rw [List.length_append]
      omega
    have hvs : (front ++ vs).length ≤ k := by
      rw [List.length_append]
      omega
    rw [List.getElem?_append_right hus, List.getElem?_append_right hvs, List.length_append,
      List.length_append, hlen]

/-- Of the strings that have the same case and the separator in the same place as
an address, none that differs from it in a window of the data part is accepted. -/
theorem bech32Decode_typo {s hrp data : Bytes} (hs : bech32Decode s = some (hrp, data)) :
    (∀ t hrp' data' i, bech32Decode t = some (hrp', data') → s.length = t.length →
      ¬MixedCase (s ++ t) → separatorAt s = separatorAt t → separatorAt s < i →
      SameOutside i 6 s t → s = t) ∧
    (∀ front a c back, s = front ++ [a] ++ back → separatorAt s < front.length → a ≠ c →
      c ≠ separator → ¬MixedCase (s ++ (front ++ [c] ++ back)) →
      bech32Decode (front ++ [c] ++ back) = none) ∧
    ∀ front a b back, s = front ++ [a, b] ++ back → separatorAt s < front.length → a ≠ b →
      bech32Decode (front ++ [b, a] ++ back) = none := by
  have hwindow : ∀ front us vs back, s = front ++ us ++ back → separatorAt s < front.length →
      us.length = vs.length → us.length ≤ 6 → us ≠ vs →
      (separator ∈ vs → separator ∈ us) → ¬MixedCase (s ++ (front ++ vs ++ back)) →
      bech32Decode (front ++ vs ++ back) = none := by
    intro front us vs back hcut hfront hlen hsix hne hsep hcase
    by_contra hsome
    obtain ⟨out, ht⟩ := Option.ne_none_iff_exists'.mp hsome
    have hplace : separatorAt (front ++ vs ++ back) = separatorAt s := by
      rw [List.append_assoc] at hcut ⊢
      refine separatorAt_of_front hs hcut hfront fun hmem => ?_
      rw [List.mem_append] at hmem ⊢
      exact hmem.imp_left hsep
    have hsame := @sameOutside_of_front _ front us vs back 6 hlen hsix
    rw [← hcut] at hsame
    have heq := eq_of_sameOutside hs ht (by simp [hcut, hlen]) hcase hplace.symm hfront hsame
    rw [hcut, List.append_left_inj, List.append_right_inj] at heq
    exact hne heq
  refine ⟨fun t hrp' data' i ht hlen hcase hsep hi h =>
    eq_of_sameOutside hs ht hlen hcase hsep hi h, ?_, ?_⟩
  · intro front a c back hcut hfront hne hc hcase
    refine hwindow front [a] [c] back hcut hfront rfl (by simp) (by simpa using hne) ?_ hcase
    simp [hc.symm]
  · intro front a b back hcut hfront hne
    refine hwindow front [a, b] [b, a] back hcut hfront rfl (by simp) ?_ ?_ ?_
    · simpa using fun h => absurd h hne
    · simp [or_comm]
    · obtain ⟨hmixed, -⟩ := (bech32Decode_iff s hrp data).mp hs
      have hmem : ∀ x, x ∈ s ++ (front ++ [b, a] ++ back) → x ∈ s := by
        intro x hx
        rw [hcut] at hx ⊢
        simp only [List.mem_append, List.mem_cons] at hx ⊢
        tauto
      intro hmix
      obtain ⟨⟨x, hx, hlower⟩, y, hy, hupper⟩ := hmix
      exact hmixed ⟨⟨x, hmem x hx, hlower⟩, y, hmem y hy, hupper⟩

theorem bech32Decode_typo_sample : bech32Decode (ascii "a1u2el5l") = none ∧
    bech32Decode (ascii "a12uel5k") = none := by
  have hs : bech32Decode (ascii "a12uel5l") = some (ascii "a", []) := by decide
  have hcase : ¬MixedCase (ascii "a12uel5l" ++ (ascii "a12uel5" ++ [107] ++ [])) :=
    fun h => not_hasUpper_lower (ascii "a12uel5la12uel5k") h.2
  have hsample := bech32Decode_typo hs
  constructor
  · exact hsample.2.2 (ascii "a1") 50 117 (ascii "el5l") (by decide) (by decide) (by decide)
  · exact hsample.2.1 (ascii "a12uel5") 108 107 [] (by decide) (by decide) (by decide)
      (by decide) hcase

/-- A `1` typed for an `m` moves the separator, and the longer prefix checks as well. -/
theorem bech32Decode_typo_fails :
    ¬∀ (s hrp data front : Bytes) (a c : UInt8) (back : Bytes),
      bech32Decode s = some (hrp, data) → s = front ++ [a] ++ back →
      separatorAt s < front.length → a ≠ c → bech32Decode (front ++ [c] ++ back) = none := by
  intro hclaim
  have haddress : (bech32Decode (ascii "alpha1qln654qmpw508d6qejxtdg4y5r3zarvar2ygahp")).isSome =
      true := by decide +kernel
  have htypo : (bech32Decode (ascii "alpha1qln654q1pw508d6qejxtdg4y5r3zarvar2ygahp")).isSome =
      true := by decide +kernel
  obtain ⟨⟨hrp, data⟩, hs⟩ := Option.isSome_iff_exists.1 haddress
  have hnone := hclaim _ hrp data (ascii "alpha1qln654q") 109 49
    (ascii "pw508d6qejxtdg4y5r3zarvar2ygahp") hs (by decide) (by decide) (by decide)
  have hcut : ascii "alpha1qln654q" ++ [49] ++ ascii "pw508d6qejxtdg4y5r3zarvar2ygahp" =
      ascii "alpha1qln654q1pw508d6qejxtdg4y5r3zarvar2ygahp" := by decide
  rw [hcut] at hnone
  rw [hnone] at htypo
  cases htypo

end AlphaMiner
