/-!
# A linear search that can be interrupted

`search` walks the candidates `k`, `k + 1`, … and answers where it stopped and
whether it stopped on a hit. It gives up after `len` candidates, or in front of
the first candidate at which `stop` tells it to. Loops that look for the first
element with a property while a flag may call them off are this function, and
`search_spec` is all there is to know about it.
-/

namespace AlphaMiner.Lib

def search (hit stop : Nat → Bool) : Nat → Nat → Nat × Bool
  | 0, k => (k, false)
  | len + 1, k =>
      if stop k then (k, false)
      else if hit k then (k, true)
      else search hit stop len (k + 1)

/-- What an answer of `search` says about the candidates: everything it walked
past was neither a hit nor a place to stop, and it ended for a reason. -/
structure SearchSpec (hit stop : Nat → Bool) (len k : Nat) (r : Nat × Bool) : Prop where
  ge : k ≤ r.1
  le : r.1 ≤ k + len
  miss : ∀ j, k ≤ j → j < r.1 → hit j = false
  run : ∀ j, k ≤ j → j < r.1 → stop j = false
  found : r.2 = true → r.1 < k + len ∧ hit r.1 = true ∧ stop r.1 = false
  ended : r.2 = false → r.1 = k + len ∨ stop r.1 = true

theorem search_spec (hit stop : Nat → Bool) :
    ∀ len k, SearchSpec hit stop len k (search hit stop len k) := by
  intro len
  induction len with
  | zero =>
      intro k
      exact ⟨by simp [search], by simp [search], by simp [search]; omega,
        by simp [search]; omega, by simp [search], by simp [search]⟩
  | succ len ih =>
      intro k
      unfold search
      split
      · next hstop =>
          exact ⟨by simp, by simp, by simp; omega, by simp; omega, by simp,
            fun _ => .inr hstop⟩
      · next hstop =>
          have hstop' : stop k = false := by simpa using hstop
          split
          · next hhit =>
              exact ⟨by simp, by simp, by simp; omega, by simp; omega,
                fun _ => ⟨by simp, hhit, hstop'⟩, by simp⟩
          · next hhit =>
              have hhit' : hit k = false := by simpa using hhit
              obtain ⟨hge, hle, hmiss, hrun, hfound, hended⟩ := ih (k + 1)
              refine ⟨by omega, by omega, ?_, ?_, ?_, ?_⟩
              · intro j hj hlt
                rcases Nat.eq_or_lt_of_le hj with rfl | hj'
                · exact hhit'
                · exact hmiss j hj' hlt
              · intro j hj hlt
                rcases Nat.eq_or_lt_of_le hj with rfl | hj'
                · exact hstop'
                · exact hrun j hj' hlt
              · intro h
                have := hfound h
                exact ⟨by omega, this.2⟩
              · intro h
                rcases hended h with he | hs
                · exact .inl (by omega)
                · exact .inr hs

/-- The answer only depends on the candidates the search can reach. -/
theorem search_congr {hit hit' stop stop' : Nat → Bool} :
    ∀ {len k : Nat}, (∀ j, k ≤ j → j < k + len → hit j = hit' j ∧ stop j = stop' j) →
      search hit stop len k = search hit' stop' len k := by
  intro len
  induction len with
  | zero => intro k _; rfl
  | succ len ih =>
      intro k h
      obtain ⟨hh, hs⟩ := h k (Nat.le_refl k) (by omega)
      rw [search, search, hh, hs, ih fun j hj hlt => h j (by omega) (by omega)]

end AlphaMiner.Lib
