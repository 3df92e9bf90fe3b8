import Mathlib.Init

/-!
# Computations that may stop

A function with a `goto out` on every other line is a computation in `EStateM`:
it threads a state, and an error ends it with the state of that moment. A
statement about such a function is about the runs that reach its end, and what
is needed of them is small. `bind_ok` takes a run apart into the runs of its
parts. `Keeps view x` says that a run of `x` that reaches its end leaves `view`
of the state alone, whatever else it writes, and it is closed under everything
a program is built from, so that a late stage of a long function can be skipped
over when a fact about an early one is wanted at the end.

Two more judgments are for statements about the runs that stop and about pairs
of runs. `Preserves P x` says that `x` takes a state with `P` to one with `P`
however it ends, and `Uniform R S x` that two runs of `x` from states related by
`R`, if both reach their end, have the same result and end in states related by
`S`. `Stops E x` names the ways in which `x` can stop, and `StopsWith e x s` says
that the run from `s` does stop, and how. Most of a long function neither reads
nor writes the state at all; such a part is `Stateless`, which is proved once and
gives the others.
-/

namespace AlphaMiner.Lib

variable {ε σ α β γ : Type}

theorem bind_ok {x : EStateM ε σ α} {f : α → EStateM ε σ β} {s s' : σ} {b : β} :
    (x >>= f) s = .ok b s' ↔ ∃ a t, x s = .ok a t ∧ f a t = .ok b s' := by
  rw [show (x >>= f) s = EStateM.bind x f s from rfl, EStateM.bind]
  cases hx : x s with
  | ok a t =>
      constructor
      · intro h
        exact ⟨a, t, rfl, h⟩
      · rintro ⟨a', t', h, hf⟩
        cases h
        exact hf
  | error e t =>
      constructor
      · intro h
        cases h
      · rintro ⟨a', t', h, -⟩
        cases h

theorem bind_of_ok {x : EStateM ε σ α} {f : α → EStateM ε σ β} {s t : σ} {a : α}
    (h : x s = .ok a t) : (x >>= f) s = f a t := by
  rw [show (x >>= f) s = EStateM.bind x f s from rfl, EStateM.bind, h]

theorem pure_ok {a b : α} {s s' : σ} :
    (pure a : EStateM ε σ α) s = .ok b s' ↔ a = b ∧ s = s' := by
  constructor
  · intro h
    cases h
    exact ⟨rfl, rfl⟩
  · rintro ⟨rfl, rfl⟩
    rfl

theorem modify_ok {f : σ → σ} {u : PUnit} {s s' : σ} :
    (modify f : EStateM ε σ PUnit) s = .ok u s' ↔ s' = f s := by
  constructor
  · intro h
    cases h
    rfl
  · rintro rfl
    rfl

theorem throw_bind (e : ε) (f : α → EStateM ε σ β) :
    ((throw e : EStateM ε σ α) >>= f) = throw e := rfl

theorem throw_ok {e : ε} {a : α} {s s' : σ} :
    (throw e : EStateM ε σ α) s ≠ .ok a s' := by
  intro h
  cases h

/-- The state a run ends in, whether it reached its end or not. -/
def finalState (r : EStateM.Result ε σ α) : σ :=
  match r with
  | .ok _ s => s
  | .error _ s => s

def reachedEnd (r : EStateM.Result ε σ α) : Bool :=
  match r with
  | .ok _ _ => true
  | .error _ _ => false

/-- Evaluating a run shows how it ends. -/
theorem ok_of_reachedEnd {r : EStateM.Result ε σ Unit} (h : reachedEnd r = true) :
    r = .ok () (finalState r) := by
  cases r with
  | ok u s => rfl
  | error e s => cases h

/-- What a run stopped with. -/
def stoppedBy (r : EStateM.Result ε σ α) : Option ε :=
  match r with
  | .ok _ _ => none
  | .error e _ => some e

theorem error_of_stoppedBy {r : EStateM.Result ε σ α} {e : ε} (h : stoppedBy r = some e) :
    r = .error e (finalState r) := by
  cases r with
  | ok a s => cases h
  | error e' s =>
      cases h
      rfl

/-- A loop that reaches its end has got through every round. -/
theorem foldlM_ok_mem {f : β → α → EStateM ε σ β} {l : List α} {b c : β} {s s' : σ}
    (h : l.foldlM f b s = .ok c s') : ∀ a ∈ l, ∃ b' t c' t', f b' a t = .ok c' t' := by
  induction l generalizing b s with
  | nil => exact nofun
  | cons a l ih =>
      rw [List.foldlM_cons] at h
      obtain ⟨b', t, ha, h⟩ := bind_ok.mp h
      rintro a' (_ | ⟨_, ha'⟩)
      · exact ⟨b, s, b', t, ha⟩
      · exact ih h a' ha'

/-- A run that reaches its end leaves `view` of the state as it was. -/
def Keeps (view : σ → γ) (x : EStateM ε σ α) : Prop :=
  ∀ s a s', x s = .ok a s' → view s' = view s

section

variable {view : σ → γ}

theorem Keeps.pure (a : α) : Keeps view (pure a : EStateM ε σ α) := by
  intro s b s' h
  rw [(pure_ok.mp h).2]

theorem Keeps.throw (e : ε) : Keeps view (throw e : EStateM ε σ α) := by
  intro s b s' h
  exact absurd h throw_ok

theorem Keeps.get : Keeps view (get : EStateM ε σ σ) := by
  intro s b s' h
  cases h
  rfl

theorem Keeps.modify {f : σ → σ} (hf : ∀ s, view (f s) = view s) :
    Keeps view (modify f : EStateM ε σ PUnit) := by
  intro s u s' h
  rw [modify_ok.mp h, hf]

theorem Keeps.bind {x : EStateM ε σ α} {f : α → EStateM ε σ β} (hx : Keeps view x)
    (hf : ∀ a, Keeps view (f a)) : Keeps view (x >>= f) := by
  intro s b s' h
  obtain ⟨a, t, ht, hb⟩ := bind_ok.mp h
  rw [hf a t b s' hb, hx s a t ht]

theorem Keeps.foldlM {f : β → α → EStateM ε σ β} (hf : ∀ b a, Keeps view (f b a)) :
    ∀ (l : List α) (b : β), Keeps view (l.foldlM f b) := by
  intro l
  induction l with
  | nil => exact fun b => .pure b
  | cons a l ih =>
      intro b
      rw [List.foldlM_cons]
      exact (hf b a).bind fun b' => ih b'

end

/-! ## Runs that stop -/

theorem bind_error {x : EStateM ε σ α} {f : α → EStateM ε σ β} {s s' : σ} {e : ε} :
    (x >>= f) s = .error e s' ↔
      x s = .error e s' ∨ ∃ a t, x s = .ok a t ∧ f a t = .error e s' := by
  rw [show (x >>= f) s = EStateM.bind x f s from rfl, EStateM.bind]
  cases hx : x s with
  | ok a t =>
      constructor
      · intro h
        exact .inr ⟨a, t, rfl, h⟩
      · rintro (h | ⟨a', t', h, hf⟩)
        · cases h
        · cases h
          exact hf
  | error e' t =>
      constructor
      · intro h
        cases h
        exact .inl rfl
      · rintro (h | ⟨a', t', h, -⟩)
        · cases h
          rfl
        · cases h

theorem pure_error {a : α} {s s' : σ} {e : ε} :
    (pure a : EStateM ε σ α) s ≠ .error e s' := by
  intro h
  cases h

theorem throw_error {e e' : ε} {s s' : σ} :
    (throw e : EStateM ε σ α) s = .error e' s' ↔ e = e' ∧ s = s' := by
  constructor
  · intro h
    cases h
    exact ⟨rfl, rfl⟩
  · rintro ⟨rfl, rfl⟩
    rfl

theorem modify_error {f : σ → σ} {s s' : σ} {e : ε} :
    (modify f : EStateM ε σ PUnit) s ≠ .error e s' := by
  intro h
  cases h

/-- A property that survives a run, whichever way the run ends. -/
def Preserves (P : σ → Prop) (x : EStateM ε σ α) : Prop := ∀ s, P s → P (finalState (x s))

section

variable {P : σ → Prop}

theorem Preserves.pure (a : α) : Preserves P (pure a : EStateM ε σ α) := fun _ h => h

theorem Preserves.throw (e : ε) : Preserves P (throw e : EStateM ε σ α) := fun _ h => h

theorem Preserves.get : Preserves P (get : EStateM ε σ σ) := fun _ h => h

theorem Preserves.modify {f : σ → σ} (hf : ∀ s, P s → P (f s)) :
    Preserves P (modify f : EStateM ε σ PUnit) := hf

theorem Preserves.bind {x : EStateM ε σ α} {f : α → EStateM ε σ β} (hx : Preserves P x)
    (hf : ∀ a, Preserves P (f a)) : Preserves P (x >>= f) := by
  intro s hs
  have hxs := hx s hs
  rw [show (x >>= f) s = EStateM.bind x f s from rfl, EStateM.bind]
  cases h : x s with
  | ok a t =>
      rw [h] at hxs
      exact hf a t hxs
  | error e t =>
      rw [h] at hxs
      exact hxs

theorem Preserves.foldlM {f : β → α → EStateM ε σ β} (hf : ∀ b a, Preserves P (f b a)) :
    ∀ (l : List α) (b : β), Preserves P (l.foldlM f b) := by
  intro l
  induction l with
  | nil => exact fun b => .pure b
  | cons a l ih =>
      intro b
      rw [List.foldlM_cons]
      exact (hf b a).bind fun b' => ih b'

end

/-- Every way to stop is one of `E`. -/
def Stops (E : ε → Prop) (x : EStateM ε σ α) : Prop := ∀ s e s', x s = .error e s' → E e

section

variable {E : ε → Prop}

theorem Stops.pure (a : α) : Stops E (pure a : EStateM ε σ α) := by
  intro s e s' h
  exact absurd h pure_error

theorem Stops.throw {e : ε} (he : E e) : Stops E (throw e : EStateM ε σ α) := by
  intro s e' s' h
  exact (throw_error.mp h).1 ▸ he

theorem Stops.get : Stops E (get : EStateM ε σ σ) := by
  intro s e s' h
  cases h

theorem Stops.modify {f : σ → σ} : Stops E (modify f : EStateM ε σ PUnit) := by
  intro s e s' h
  exact absurd h modify_error

/-- The part behind `x` need only be looked at for results that `x` can have. -/
theorem Stops.bind_of {x : EStateM ε σ α} {f : α → EStateM ε σ β} (hx : Stops E x)
    (hf : ∀ s a s', x s = .ok a s' → Stops E (f a)) : Stops E (x >>= f) := by
  intro s e s' h
  rcases bind_error.mp h with h | ⟨a, t, ha, h⟩
  · exact hx s e s' h
  · exact hf s a t ha t e s' h

theorem Stops.bind {x : EStateM ε σ α} {f : α → EStateM ε σ β} (hx : Stops E x)
    (hf : ∀ a, Stops E (f a)) : Stops E (x >>= f) := hx.bind_of fun _ a _ _ => hf a

theorem Stops.foldlM_mem {f : β → α → EStateM ε σ β} :
    ∀ (l : List α), (∀ b, ∀ a ∈ l, Stops E (f b a)) → ∀ b : β, Stops E (l.foldlM f b) := by
  intro l
  induction l with
  | nil => exact fun _ b => .pure b
  | cons a l ih =>
      intro hf b
      rw [List.foldlM_cons]
      exact (hf b a List.mem_cons_self).bind fun b' =>
        ih (fun b a' ha' => hf b a' (List.mem_cons_of_mem a ha')) b'

end

/-! ## Pairs of runs -/

/-- Two runs that reach their end give one result and keep in step. -/
def Uniform (R S : σ → σ → Prop) (x : EStateM ε σ α) : Prop :=
  ∀ s t a b s' t', R s t → x s = .ok a s' → x t = .ok b t' → a = b ∧ S s' t'

section

variable {R S T : σ → σ → Prop}

theorem Uniform.modify {f : σ → σ} (hf : ∀ s t, R s t → S (f s) (f t)) :
    Uniform R S (modify f : EStateM ε σ PUnit) := by
  intro s t a b s' t' h hs ht
  rw [modify_ok.mp hs, modify_ok.mp ht]
  exact ⟨rfl, hf s t h⟩

theorem Uniform.throw (e : ε) : Uniform R S (throw e : EStateM ε σ α) := by
  intro s t a b s' t' _ hs _
  exact absurd hs throw_ok

/-- A part without an answer that keeps all that the relation looks at. -/
theorem Uniform.of_keeps {view : σ → γ} {x : EStateM ε σ Unit} (hx : Keeps view x)
    (hR : ∀ {s s' t t'}, view s' = view s → view t' = view t → R s t → R s' t') :
    Uniform R R x := by
  intro s t a b s' t' h hs ht
  exact ⟨rfl, hR (hx s a s' hs) (hx t b t' ht) h⟩

theorem Uniform.bind {x : EStateM ε σ α} {f : α → EStateM ε σ β} (hx : Uniform R S x)
    (hf : ∀ a, Uniform S T (f a)) : Uniform R T (x >>= f) := by
  intro s t a b s' t' h hs ht
  obtain ⟨c, u, hu, hs⟩ := bind_ok.mp hs
  obtain ⟨d, v, hv, ht⟩ := bind_ok.mp ht
  obtain ⟨rfl, huv⟩ := hx s t c d u v h hu hv
  exact hf c u v a b s' t' huv hs ht

theorem Uniform.foldlM {f : β → α → EStateM ε σ β} (hf : ∀ b a, Uniform R R (f b a)) :
    ∀ (l : List α) (b : β), Uniform R R (l.foldlM f b) := by
  intro l
  induction l with
  | nil =>
      intro b s t c d s' t' h hs ht
      obtain ⟨rfl, rfl⟩ := pure_ok.mp hs
      obtain ⟨rfl, rfl⟩ := pure_ok.mp ht
      exact ⟨rfl, h⟩
  | cons a l ih =>
      intro b
      rw [List.foldlM_cons]
      exact (hf b a).bind fun b' => ih b'

end

/-! ## Parts that do not look at the state -/

/-- One answer, or one way to stop, from every state, and the state as it was. -/
def Stateless (x : EStateM ε σ α) : Prop :=
  (∃ a, ∀ s, x s = .ok a s) ∨ ∃ e, ∀ s, x s = .error e s

theorem Stateless.pure (a : α) : Stateless (pure a : EStateM ε σ α) := .inl ⟨a, fun _ => rfl⟩

theorem Stateless.throw (e : ε) : Stateless (throw e : EStateM ε σ α) :=
  .inr ⟨e, fun _ => rfl⟩

theorem Stateless.bind {x : EStateM ε σ α} {f : α → EStateM ε σ β} (hx : Stateless x)
    (hf : ∀ a, Stateless (f a)) : Stateless (x >>= f) := by
  have hrun : ∀ s, (x >>= f) s = EStateM.bind x f s := fun _ => rfl
  rcases hx with ⟨a, ha⟩ | ⟨e, he⟩
  · refine (hf a).imp (fun ⟨b, hb⟩ => ⟨b, fun s => ?_⟩) fun ⟨e, he⟩ => ⟨e, fun s => ?_⟩
    · rw [hrun, EStateM.bind, ha, ← hb]
    · rw [hrun, EStateM.bind, ha, ← he]
  · exact .inr ⟨e, fun s => by rw [hrun, EStateM.bind, he]⟩

theorem Stateless.foldlM {f : β → α → EStateM ε σ β} (hf : ∀ b a, Stateless (f b a)) :
    ∀ (l : List α) (b : β), Stateless (l.foldlM f b) := by
  intro l
  induction l with
  | nil => exact fun b => .pure b
  | cons a l ih =>
      intro b
      rw [List.foldlM_cons]
      exact (hf b a).bind fun b' => ih b'

theorem Stateless.ok_state {x : EStateM ε σ α} (h : Stateless x) {s s' : σ} {a : α}
    (hs : x s = .ok a s') : s' = s ∧ ∀ t, x t = .ok a t := by
  rcases h with ⟨b, hb⟩ | ⟨e, he⟩
  · rw [hb] at hs
    cases hs
    exact ⟨rfl, hb⟩
  · rw [he] at hs
    cases hs

theorem Stateless.preserves {x : EStateM ε σ α} (h : Stateless x) (P : σ → Prop) :
    Preserves P x := by
  intro s hs
  rcases h with ⟨a, ha⟩ | ⟨e, he⟩
  · rw [ha]
    exact hs
  · rw [he]
    exact hs

theorem Stateless.keeps {x : EStateM ε σ α} (h : Stateless x) (view : σ → γ) : Keeps view x := by
  intro s a s' hs
  rw [(h.ok_state hs).1]

theorem Stateless.uniform {x : EStateM ε σ α} (h : Stateless x) (R : σ → σ → Prop) :
    Uniform R R x := by
  intro s t a b s' t' hR hs ht
  obtain ⟨rfl, hall⟩ := h.ok_state hs
  obtain ⟨rfl, -⟩ := h.ok_state ht
  rw [hall] at ht
  cases ht
  exact ⟨rfl, hR⟩

/-! ## Parts that only look

The same for a part whose answer depends on a view of the state. -/

def Reads (view : σ → γ) (x : EStateM ε σ α) : Prop :=
  ∀ s t, view s = view t →
    (∃ a, x s = .ok a s ∧ x t = .ok a t) ∨ ∃ e, x s = .error e s ∧ x t = .error e t

section

variable {view : σ → γ}

theorem Stateless.reads {x : EStateM ε σ α} (h : Stateless x) : Reads view x := by
  intro s t _
  exact h.imp (fun ⟨a, ha⟩ => ⟨a, ha s, ha t⟩) fun ⟨e, he⟩ => ⟨e, he s, he t⟩

theorem Reads.bind {x : EStateM ε σ α} {f : α → EStateM ε σ β} (hx : Reads view x)
    (hf : ∀ a, Reads view (f a)) : Reads view (x >>= f) := by
  intro s t hview
  rcases hx s t hview with ⟨a, hs, ht⟩ | ⟨e, hs, ht⟩
  · rw [bind_of_ok hs, bind_of_ok ht]
    exact hf a s t hview
  · exact .inr ⟨e, bind_error.mpr (.inl hs), bind_error.mpr (.inl ht)⟩

/-- Getting the state, for a part that makes use of no more than the view. -/
theorem Reads.get_bind {f : σ → EStateM ε σ β} (hview : ∀ s t, view s = view t → f s = f t)
    (hf : ∀ s, Reads view (f s)) : Reads view (get >>= f) := by
  intro s t h
  rw [show (get >>= f) s = f s s from rfl, show (get >>= f) t = f t t from rfl, ← hview s t h]
  exact hf s s t h

theorem Reads.preserves {x : EStateM ε σ α} (h : Reads view x) (P : σ → Prop) :
    Preserves P x := by
  intro s hs
  rcases h s s rfl with ⟨a, ha, -⟩ | ⟨e, he, -⟩
  · rw [ha]
    exact hs
  · rw [he]
    exact hs

theorem Reads.uniform {x : EStateM ε σ α} (h : Reads view x) {R : σ → σ → Prop}
    (hview : ∀ s t, R s t → view s = view t) : Uniform R R x := by
  intro s t a b s' t' hR hs ht
  rcases h s t (hview s t hR) with ⟨c, hs', ht'⟩ | ⟨e, he, -⟩
  · rw [hs'] at hs
    rw [ht'] at ht
    cases hs
    cases ht
    exact ⟨rfl, hR⟩
  · rw [he] at hs
    cases hs

end

/-- The run stops with `e`. Where `Stops` bounds what can go wrong, this is for
the inputs on which it does. -/
def StopsWith (e : ε) (x : EStateM ε σ α) (s : σ) : Prop := ∃ s', x s = .error e s'

section

variable {e : ε} {s : σ}

theorem stopsWith_pure {a : α} : ¬StopsWith e (pure a : EStateM ε σ α) s :=
  fun ⟨_, h⟩ => pure_error h

theorem stopsWith_modify {f : σ → σ} : ¬StopsWith e (modify f : EStateM ε σ PUnit) s :=
  fun ⟨_, h⟩ => modify_error h

theorem stopsWith_throw {e' : ε} : StopsWith e (throw e' : EStateM ε σ α) s ↔ e' = e := by
  constructor
  · rintro ⟨s', h⟩
    exact (throw_error.mp h).1
  · rintro rfl
    exact ⟨s, rfl⟩

theorem stopsWith_bind {x : EStateM ε σ α} {f : α → EStateM ε σ β} :
    StopsWith e (x >>= f) s ↔
      StopsWith e x s ∨ ∃ a t, x s = .ok a t ∧ StopsWith e (f a) t := by
  constructor
  · rintro ⟨s', h⟩
    rcases bind_error.mp h with h | ⟨a, t, ha, h⟩
    · exact .inl ⟨s', h⟩
    · exact .inr ⟨a, t, ha, s', h⟩
  · rintro (⟨s', h⟩ | ⟨a, t, ha, s', h⟩)
    · exact ⟨s', bind_error.mpr (.inl h)⟩
    · exact ⟨s', bind_error.mpr (.inr ⟨a, t, ha, h⟩)⟩

theorem Stops.excludes {E : ε → Prop} {x : EStateM ε σ α} (h : Stops E x) (he : ¬E e) :
    ¬StopsWith e x s := fun ⟨s', hrun⟩ => he (h s e s' hrun)

/-- What can only stop with `e`, and does not, reaches its end. -/
theorem Stops.reaches {x : EStateM ε σ α} (h : Stops (· = e) x) (hnot : ¬StopsWith e x s) :
    ∃ a t, x s = .ok a t := by
  cases hrun : x s with
  | ok a t => exact ⟨a, t, rfl⟩
  | error e' t =>
      obtain rfl := h s e' t hrun
      exact absurd ⟨t, hrun⟩ hnot

/-- A part that can only stop with `e` is in front of one that stops with `e` or ends well. -/
theorem Stops.or_bind {P : σ → Prop} {x : EStateM ε σ α} {f : α → EStateM ε σ β}
    (hx : Stops (· = e) x)
    (hf : ∀ a t, x s = .ok a t → StopsWith e (f a) t ∨ P (finalState (f a t))) :
    StopsWith e (x >>= f) s ∨ P (finalState ((x >>= f) s)) := by
  cases hrun : x s with
  | ok a t =>
      rw [StopsWith, bind_of_ok hrun]
      exact hf a t hrun
  | error e' t =>
      obtain rfl := hx s e' t hrun
      exact .inl ⟨t, bind_error.mpr (.inl hrun)⟩

end

end AlphaMiner.Lib
