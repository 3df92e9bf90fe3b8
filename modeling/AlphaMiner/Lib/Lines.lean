import Mathlib.Data.List.Basic
import Mathlib.Data.List.TakeWhile

/-!
# Records in a stream, ended by a delimiter

A stream of symbols in which one symbol `d` ends a record. `records d xs` is
what a reader that skips empty records makes of `xs`, the part behind the last
delimiter left alone. A prefix is `Whole` when nothing of it lies behind its
last delimiter, which is when a reader may stop: the records of a stream that
begins with a whole prefix are those of the prefix and then those of the rest
(`records_append`).

A reader that goes for one record cuts its input at three places: the
delimiters it skips (`lead`), the record (`word`), and what is left (`tail`),
which is empty or begins with a delimiter. `whole_record` says that nothing
else can be cut off as one record: a whole prefix with the single record `t`
is `t` between delimiters.
-/

namespace AlphaMiner.Lib

variable {α : Type*} {d : α}

def Whole (d : α) (xs : List α) : Prop := xs = [] ∨ ∃ ys, xs = ys ++ [d]

theorem Whole.append {xs ys : List α} (hxs : Whole d xs) (hys : Whole d ys) :
    Whole d (xs ++ ys) := by
  obtain rfl | ⟨zs, rfl⟩ := hys
  · rwa [List.append_nil]
  · exact .inr ⟨xs ++ zs, by rw [List.append_assoc]⟩

/-- What is left of a whole stream when a whole prefix is taken off. -/
theorem Whole.of_append {xs ys : List α} (h : Whole d (xs ++ ys)) : Whole d ys := by
  rcases List.eq_nil_or_concat ys with rfl | ⟨zs, z, rfl⟩
  · exact .inl rfl
  · rw [List.concat_eq_append] at h ⊢
    obtain h | ⟨ws, h⟩ := h
    · simp at h
    · rw [← List.append_assoc] at h
      obtain ⟨-, hz⟩ := List.append_inj' h rfl
      exact .inr ⟨zs, by rw [← hz]⟩

variable [DecidableEq α]

/-- The records of `xs` that are ended and not empty. -/
def records (d : α) (xs : List α) : List (List α) :=
  (xs.splitOn d).dropLast.filter (· ≠ [])

theorem records_append_cons (xs ys : List α) :
    records d (xs ++ d :: ys) = records d (xs ++ [d]) ++ records d ys := by
  have hone : [d].splitOn d = [[], []] := by
    rw [List.splitOn_cons_eq_if_modifyHead, if_pos BEq.rfl, List.splitOn_nil]
  rw [records, records, records, List.splitOn_append_cons_self,
    List.dropLast_append_of_ne_nil (List.splitOn_ne_nil d ys), List.filter_append,
    List.splitOn_append_cons_self, List.splitOn_nil,
    List.dropLast_append_of_ne_nil (List.cons_ne_nil _ _)]
  simp

theorem records_append {xs ys : List α} (hxs : Whole d xs) :
    records d (xs ++ ys) = records d xs ++ records d ys := by
  obtain rfl | ⟨zs, rfl⟩ := hxs
  · simp [records]
  · rw [List.append_assoc, List.singleton_append, records_append_cons]

theorem records_of_not_mem {xs : List α} (h : d ∉ xs) : records d xs = [] := by
  rw [records, List.splitOn_eq_singleton h]
  rfl

theorem records_cons_self (xs : List α) : records d (d :: xs) = records d xs := by
  have h := records_append_cons [] xs (d := d)
  rw [List.nil_append, List.nil_append] at h
  rw [h]
  simp [records, List.splitOn_cons_eq_if_modifyHead]

theorem records_replicate_append (k : Nat) (xs : List α) :
    records d (List.replicate k d ++ xs) = records d xs := by
  induction k with
  | zero => rfl
  | succ k ih => rw [List.replicate_succ, List.cons_append, records_cons_self, ih]

theorem records_word {w : List α} (hw : d ∉ w) (hne : w ≠ []) (xs : List α) :
    records d (w ++ d :: xs) = w :: records d xs := by
  rw [records_append_cons, records, List.splitOn_append_cons_self_of_not_mem hw]
  simp [hne]

/-! ## Cutting off one record -/

def lead (d : α) (xs : List α) : Nat := (xs.takeWhile (· = d)).length

def word (d : α) (xs : List α) : List α := (xs.dropWhile (· = d)).takeWhile (· ≠ d)

def tail (d : α) (xs : List α) : List α := (xs.dropWhile (· = d)).dropWhile (· ≠ d)

theorem lead_word_tail (d : α) (xs : List α) :
    xs = List.replicate (lead d xs) d ++ word d xs ++ tail d xs := by
  have hlead : List.replicate (lead d xs) d = xs.takeWhile (· = d) := by
    refine (List.eq_replicate_of_mem fun x hx => ?_).symm
    simpa using List.mem_takeWhile_imp hx
  rw [hlead, word, tail, List.append_assoc, List.takeWhile_append_dropWhile,
    List.takeWhile_append_dropWhile]

theorem not_mem_word (d : α) (xs : List α) : d ∉ word d xs := by
  intro h
  simpa using List.mem_takeWhile_imp h

theorem tail_eq (d : α) (xs : List α) : tail d xs = [] ∨ ∃ rest, tail d xs = d :: rest := by
  cases h : tail d xs with
  | nil => exact .inl rfl
  | cons c rest =>
      have hc := List.head?_dropWhile_not (fun c => decide (c ≠ d)) (xs.dropWhile (· = d))
      rw [tail] at h
      rw [h] at hc
      exact .inr ⟨rest, by simpa using hc⟩

theorem tail_eq_nil_of_word {xs : List α} (h : word d xs = []) : tail d xs = [] := by
  rw [tail]
  cases hx : xs.dropWhile (· = d) with
  | nil => rfl
  | cons c rest =>
      have hc := List.head?_dropWhile_not (fun c => decide (c = d)) xs
      rw [hx] at hc
      rw [word, hx, List.takeWhile_cons_of_pos (by simpa using hc)] at h
      cases h

/-- The three places are where they look to be. -/
theorem cut_eq {w : List α} (hw : d ∉ w) (hne : w ≠ []) (k : Nat) (rest : List α) :
    lead d (List.replicate k d ++ w ++ d :: rest) = k ∧
      word d (List.replicate k d ++ w ++ d :: rest) = w ∧
      tail d (List.replicate k d ++ w ++ d :: rest) = d :: rest := by
  have hk : ∀ x ∈ List.replicate k d, decide (x = d) = true := by
    intro x hx
    simpa using List.eq_of_mem_replicate hx
  have hpos : ∀ x ∈ w, decide (x ≠ d) = true := by
    intro x hx
    simpa using ne_of_mem_of_not_mem hx hw
  have hstart : (w ++ d :: rest).takeWhile (· = d) = [] ∧
      (w ++ d :: rest).dropWhile (· = d) = w ++ d :: rest := by
    obtain ⟨c, w', rfl⟩ := List.exists_cons_of_ne_nil hne
    have hc : c ≠ d := by simpa using hpos c List.mem_cons_self
    simp [hc]
  rw [List.append_assoc, lead, word, tail, List.takeWhile_append_of_pos hk,
    List.dropWhile_append_of_pos hk, hstart.1, hstart.2, List.takeWhile_append_of_pos hpos,
    List.dropWhile_append_of_pos hpos]
  simp

/-- A whole stream without a record is delimiters only. -/
theorem whole_no_record {xs : List α} (hxs : Whole d xs) (h : records d xs = []) :
    ∃ k, xs = List.replicate k d := by
  refine ⟨lead d xs, ?_⟩
  have hcut := lead_word_tail d xs
  by_cases hw : word d xs = []
  · rwa [hw, tail_eq_nil_of_word hw, List.append_nil, List.append_nil] at hcut
  · rcases tail_eq d xs with ht | ⟨rest, ht⟩
    · -- a record that is not ended would stand at the end of a whole stream
      rw [ht, List.append_nil] at hcut
      rw [hcut] at hxs
      obtain hnil | ⟨ys, hys⟩ := hxs.of_append
      · exact absurd hnil hw
      · exact absurd (hys ▸ List.mem_append_right ys (List.mem_singleton.mpr rfl))
          (not_mem_word d xs)
    · rw [hcut, ht, List.append_assoc, records_replicate_append,
        records_word (not_mem_word d xs) hw] at h
      cases h

theorem whole_record {xs t : List α} (hxs : Whole d xs) (h : records d xs = [t]) :
    ∃ j k, xs = List.replicate j d ++ t ++ d :: List.replicate k d := by
  refine ⟨lead d xs, ?_⟩
  have hcut := lead_word_tail d xs
  by_cases hw : word d xs = []
  · rw [hw, tail_eq_nil_of_word hw, List.append_nil, List.append_nil] at hcut
    rw [hcut, ← List.append_nil (List.replicate _ d), records_replicate_append] at h
    cases h
  · rcases tail_eq d xs with ht | ⟨rest, ht⟩
    · rw [hcut, ht, List.append_nil, records_replicate_append,
        records_of_not_mem (not_mem_word d xs)] at h
      cases h
    · have hrec := h
      rw [hcut, ht, List.append_assoc, records_replicate_append,
        records_word (not_mem_word d xs) hw] at hrec
      obtain ⟨rfl, hrest⟩ := List.cons.inj hrec
      rw [ht, ← List.singleton_append, ← List.append_assoc] at hcut
      rw [hcut] at hxs
      obtain ⟨k, rfl⟩ := whole_no_record hxs.of_append hrest
      exact ⟨k, hcut.trans (by rw [List.append_assoc _ [d], List.singleton_append])⟩

end AlphaMiner.Lib
