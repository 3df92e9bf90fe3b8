import AlphaMiner.Proofs.Jansson.Load
import AlphaMiner.Proofs.Jansson.Table

/-!
# What is in a value that was read

A text may name a member twice, and an object may not. `json_object_get` gives what
was read for the last member of the name, and the iterator comes past every name once
(`Mirrors`). Both follow from what the table of an object is after each
`json_object_set_new_nocheck` of the loop (`set_spec`), and the rest is an induction
on the value.
-/

namespace AlphaMiner.Jansson

open Lib Lib.JsonText

/-! ## The table of an object -/

theorem object_laws : Table.KeyLaws hashKey keyEqual := by
  refine ⟨fun k => ?_, fun a b h => ?_, fun a b c hab hbc => ?_, fun a b h => ?_⟩
  · exact decide_eq_true rfl
  · exact decide_eq_true (of_decide_eq_true h).symm
  · exact decide_eq_true ((of_decide_eq_true hab).trans (of_decide_eq_true hbc))
  · rw [hashKey, hashKey, of_decide_eq_true h]

/-- An object as `json_object` and the setting of members leave it. -/
inductive Keeps : JsonT → Prop
  | object {serial numBuckets : Nat} {pairs : List (ObjectKey × JsonT)} :
      Table.Distinct keyEqual pairs → Keeps (.object serial numBuckets pairs)

theorem keeps_new : Keeps jsonObject := .object List.Pairwise.nil

theorem set_spec {object : JsonT} (h : Keeps object) (key : Bytes) (value : JsonT) :
    ∃ object', jsonObjectSetNewNocheck object key value = some object' ∧ Keeps object' ∧
      ∀ k, jsonObjectGet object' k = if k = key then some value else jsonObjectGet object k := by
  obtain ⟨hdistinct⟩ := h
  refine ⟨_, rfl, .object (Table.distinct_set object_laws hdistinct _ _), fun k => ?_⟩
  refine (Table.get_set object_laws hdistinct _ _ value).trans ?_
  by_cases hk : k = key
  · rw [if_pos hk]
    exact if_pos (decide_eq_true hk.symm)
  · rw [if_neg hk]
    exact if_neg fun heq => hk (of_decide_eq_true heq).symm

/-- The iterator comes past what `json_object_get` gives, and past no name twice. -/
theorem iter_spec {object : JsonT} (h : Keeps object) :
    ((jsonObjectIter object).map Prod.fst).Nodup ∧
      ∀ k j, (k, j) ∈ jsonObjectIter object ↔ jsonObjectGet object k = some j := by
  obtain ⟨hdistinct⟩ := h
  next pairs =>
  refine ⟨?_, fun k j => ⟨fun hmem => ?_, fun hget => ?_⟩⟩
  · rw [jsonObjectIter, List.map_map, List.Nodup, List.pairwise_map]
    exact hdistinct.imp fun hpq => of_decide_eq_false hpq
  · obtain ⟨p, hp, heq⟩ := List.mem_map.mp hmem
    cases heq
    have hfind := Table.find?_of_mem object_laws hdistinct hp (decide_eq_true rfl)
    refine (congrArg (Option.map Prod.snd) ?_ : _ = Option.map Prod.snd (some p))
    exact hfind
  · obtain ⟨p, hp, rfl⟩ := Option.map_eq_some_iff.mp hget
    have hkey := (Table.isKey_iff object_laws).mp (List.find?_some hp)
    refine List.mem_map.mpr ⟨p, List.mem_of_find?_eq_some hp, ?_⟩
    exact congrArg (fun k => (k, p.2)) (of_decide_eq_true hkey)

/-! ## A value and what it is read as -/

/-- What the last member of a name has. -/
def lastOf (key : Bytes) : List (Bytes × Value) → Option Value
  | [] => none
  | (k, v) :: members => (lastOf key members).or (if k = key then some v else none)

section
variable (long : LongWidth) (strtod : Bytes → Rat × Bool)

/-- The numbers are read one after the other, each with the `errno` it finds. -/
inductive Mirrors : Value → JsonT → Prop
  | literal {w : Literal} {erange erange' : Bool} {tok : Tok} {j : JsonT} :
      wordTok long strtod erange w.1 = some (tok, erange') → jsonOf tok = some j →
      Mirrors (.literal w) j
  | string {s : Bytes} : 0 ∉ s → Mirrors (.string s) (.string s)
  | array {elems : List Value} {js : List JsonT} : elems.length = js.length →
      (∀ (i : Nat) (v : Value) (j : JsonT), elems[i]? = some v → js[i]? = some j →
        Mirrors v j) → Mirrors (.array elems) (.array js)
  | object {members : List (Bytes × Value)} {object : JsonT} :
      ((jsonObjectIter object).map Prod.fst).Nodup →
      (∀ k j, (k, j) ∈ jsonObjectIter object ↔ jsonObjectGet object k = some j) →
      (∀ k, lastOf k members = none → jsonObjectGet object k = none) →
      (∀ k v, lastOf k members = some v → (jsonObjectGet object k).isSome) →
      (∀ k v j, lastOf k members = some v → jsonObjectGet object k = some j → Mirrors v j) →
      Mirrors (.object members) object

variable {long strtod}

mutual

theorem readValue_mirrors {erange erange' : Bool} : ∀ {v : Value} {j : JsonT},
    readValue long strtod erange v = some (j, erange') → Mirrors long strtod v j
  | .literal w, j, h => by
      rw [readValue] at h
      obtain ⟨⟨tok, e⟩, htok, h⟩ := Option.bind_eq_some_iff.mp h
      obtain ⟨j', hj, heq⟩ := Option.map_eq_some_iff.mp h
      cases heq
      exact .literal htok hj
  | .string s, j, h => by
      rw [readValue] at h
      obtain ⟨hzero, heq⟩ := Option.ite_none_left_eq_some.mp h
      cases heq
      exact .string hzero
  | .array elems, j, h => by
      rw [readValue] at h
      obtain ⟨⟨js, e⟩, hread, heq⟩ := Option.map_eq_some_iff.mp h
      cases heq
      obtain ⟨hlength, heach⟩ := readElements_mirrors hread
      exact .array hlength heach
  | .object members, j, h => by
      rw [readValue] at h
      obtain ⟨hkeeps, hnone, hsome⟩ := readMembers_mirrors keeps_new h
      obtain ⟨hnodup, hiter⟩ := iter_spec hkeeps
      refine .object hnodup hiter (fun k hk => (hnone k hk).trans rfl) (fun k v hk => ?_)
        fun k v j' hk hget => ?_
      · obtain ⟨j', hget, -⟩ := hsome k v hk
        rw [hget]
        rfl
      · obtain ⟨j'', hget', hmirrors⟩ := hsome k v hk
        cases hget.symm.trans hget'
        exact hmirrors

theorem readElements_mirrors {erange erange' : Bool} : ∀ {elems : List Value} {js : List JsonT},
    readElements long strtod erange elems = some (js, erange') →
      elems.length = js.length ∧ ∀ (i : Nat) (v : Value) (j : JsonT), elems[i]? = some v →
        js[i]? = some j → Mirrors long strtod v j
  | [], js, h => by
      rw [readElements] at h
      cases h
      exact ⟨rfl, fun i v j hv => by cases hv⟩
  | v :: elems, js, h => by
      rw [readElements] at h
      obtain ⟨⟨j, e⟩, hread, h⟩ := Option.bind_eq_some_iff.mp h
      obtain ⟨⟨js', e'⟩, hreads, heq⟩ := Option.map_eq_some_iff.mp h
      cases heq
      have hmirrors := readValue_mirrors hread
      obtain ⟨hlength, heach⟩ := readElements_mirrors hreads
      refine ⟨congrArg Nat.succ hlength, fun i u k hu hk => ?_⟩
      cases i with
      | zero =>
          cases hu
          cases hk
          exact hmirrors
      | succ i => exact heach i u k hu hk

theorem readMembers_mirrors {erange erange' : Bool} : ∀ {members : List (Bytes × Value)}
    {object object' : JsonT}, Keeps object →
    readMembers long strtod erange object members = some (object', erange') →
      Keeps object' ∧ (∀ k, lastOf k members = none →
        jsonObjectGet object' k = jsonObjectGet object k) ∧
      ∀ k v, lastOf k members = some v →
        ∃ j, jsonObjectGet object' k = some j ∧ Mirrors long strtod v j
  | [], object, object', hobject, h => by
      rw [readMembers] at h
      cases h
      exact ⟨hobject, fun k _ => rfl, fun k v hv => by cases hv⟩
  | (key, v) :: members, object, object', hobject, h => by
      rw [readMembers] at h
      obtain ⟨-, h⟩ := Option.ite_none_left_eq_some.mp h
      obtain ⟨⟨j, e⟩, hread, h⟩ := Option.bind_eq_some_iff.mp h
      obtain ⟨set, hset, hreads⟩ := Option.bind_eq_some_iff.mp h
      have hmirrors := readValue_mirrors hread
      obtain ⟨set', hset', hkeeps, hget⟩ := set_spec hobject key j
      cases hset.symm.trans hset'
      obtain ⟨hkeeps', hnone, hsome⟩ := readMembers_mirrors hkeeps hreads
      refine ⟨hkeeps', fun k hk => ?_, fun k u hk => ?_⟩
      · rw [lastOf] at hk
        obtain ⟨hlast, hkey⟩ := Option.or_eq_none_iff.mp hk
        rw [hnone k hlast, hget, if_neg]
        rintro rfl
        rw [if_pos rfl] at hkey
        cases hkey
      · rw [lastOf] at hk
        cases hlast : lastOf k members with
        | some u' =>
            rw [hlast] at hk
            cases hk
            exact hsome k u hlast
        | none =>
            rw [hlast] at hk
            obtain ⟨hkey, heq⟩ := Option.ite_none_right_eq_some.mp hk
            cases heq
            rw [hnone k hlast, hget, if_pos hkey.symm]
            exact ⟨j, rfl, hmirrors⟩

end

end

/-- What `json_loads` returns mirrors the document: an array has its elements in their
order, an object has for each name what the last member of that name has, and nothing
else, and its iterator comes past each name once. -/
theorem jsonLoads_mirrors {long : LongWidth} {strtod : Bytes → Rat × Bool} {erange : Bool}
    {text : CString} {j : JsonT} (h : (jsonLoads long strtod erange text).1 = some j) :
    ∃ doc junk v, text.1 = doc ++ junk ∧ Dangling junk ∧ Says doc v ∧ Mirrors long strtod v j := by
  obtain ⟨doc, junk, v, e, htext, hjunk, hsays, -, hread⟩ := jsonLoads_sound h
  exact ⟨doc, junk, v, htext, hjunk, hsays, readValue_mirrors hread⟩

theorem jsonLoads_mirrors_twice : ∃ doc junk v,
    ascii "\x7b\"a\":1,\"a\":[]\x7d" = doc ++ junk ∧ Dangling junk ∧ Says doc v ∧
      Mirrors .bits64 (fun _ => (0, false)) v (.object 2 0 [(⟨0, ascii "a"⟩, .array [])]) := by
  have h : (jsonLoads .bits64 (fun _ => (0, false)) false
      ⟨ascii "\x7b\"a\":1,\"a\":[]\x7d", by decide⟩).1 =
      some (.object 2 0 [(⟨0, ascii "a"⟩, .array [])]) :=
    jsonLoads_complete (e := false) (List.append_nil _).symm ⟨not_begins_nil, by decide⟩
      (v := .object [(ascii "a", .literal ⟨ascii "1", by decide⟩), (ascii "a", .array [])])
      ⟨utf8_of_ascii (by decide), by decide⟩ rfl rfl
  exact jsonLoads_mirrors h

end AlphaMiner.Jansson
