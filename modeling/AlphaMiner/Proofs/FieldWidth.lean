import AlphaMiner.Proofs.GbtHeader
import AlphaMiner.Proofs.JobLayout

/-!
# Fields of a fixed width

`jobj_binary` reads a field of a reply into a buffer of the field's size, and
leaves it to `hex2bin` whether the string fits. `hex2bin` turns a string away
that has an odd number of characters, one that is too long, and one that has a
character other than a digit. A string that is too short it decodes, into the
front of a buffer it has cleared, and the caller is told that the field is there.

So what is accepted is a full field or a short one (`hexFits_iff`), and a field
has its full width just where it is not short. The two fillers of the record
inherit that: a target that lacks its last digits is taken with zeros in their
place.
-/

namespace AlphaMiner

open Lib

/-! ## Full and short -/

/-- Exactly two digits for each of `n` bytes. -/
def FullHex (n : Nat) (hexstr : Option Bytes) : Prop :=
  ∃ s, hexstr = some s ∧ s.length = 2 * n ∧ ∀ c ∈ s, (hexNibble c).isSome = true

/-- Two digits a byte, for fewer than `n` bytes. -/
def ShortHex (n : Nat) (hexstr : Option Bytes) : Prop :=
  ∃ s, hexstr = some s ∧ s.length % 2 = 0 ∧ s.length < 2 * n ∧
    ∀ c ∈ s, (hexNibble c).isSome = true

/-- What a string has to be like to stand for bytes. -/
theorem unhex_isSome_iff : ∀ {s : Bytes},
    (∃ p, unhex s = some p) ↔ s.length % 2 = 0 ∧ ∀ c ∈ s, (hexNibble c).isSome = true
  | [] => ⟨fun _ => ⟨rfl, List.forall_mem_nil _⟩, fun _ => ⟨[], rfl⟩⟩
  | [c] => by
      constructor
      · intro h
        obtain ⟨p, hp⟩ := h
        cases hp
      · intro h
        cases h.1
  | a :: b :: rest => by
      have ih := @unhex_isSome_iff rest
      constructor
      · intro h
        obtain ⟨p, hp⟩ := h
        obtain ⟨x, y, q, hx, hy, hq, -⟩ := unhex_cons_cons hp
        obtain ⟨heven, hdigits⟩ := ih.1 ⟨q, hq⟩
        refine ⟨?_, fun c hc => ?_⟩
        · simp only [List.length_cons]
          omega
        · rcases List.mem_cons.1 hc with rfl | hc
          · rw [hx]
            rfl
          · rcases List.mem_cons.1 hc with rfl | hc
            · rw [hy]
              rfl
            · exact hdigits c hc
      · intro h
        obtain ⟨heven, hdigits⟩ := h
        simp only [List.length_cons] at heven
        obtain ⟨q, hq⟩ := ih.2 ⟨by omega, fun c hc =>
          hdigits c (List.mem_cons_of_mem _ (List.mem_cons_of_mem _ hc))⟩
        obtain ⟨x, hx⟩ := Option.isSome_iff_exists.1 (hdigits a List.mem_cons_self)
        obtain ⟨y, hy⟩ := Option.isSome_iff_exists.1
          (hdigits b (List.mem_cons_of_mem _ List.mem_cons_self))
        exact ⟨(x <<< 4 ||| y) :: q, by rw [unhex, hx, hy, hq]⟩

theorem not_shortHex_of_fullHex {n : Nat} {hexstr : Option Bytes} (h : FullHex n hexstr) :
    ¬ShortHex n hexstr := by
  intro hshort
  obtain ⟨s, rfl, hlen, -⟩ := h
  obtain ⟨s', hs', -, hlt, -⟩ := hshort
  cases hs'
  omega

/-- A field is accepted if it is full, and if it is short. -/
theorem hexFits_iff {n : Nat} {hexstr : Option Bytes} :
    hexFits hexstr n = true ↔ FullHex n hexstr ∨ ShortHex n hexstr := by
  constructor
  · intro h
    cases hexstr with
    | none => cases h
    | some s =>
        obtain ⟨p, hp, hfit⟩ := unhex_of_hex2bin h
        obtain ⟨heven, hdigits⟩ := unhex_isSome_iff.1 ⟨p, hp⟩
        have hlen := length_of_unhex hp
        rcases Nat.lt_or_eq_of_le hfit with hlt | rfl
        · exact .inr ⟨s, rfl, heven, by omega, hdigits⟩
        · exact .inl ⟨s, rfl, hlen, hdigits⟩
  · have hfits : ∀ s : Bytes, s.length % 2 = 0 → s.length ≤ 2 * n →
        (∀ c ∈ s, (hexNibble c).isSome = true) → hexFits (some s) n = true := by
      intro s heven hle hdigits
      obtain ⟨p, hp⟩ := unhex_isSome_iff.2 ⟨heven, hdigits⟩
      have hlen := length_of_unhex hp
      rw [hexFits, hex2bin_front hp (by omega)]
    intro h
    rcases h with h | h
    · obtain ⟨s, rfl, hlen, hdigits⟩ := h
      exact hfits s (by omega) (Nat.le_of_eq hlen) hdigits
    · obtain ⟨s, rfl, heven, hlt, hdigits⟩ := h
      exact hfits s heven (Nat.le_of_lt hlt) hdigits

theorem fullHex_iff_of_fits {n : Nat} {hexstr : Option Bytes} (h : hexFits hexstr n = true) :
    FullHex n hexstr ↔ ¬ShortHex n hexstr :=
  ⟨not_shortHex_of_fullHex, fun hnot => (hexFits_iff.1 h).resolve_right hnot⟩

/-! ## The reader of a field -/

/-- The field is accepted just at its full width, and the buffer then holds the bytes
that it stands for. -/
def FullWidthOnly (obj : Option Json) (key : String) (buf : Bytes) (n : Nat) : Prop :=
  ((jobjBinary obj key buf n).1 = true ↔
    FullHex n (jsonStringValue (jsonObjectGet obj key))) ∧
  ∀ s, jsonStringValue (jsonObjectGet obj key) = some s →
    (jobjBinary obj key buf n).1 = true → unhex s = some (jobjBinary obj key buf n).2

theorem jobjBinary_full {obj : Option Json} {key : String} {buf s p : Bytes}
    (hvalue : jsonStringValue (jsonObjectGet obj key) = some s) (hs : unhex s = some p)
    (hbuf : buf.length = p.length) : jobjBinary obj key buf p.length = (true, p) := by
  rw [jobjBinary]
  cases hget : jsonObjectGet obj key with
  | none =>
      rw [hget] at hvalue
      cases hvalue
  | some j =>
      rw [hget] at hvalue
      simp only [hvalue]
      rw [hex2bin_unhex hs hbuf (Nat.le_refl _), Nat.sub_self, List.replicate_zero,
        List.append_nil]

theorem fullWidthOnly_iff {obj : Option Json} {key : String} {buf : Bytes} {n : Nat}
    (hbuf : buf.length = n) :
    FullWidthOnly obj key buf n ↔ ¬ShortHex n (jsonStringValue (jsonObjectGet obj key)) := by
  rw [FullWidthOnly, jobjBinary_fst]
  constructor
  · intro h hshort
    exact not_shortHex_of_fullHex (h.1.1 (hexFits_iff.2 (.inr hshort))) hshort
  · intro hnot
    refine ⟨⟨fun h => (hexFits_iff.1 h).resolve_right hnot, fun h => hexFits_iff.2 (.inl h)⟩, ?_⟩
    intro s hs hfits
    obtain ⟨s', hs', hlen, hdigits⟩ := (hexFits_iff.1 hfits).resolve_right hnot
    cases hs.symm.trans hs'
    obtain ⟨p, hp⟩ := unhex_isSome_iff.2 ⟨by omega, hdigits⟩
    have hplen := length_of_unhex hp
    obtain rfl : n = p.length := by omega
    rw [jobjBinary_full hs hp hbuf, hp]

/-! ## The fillers of the record -/

/-- The fields of a template with their widths. -/
def templateFields : List (String × Nat) := [("previousblockhash", 32), ("bits", 4), ("target", 32)]

/-- The fields of a `getwork` reply with theirs. -/
def getworkFields : List (String × Nat) := [("data", 128), ("target", 32)]

theorem templateFields_fit {sha256d : Bytes → Hash} {cfg : GbtConfig} {val : Option Json}
    {s s' : GbtState} (h : gbtWorkDecode sha256d cfg val s = .ok () s') :
    ∀ field ∈ templateFields,
      hexFits (jsonStringValue (jsonObjectGet val field.1)) field.2 = true := by
  rw [gbtWorkDecode] at h
  obtain ⟨f, _, hfields, h⟩ := bind_ok.1 h
  obtain ⟨_, _, -, h⟩ := bind_ok.1 h
  obtain ⟨_, _, -, h⟩ := bind_ok.1 h
  obtain ⟨_, _, -, h⟩ := bind_ok.1 h
  obtain ⟨_, _, htarget, -⟩ := bind_ok.1 h
  obtain ⟨haccepted, -⟩ := Gbt.fields_accepted hfields
  rw [Gbt.readTarget] at htarget
  obtain ⟨_, _, hbinary, -⟩ := bind_ok.1 htarget
  intro field hfield
  rcases List.mem_cons.1 hfield with rfl | hfield
  · exact haccepted.prevhash
  · rcases List.mem_cons.1 hfield with rfl | hfield
    · exact haccepted.bits
    · obtain rfl := List.mem_singleton.1 hfield
      exact Gbt.binaryField_ok hbinary

theorem getworkFields_fit {host : ByteOrder} {val : Option Json} {work : Work}
    (h : (workDecode host val work).1 = true) :
    ∀ field ∈ getworkFields,
      hexFits (jsonStringValue (jsonObjectGet val field.1)) field.2 = true := by
  have hfst : ∀ {key : String} {buf out : Bytes} {n : Nat},
      jobjBinary val key buf n = (true, out) →
        hexFits (jsonStringValue (jsonObjectGet val key)) n = true := by
    intro key buf out n hread
    rw [← jobjBinary_fst val key buf, hread]
  rw [workDecode] at h
  rcases hdata : jobjBinary val "data" (host.bytes work.data) 128 with ⟨_ | _, data⟩
  · rw [hdata] at h
    cases h
  · rw [hdata] at h
    simp only [Bool.not_true, Bool.false_eq_true, if_false] at h
    rcases htarget : jobjBinary val "target" (host.bytes work.target) 32 with ⟨_ | _, target⟩
    · rw [htarget] at h
      cases h
    · intro field hfield
      rcases List.mem_cons.1 hfield with rfl | hfield
      · exact hfst hdata
      · obtain rfl := List.mem_singleton.1 hfield
        exact hfst htarget

/-- A field has its full width just where it is not short: what the reader accepts,
and what is in a template or a `getwork` reply that has been accepted. -/
theorem full_width_iff (sha256d : Bytes → Hash) (cfg : GbtConfig) (host : ByteOrder) :
    (∀ (obj : Option Json) (key : String) (buf : Bytes) (n : Nat), buf.length = n →
      (FullWidthOnly obj key buf n ↔ ¬ShortHex n (jsonStringValue (jsonObjectGet obj key)))) ∧
    (∀ (val : Option Json) (s s' : GbtState), gbtWorkDecode sha256d cfg val s = .ok () s' →
      ∀ field ∈ templateFields,
        (FullHex field.2 (jsonStringValue (jsonObjectGet val field.1)) ↔
          ¬ShortHex field.2 (jsonStringValue (jsonObjectGet val field.1)))) ∧
    ∀ (val : Option Json) (work : Work), (workDecode host val work).1 = true →
      ∀ field ∈ getworkFields,
        (FullHex field.2 (jsonStringValue (jsonObjectGet val field.1)) ↔
          ¬ShortHex field.2 (jsonStringValue (jsonObjectGet val field.1))) :=
  ⟨fun _ _ _ _ hbuf => fullWidthOnly_iff hbuf,
    fun _ _ _ h field hfield => fullHex_iff_of_fits (templateFields_fit h field hfield),
    fun _ _ h field hfield => fullHex_iff_of_fits (getworkFields_fit h field hfield)⟩

/-- The sample template. -/
theorem full_width_iff_sample :
    (FullWidthOnly (some sampleTemplate) "bits" [0, 0, 0, 0] 4 ↔
      ¬ShortHex 4 (jsonStringValue (jsonObjectGet (some sampleTemplate) "bits"))) ∧
    (FullHex 32 (jsonStringValue (jsonObjectGet (some sampleTemplate) "target")) ↔
      ¬ShortHex 32 (jsonStringValue (jsonObjectGet (some sampleTemplate) "target"))) :=
  ⟨(full_width_iff sampleHash sampleConfig .little).1 _ _ _ _ rfl,
    (full_width_iff sampleHash sampleConfig .little).2.1 _ _ _ sampleFilled_ok ("target", 32)
      (by decide)⟩

/-- The sample with half a target. -/
def shortTemplate : Json := .object
  [("height", .integer 100), ("version", .integer 1),
    ("previousblockhash", .string (List.replicate 64 49)),
    ("rx_epoch_duration", .integer 604800), ("curtime", .integer 1708560000),
    ("bits", .string (List.replicate 8 49)), ("transactions", .array []),
    ("coinbasetxn", .object [("data", .string (List.replicate 120 49))]),
    ("target", .string (List.replicate 32 102))]

/-- Two digits for a field of four bytes, and a template that is accepted with half a
target. -/
theorem full_width_fails :
    ¬FullWidthOnly (some (.object [("bits", .string [49, 49])])) "bits" [0, 0, 0, 0] 4 ∧
    ∃ s', gbtWorkDecode sampleHash sampleConfig (some shortTemplate) sampleStart = .ok () s' ∧
      ¬FullHex 32 (jsonStringValue (jsonObjectGet (some shortTemplate) "target")) := by
  constructor
  · intro h
    obtain ⟨s, hs, hlen, -⟩ := h.1.1 (by decide)
    cases hs
    cases hlen
  · refine ⟨_, ok_of_reachedEnd (by decide +kernel), ?_⟩
    intro h
    obtain ⟨s, hs, hlen, -⟩ := h
    cases hs
    cases hlen

end AlphaMiner
