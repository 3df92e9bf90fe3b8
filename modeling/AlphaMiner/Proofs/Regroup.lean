import AlphaMiner.Lib.Radix
import AlphaMiner.Model.Address

/-!
# Groups of bits dealt out anew

`convert_bits` is the same for every two widths of up to eight bits. It shifts what
it reads into `val` and never clears what it has written, so on a long input the
upper bits of `val` are old ones and fall off at the top. All that is ever looked at
are the low `bits` of it: what is written, followed by these, spells the number that
is read (`Regroup`). A round keeps that (`Regroup.read`, `Regroup.take`), and with it
the whole run.

With padding the bits that are left are moved up into one group more. Without, they
have to be zeros and fewer than a group of the input.
-/

namespace AlphaMiner

open Lib

/-- The number that bytes spell with `k` bits each. -/
def groupsNumber (k : Nat) (p : Bytes) : Nat := ofNumeral (2 ^ k) (p.map UInt8.toNat)

theorem groupsNumber_concat (k : Nat) (p : Bytes) (b : UInt8) :
    groupsNumber k (p ++ [b]) = groupsNumber k p * 2 ^ k + b.toNat := by
  rw [groupsNumber, List.map_append]
  exact ofNumeral_concat _ _ _

theorem groupsNumber_cons (k : Nat) (b : UInt8) (p : Bytes) :
    groupsNumber k (b :: p) = b.toNat * 2 ^ (k * p.length) + groupsNumber k p := by
  rw [groupsNumber, List.map_cons, ofNumeral_cons, List.length_map, ← Nat.pow_mul, groupsNumber]

theorem groupsNumber_inj {k : Nat} (hk : 0 < k) {p q : Bytes} (hp : ∀ d ∈ p, d.toNat < 2 ^ k)
    (hq : ∀ d ∈ q, d.toNat < 2 ^ k) (hlen : p.length = q.length)
    (h : groupsNumber k p = groupsNumber k q) : p = q := by
  have hmap := ofNumeral_inj (Nat.one_lt_two_pow (Nat.ne_of_gt hk)) (by simpa using hlen)
    (by simpa using hp) (by simpa using hq) h
  exact List.map_injective_iff.mpr (fun _ _ => UInt8.toNat_inj.mp) hmap

/-- The locals of `convert_bits` once it has read so many bits, which spell `n`. -/
structure Regroup (outbits read n : Nat) (val : UInt32) (bits : Nat) (out : Bytes) : Prop where
  count : outbits * out.length + bits = read
  small : ∀ d ∈ out, d.toNat < 2 ^ outbits
  number : n = groupsNumber outbits out * 2 ^ bits + val.toNat % 2 ^ bits

theorem Regroup.start (outbits : Nat) : Regroup outbits 0 0 0 0 [] :=
  ⟨rfl, by simp, rfl⟩

theorem toNat_ofNat_mod {k : Nat} (hk : k < 32) : (UInt32.ofNat k).toNat % 32 = k := by
  rw [UInt32.toNat_ofNat']
  omega

section Widths

variable {inbits outbits : Nat} (hin : inbits ≤ 8) (hpos : 0 < outbits) (hout : outbits ≤ 8)

include hout in
theorem toNat_and_maxv (x : UInt32) :
    (x &&& ((1 <<< UInt32.ofNat outbits) - 1)).toNat = x.toNat % 2 ^ outbits := by
  have hmaxv : ((1 : UInt32) <<< UInt32.ofNat outbits - 1).toNat = 2 ^ outbits - 1 := by
    interval_cases outbits <;> rfl
  rw [UInt32.toNat_and, hmaxv, Nat.and_two_pow_sub_one_eq_mod]

include hin in
/-- The low bits once a group has come in behind them, whatever stands above. -/
theorem toNat_read_mod (val : UInt32) {b : UInt8} (hb : b.toNat < 2 ^ inbits) {bits : Nat}
    (hbits : bits + inbits ≤ 32) :
    ((val <<< UInt32.ofNat inbits) ||| b.toUInt32).toNat % 2 ^ (bits + inbits) =
      val.toNat % 2 ^ bits * 2 ^ inbits + b.toNat := by
  have hshift : (val <<< UInt32.ofNat inbits).toNat =
      (val.toNat % 2 ^ (32 - inbits)) <<< inbits := by
    rw [UInt32.toNat_shiftLeft, toNat_ofNat_mod (by omega), Nat.shiftLeft_eq, Nat.shiftLeft_eq,
      ← Nat.mul_mod_mul_right, ← Nat.pow_add, Nat.sub_add_cancel (by omega)]
  rw [UInt32.toNat_or, UInt8.toNat_toUInt32, hshift, ← Nat.shiftLeft_add_eq_or_of_lt hb,
    Nat.shiftLeft_eq, Nat.add_comm bits, Nat.pow_add, Nat.mod_mul, Nat.mul_add_mod_self_right,
    Nat.mod_eq_of_lt hb, Nat.add_comm, Nat.mul_comm (2 ^ inbits)]
  congr 2
  rw [Nat.mul_comm, Nat.mul_add_div (Nat.two_pow_pos _), Nat.div_eq_of_lt hb, Nat.add_zero,
    Nat.mod_mod_of_dvd _ (Nat.pow_dvd_pow 2 (by omega))]

include hin in
theorem Regroup.read {read n bits : Nat} {val : UInt32} {out : Bytes}
    (h : Regroup outbits read n val bits out) {b : UInt8} (hb : b.toNat < 2 ^ inbits)
    (hbits : bits + inbits ≤ 32) :
    Regroup outbits (read + inbits) (n * 2 ^ inbits + b.toNat)
      ((val <<< UInt32.ofNat inbits) ||| b.toUInt32) (bits + inbits) out := by
  obtain ⟨hcount, hsmall, hnumber⟩ := h
  refine ⟨by omega, hsmall, ?_⟩
  rw [toNat_read_mod hin val hb hbits, hnumber, Nat.pow_add]
  ring

include hout in
theorem Regroup.take {read n bits : Nat} {val : UInt32} {out : Bytes}
    (h : Regroup outbits read n val (bits + outbits) out) (hbits : bits < 32) :
    Regroup outbits read n val bits
      (out ++ [((val >>> UInt32.ofNat bits) &&& ((1 <<< UInt32.ofNat outbits) - 1)).toUInt8]) := by
  obtain ⟨hcount, hsmall, hnumber⟩ := h
  have hbyte : ((val >>> UInt32.ofNat bits) &&&
      ((1 <<< UInt32.ofNat outbits) - 1)).toUInt8.toNat = val.toNat / 2 ^ bits % 2 ^ outbits := by
    have hfits : 2 ^ outbits ∣ 2 ^ 8 := Nat.pow_dvd_pow 2 hout
    have hle := Nat.le_of_dvd (by decide) hfits
    have hlt := Nat.mod_lt (val.toNat / 2 ^ bits) (Nat.two_pow_pos outbits)
    rw [UInt32.toNat_toUInt8, toNat_and_maxv hout, UInt32.toNat_shiftRight,
      toNat_ofNat_mod hbits, Nat.shiftRight_eq_div_pow, Nat.mod_eq_of_lt (by omega)]
  refine ⟨?_, ?_, ?_⟩
  · rw [List.length_append, List.length_singleton, Nat.mul_succ]
    omega
  · intro d hd
    rcases List.mem_append.mp hd with hd | hd
    · exact hsmall d hd
    · rw [List.mem_singleton.mp hd, hbyte]
      exact Nat.mod_lt _ (Nat.two_pow_pos _)
  · rw [hnumber, groupsNumber_concat, hbyte, Nat.pow_add, Nat.mod_mul]
    ring

/-! ## The two loops -/

include hpos hout in
theorem convertBits.emit_regroup {cap read n : Nat} {val : UInt32} {bits' : Nat} {out' : Bytes} :
    ∀ {fuel bits : Nat} {out : Bytes}, bits ≤ 32 → Regroup outbits read n val bits out →
    convertBits.emit cap outbits ((1 <<< UInt32.ofNat outbits) - 1) val fuel bits out =
      some (bits', out') → bits' < outbits ∧ Regroup outbits read n val bits' out' := by
  intro fuel
  induction fuel with
  | zero =>
      intro bits out _ h hemit
      rw [convertBits.emit] at hemit
      split at hemit
      · cases hemit
        exact ⟨‹_›, h⟩
      · cases hemit
  | succ fuel ih =>
      intro bits out hbits h hemit
      rw [convertBits.emit] at hemit
      split at hemit
      · cases hemit
        exact ⟨‹_›, h⟩
      · split at hemit
        · obtain ⟨k, rfl⟩ : ∃ k, bits = k + outbits := ⟨bits - outbits, by omega⟩
          rw [Nat.add_sub_cancel] at hemit
          exact ih (by omega) (h.take hout (by omega)) hemit
        · cases hemit

include hpos in
/-- There is room if there is room for the groups that are whole. -/
theorem convertBits.emit_isSome {cap : Nat} (maxv val : UInt32) : ∀ {fuel bits : Nat}
    {out : Bytes}, bits ≤ fuel → outbits * out.length + bits < outbits * (cap + 1) →
    (convertBits.emit cap outbits maxv val fuel bits out).isSome := by
  intro fuel
  induction fuel with
  | zero =>
      intro bits out hfuel _
      rw [convertBits.emit, if_pos (by omega)]
      rfl
  | succ fuel ih =>
      intro bits out hfuel hroom
      rw [convertBits.emit]
      by_cases hfew : bits < outbits
      · rw [if_pos hfew]
        rfl
      · have hcap : out.length < cap := by
          by_contra hge
          have hle := Nat.mul_le_mul_left outbits (Nat.not_lt.mp hge)
          rw [Nat.mul_succ] at hroom
          omega
        rw [if_neg hfew, if_pos hcap]
        refine ih (by omega) ?_
        rw [List.length_append, List.length_singleton, Nat.mul_succ]
        omega

include hin hpos hout in
theorem convertBits.loop_regroup {cap : Nat} {val' : UInt32} {bits' : Nat} {out' : Bytes} :
    ∀ {input : Bytes} {val : UInt32} {bits read n : Nat} {out : Bytes},
    (∀ b ∈ input, b.toNat < 2 ^ inbits) → bits < outbits → Regroup outbits read n val bits out →
    convertBits.loop cap outbits inbits ((1 <<< UInt32.ofNat outbits) - 1) input val bits out =
      some (val', bits', out') →
    bits' < outbits ∧ Regroup outbits (read + inbits * input.length)
      (n * 2 ^ (inbits * input.length) + groupsNumber inbits input) val' bits' out' := by
  intro input
  induction input with
  | nil =>
      intro val bits read n out _ hbits h hloop
      cases hloop
      exact ⟨hbits, by simpa [groupsNumber] using h⟩
  | cons b input ih =>
      intro val bits read n out hinput hbits h hloop
      have hread := h.read hin (hinput b List.mem_cons_self) (by omega)
      rw [convertBits.loop] at hloop
      split at hloop
      · cases hloop
      · obtain ⟨hfew, hemit⟩ := emit_regroup hpos hout (by omega) hread ‹_›
        have hrest := ih (fun d hd => hinput d (List.mem_cons_of_mem b hd)) hfew hemit hloop
        rw [List.length_cons, Nat.mul_succ, groupsNumber_cons]
        convert hrest using 2
        · omega
        · rw [Nat.pow_add]
          ring

include hin hpos hout in
theorem convertBits.loop_isSome {cap : Nat} : ∀ {input : Bytes} {val : UInt32}
    {bits read n : Nat} {out : Bytes}, (∀ b ∈ input, b.toNat < 2 ^ inbits) → bits < outbits →
    Regroup outbits read n val bits out → read + inbits * input.length < outbits * (cap + 1) →
    (convertBits.loop cap outbits inbits ((1 <<< UInt32.ofNat outbits) - 1) input val bits
      out).isSome := by
  intro input
  induction input with
  | nil =>
      intro val bits read n out _ _ _ _
      rfl
  | cons b input ih =>
      intro val bits read n out hinput hbits h hroom
      have hread := h.read hin (hinput b List.mem_cons_self) (by omega)
      rw [List.length_cons, Nat.mul_succ] at hroom
      have hcount := hread.count
      have hsome : (convertBits.emit cap outbits ((1 <<< UInt32.ofNat outbits) - 1)
          ((val <<< UInt32.ofNat inbits) ||| b.toUInt32) (bits + inbits) (bits + inbits)
            out).isSome := emit_isSome hpos _ _ (Nat.le_refl _) (by omega)
      obtain ⟨⟨bits', out'⟩, hemit⟩ := Option.isSome_iff_exists.mp hsome
      obtain ⟨hfew, hnext⟩ := emit_regroup hpos hout (by omega) hread hemit
      rw [convertBits.loop]
      simp only [hemit]
      exact ih (fun d hd => hinput d (List.mem_cons_of_mem b hd)) hfew hnext (by omega)

/-! ## The bits that are left -/

include hout in
theorem toNat_leftover (val : UInt32) {bits : Nat} (hbits : bits < outbits) :
    ((val <<< UInt32.ofNat (outbits - bits)) &&& ((1 <<< UInt32.ofNat outbits) - 1)).toNat =
      val.toNat % 2 ^ bits * 2 ^ (outbits - bits) := by
  have hsplit : 2 ^ outbits = 2 ^ bits * 2 ^ (outbits - bits) := by
    rw [← Nat.pow_add, Nat.add_sub_cancel' (Nat.le_of_lt hbits)]
  have hdvd : 2 ^ outbits ∣ 2 ^ 32 := Nat.pow_dvd_pow 2 (by omega)
  rw [toNat_and_maxv hout, UInt32.toNat_shiftLeft, toNat_ofNat_mod (by omega), Nat.shiftLeft_eq,
    Nat.mod_mod_of_dvd _ hdvd, hsplit, Nat.mul_mod_mul_right]

include hin hpos hout in
/-- With room for every group there is a result. -/
theorem convertBits_isSome {cap : Nat} {input : Bytes} (hinput : ∀ b ∈ input, b.toNat < 2 ^ inbits)
    {pad : Bool} (hroom : inbits * input.length < outbits * (cap + 1))
    (hpad : pad = true → inbits * input.length ≤ outbits * cap) :
    (convertBits cap outbits input inbits pad).isSome := by
  obtain ⟨⟨val, bits, out⟩, hloop⟩ := Option.isSome_iff_exists.mp
    (convertBits.loop_isSome hin hpos hout hinput hpos (Regroup.start outbits)
      (by rwa [Nat.zero_add]))
  have hcount := (convertBits.loop_regroup hin hpos hout hinput hpos (Regroup.start outbits)
    hloop).2.count
  rw [convertBits]
  simp only [hloop]
  cases pad with
  | false => rfl
  | true =>
      rw [if_pos rfl]
      by_cases hzero : bits = 0
      · rw [if_pos hzero]
        rfl
      · have hcap : out.length < cap := by
          by_contra hge
          have hle := Nat.mul_le_mul_left outbits (Nat.not_lt.mp hge)
          have hmax := hpad rfl
          omega
        rw [if_neg hzero, if_pos hcap]
        rfl

include hin hpos hout in
/-- With padding the number is moved up by less than a group. -/
theorem convertBits_pad {cap : Nat} {input out : Bytes}
    (hinput : ∀ b ∈ input, b.toNat < 2 ^ inbits) {ok : Bool}
    (h : convertBits cap outbits input inbits true = some (ok, out)) :
    ok = true ∧ (∀ d ∈ out, d.toNat < 2 ^ outbits) ∧ ∃ fill < outbits,
      outbits * out.length = inbits * input.length + fill ∧
        groupsNumber outbits out = groupsNumber inbits input * 2 ^ fill := by
  rw [convertBits] at h
  simp only at h
  split at h
  · cases h
  rename_i val bits out₀ hloop
  obtain ⟨hbits, hcount, hsmall, hnumber⟩ :=
    convertBits.loop_regroup hin hpos hout hinput hpos (Regroup.start outbits) hloop
  rw [Nat.zero_mul, Nat.zero_add] at hnumber
  rw [Nat.zero_add] at hcount
  rw [if_pos trivial] at h
  split at h
  · cases h
    subst bits
    refine ⟨rfl, hsmall, 0, hpos, by omega, ?_⟩
    rw [hnumber, Nat.pow_zero, Nat.mod_one, Nat.add_zero, Nat.mul_one, Nat.mul_one]
  · split at h
    · cases h
      have hleft := toNat_leftover hout val hbits
      have hsplit : 2 ^ outbits = 2 ^ bits * 2 ^ (outbits - bits) := by
        rw [← Nat.pow_add, Nat.add_sub_cancel' (Nat.le_of_lt hbits)]
      have hlt : val.toNat % 2 ^ bits * 2 ^ (outbits - bits) < 2 ^ outbits := by
        rw [hsplit]
        exact Nat.mul_lt_mul_of_pos_right (Nat.mod_lt _ (Nat.two_pow_pos _)) (Nat.two_pow_pos _)
      have hbyte : ((val <<< UInt32.ofNat (outbits - bits)) &&&
          ((1 <<< UInt32.ofNat outbits) - 1)).toUInt8.toNat =
            val.toNat % 2 ^ bits * 2 ^ (outbits - bits) := by
        have hle : 2 ^ outbits ≤ 2 ^ 8 := Nat.pow_le_pow_right (by decide) hout
        rw [UInt32.toNat_toUInt8, hleft, Nat.mod_eq_of_lt (by omega)]
      refine ⟨rfl, ?_, outbits - bits, by omega, ?_, ?_⟩
      · intro d hd
        rcases List.mem_append.mp hd with hd | hd
        · exact hsmall d hd
        · rwa [List.mem_singleton.mp hd, hbyte]
      · rw [List.length_append, List.length_singleton, Nat.mul_succ]
        omega
      · rw [groupsNumber_concat, hbyte, hnumber, hsplit]
        ring
    · cases h

include hin hpos hout in
/-- Without padding the bits that are left have to be zeros, and too few for a group
of the input. -/
theorem convertBits_unpad {cap : Nat} {input out : Bytes}
    (hinput : ∀ b ∈ input, b.toNat < 2 ^ inbits) {ok : Bool}
    (h : convertBits cap outbits input inbits false = some (ok, out)) :
    (∀ d ∈ out, d.toNat < 2 ^ outbits) ∧ ∃ bits < outbits, ∃ low < 2 ^ bits,
      outbits * out.length + bits = inbits * input.length ∧
        groupsNumber inbits input = groupsNumber outbits out * 2 ^ bits + low ∧
          (ok = true ↔ low = 0 ∧ bits < inbits) := by
  rw [convertBits] at h
  simp only at h
  split at h
  · cases h
  rename_i val bits out₀ hloop
  obtain ⟨hbits, hcount, hsmall, hnumber⟩ :=
    convertBits.loop_regroup hin hpos hout hinput hpos (Regroup.start outbits) hloop
  rw [Nat.zero_mul, Nat.zero_add] at hnumber
  rw [Nat.zero_add] at hcount
  have hleft := toNat_leftover hout val hbits
  have hzero : (val <<< UInt32.ofNat (outbits - bits)) &&& ((1 <<< UInt32.ofNat outbits) - 1) = 0 ↔
      val.toNat % 2 ^ bits = 0 := by
    rw [← UInt32.toNat_inj, hleft, UInt32.toNat_zero, Nat.mul_eq_zero]
    exact or_iff_left (Nat.ne_of_gt (Nat.two_pow_pos _))
  cases h
  refine ⟨hsmall, bits, hbits, val.toNat % 2 ^ bits, Nat.mod_lt _ (Nat.two_pow_pos _), hcount,
    hnumber, ?_⟩
  simp [hzero]

end Widths

/-! ## Bytes in groups of five bits -/

theorem low_eq_zero {a b low bits : Nat} (hlow : low < 2 ^ bits)
    (h : a * 2 ^ bits = b * 2 ^ bits + low) : low = 0 ∧ a = b := by
  have hzero : low = 0 := by
    have hmod := congrArg (· % 2 ^ bits) h
    simp only [Nat.mul_mod_left, Nat.mul_add_mod_self_right, Nat.mod_eq_of_lt hlow] at hmod
    exact hmod.symm
  refine ⟨hzero, Nat.eq_of_mul_eq_mul_right (Nat.two_pow_pos bits) ?_⟩
  rw [h, hzero, Nat.add_zero]

/-- Bytes come back from groups of five bits, and groups that are taken for bytes are the
ones these are dealt out in. -/
theorem convertBits_roundTrip :
    (∀ (p : Bytes) (cap cap' : Nat), 8 * p.length ≤ 5 * cap → p.length ≤ cap' →
      ∃ vs, convertBits cap 5 p 8 true = some (true, vs) ∧
        convertBits cap' 8 vs 5 false = some (true, p)) ∧
    ∀ (vs p : Bytes) (cap cap' : Nat), (∀ v ∈ vs, v < 32) → vs.length ≤ cap' →
      convertBits cap 8 vs 5 false = some (true, p) →
        convertBits cap' 5 p 8 true = some (true, vs) := by
  have hbytes : ∀ p : Bytes, ∀ b ∈ p, b.toNat < 2 ^ 8 := fun _ b _ => b.toNat_lt
  constructor
  · intro p cap cap' hroom hroom'
    have hsome : (convertBits cap 5 p 8 true).isSome :=
      convertBits_isSome (by decide) (by decide) (by decide) (hbytes p) (by omega) fun _ => hroom
    obtain ⟨⟨ok, vs⟩, hpad⟩ := Option.isSome_iff_exists.mp hsome
    obtain ⟨rfl, hsmall, fill, hfill, hlen, hnumber⟩ :=
      convertBits_pad (by decide) (by decide) (by decide) (hbytes p) hpad
    have hsome' : (convertBits cap' 8 vs 5 false).isSome :=
      convertBits_isSome (by decide) (by decide) (by decide) hsmall (by omega) nofun
    obtain ⟨⟨ok, q⟩, hunpad⟩ := Option.isSome_iff_exists.mp hsome'
    obtain ⟨hq, bits, hbits, low, hlow, hlen', hnumber', hok⟩ :=
      convertBits_unpad (by decide) (by decide) (by decide) hsmall hunpad
    obtain rfl : bits = fill := by omega
    obtain ⟨hzero, hsame⟩ := low_eq_zero hlow (hnumber.symm.trans hnumber')
    have hback : p = q := groupsNumber_inj (by decide) (hbytes p) hq (by omega) hsame
    refine ⟨vs, hpad, ?_⟩
    rw [hunpad, hback, hok.mpr ⟨hzero, hfill⟩]
  · intro vs p cap cap' hvs hroom hunpad
    have hgroups : ∀ v ∈ vs, v.toNat < 2 ^ 5 := fun v hv => UInt8.lt_iff_toNat_lt.mp (hvs v hv)
    obtain ⟨-, bits, hbits, low, hlow, hlen, hnumber, hok⟩ :=
      convertBits_unpad (by decide) (by decide) (by decide) hgroups hunpad
    obtain ⟨rfl, hfew⟩ := hok.mp rfl
    have hsome : (convertBits cap' 5 p 8 true).isSome :=
      convertBits_isSome (by decide) (by decide) (by decide) (hbytes p) (by omega) fun _ => by omega
    obtain ⟨⟨ok, ws⟩, hpad⟩ := Option.isSome_iff_exists.mp hsome
    obtain ⟨rfl, hws, fill, hfill, hlen', hnumber'⟩ :=
      convertBits_pad (by decide) (by decide) (by decide) (hbytes p) hpad
    obtain rfl : bits = fill := by omega
    rw [hpad, groupsNumber_inj (by decide) hws hgroups (by omega) (hnumber'.trans hnumber.symm)]

/-- Three bytes in five groups, one bit of which is padding. -/
theorem convertBits_roundTrip_sample :
    convertBits 5 5 [0xff, 0x00, 0x81] 8 true = some (true, [31, 28, 0, 8, 2]) ∧
      ∃ vs, convertBits 5 5 [0xff, 0x00, 0x81] 8 true = some (true, vs) ∧
        convertBits 3 8 vs 5 false = some (true, [0xff, 0x00, 0x81]) := by
  refine ⟨?_, convertBits_roundTrip.1 _ 5 3 (by decide) (by decide)⟩
  exact convertBits_roundTrip.2 [31, 28, 0, 8, 2] _ 3 5 (by simp) (by decide) (by decide)

end AlphaMiner
