import AlphaMiner.Proofs.GbtSpec
import AlphaMiner.Proofs.JobLayout
import AlphaMiner.Proofs.ScanSpec

/-!
# The seed of a work record

A header carries its own time, and the RandomX key of its epoch follows from
that time alone. Three functions fill a record, and they keep the seed in step
with the header to different degrees. `stratum_gen_work` reads the time back out
of the header word and always gets it right. `gbt_work_decode` uses the server's
time and duration, the one as a 32-bit word and the other reduced to one, and
prints the epoch as a signed number. `work_decode` does not touch the seed.
`seedMatches_iff` puts the three side by side.
-/

namespace AlphaMiner

open Lib

/-- The time field of a serialised header, bytes 68 to 71. -/
def headerTime (data : Vector UInt32 32) : UInt32 := le32dec (slice (headerBytes data) 68 4)

theorem headerTime_eq (data : Vector UInt32 32) : headerTime data = swab32 (timeWord data) := by
  have hslice := slice_flatMap (fun i => be32enc (headerWord data i))
    (fun _ => length_be32enc _) ⟨17, by decide⟩
  rw [headerTime, headerBytes]
  exact (congrArg le32dec hslice).trans (le32dec_be32enc _)

/-- The string of an epoch, in decimal. -/
def epochString (epoch : Int) : Bytes :=
  ascii "Alpha/RandomX/Epoch/" ++ ascii (toString epoch)

/-- What `%d` prints for an unsigned word. -/
def asSigned (n : UInt32) : Int := if n.toNat < 2 ^ 31 then n.toNat else n.toNat - 2 ^ 32

theorem epochSeedString_eq (n : UInt32) : epochSeedString n = epochString (asSigned n) := by
  unfold epochSeedString sprintfD epochString asSigned
  split <;> rfl

/-- The record carries the seed of its own header's time, for epochs of
`duration` seconds. -/
def SeedMatches (sha256d : Bytes → Hash) (duration : Int) (work : Work) : Prop :=
  work.randomxSeedHash = sha256d (epochString ((headerTime work.data).toNat / duration))

/-! ## A decoded buffer does not remember what it held -/

theorem jobjBinary_overwrites {obj : Option Json} {key : String} {buf buf' : Bytes} {len : Nat}
    (hbuf : buf.length = len) (hbuf' : buf'.length = len)
    (h : (jobjBinary obj key buf len).1 = true) :
    jobjBinary obj key buf' len = jobjBinary obj key buf len := by
  unfold jobjBinary at h ⊢
  cases hobj : jsonObjectGet obj key with
  | none =>
      rw [hobj] at h
      cases h
  | some tmp =>
      rw [hobj] at h
      cases hstr : jsonStringValue (some tmp) with
      | none =>
          simp only [hstr] at h
          cases h
      | some hexstr =>
          simp only [hstr] at h ⊢
          exact hex2bin_overwrites hbuf hbuf' h

theorem length_jobjBinary {obj : Option Json} {key : String} {buf : Bytes} {len : Nat}
    (h : len ≤ buf.length) : (jobjBinary obj key buf len).2.length = buf.length := by
  rw [jobjBinary]
  split
  · rfl
  · split
    · rfl
    · exact length_hex2bin h

/-! ## The three fillers -/

/-- A way to fill a record on a little-endian host. -/
inductive Fill where
  | template (cfg : GbtConfig) (val : Option Json) (start : GbtState)
  | job (ctx : StratumCtx) (work : Work)
  | getwork (val : Option Json) (work : Work)

/-- The fill succeeds, and leaves this record. -/
def Fill.Gives (sha256d : Bytes → Hash) (filled : Work) : Fill → Prop
  | .template cfg val start =>
      ∃ s, gbtWorkDecode sha256d cfg val start = .ok () s ∧ s.work = filled
  | .job ctx work => ∃ ctx', stratumGenWork sha256d .little ctx work = some (ctx', filled)
  | .getwork val work => workDecode .little val work = (true, filled)

/-- The length of an epoch: the server's, where the server tells it. -/
def Fill.duration : Fill → Int
  | .template _ val _ => jsonIntegerValue (jsonObjectGet val "rx_epoch_duration")
  | .job _ _ => 604800
  | .getwork _ _ => 604800

/-- The time a template sets, and the epoch number the function prints for it. -/
def templateTime (val : Option Json) : UInt32 :=
  .ofInt (jsonIntegerValue (jsonObjectGet val "curtime"))

def printedEpoch (val : Option Json) : UInt32 :=
  templateTime val / .ofInt (jsonIntegerValue (jsonObjectGet val "rx_epoch_duration"))

/-- The time in the header of a `getwork` reply. -/
def getworkTime (val : Option Json) : UInt32 :=
  be32dec (slice (jobjBinary val "data" (List.replicate 128 0) 128).2 68 4)

/-- When a fill gets the seed right. The reduced duration must give the same
epoch and its number must not be printed as a negative one, unless two
different strings happen to have the same hash; a job's seed is always right;
and a `getwork` reply leaves a seed that has to be right already. -/
def Fill.SeedRight (sha256d : Bytes → Hash) : Fill → Prop
  | .template _ val _ =>
      let epoch := (templateTime val).toNat /
        jsonIntegerValue (jsonObjectGet val "rx_epoch_duration")
      ((printedEpoch val).toNat < 2 ^ 31 ∧ ((printedEpoch val).toNat : Int) = epoch) ∨
        asSigned (printedEpoch val) ≠ epoch ∧
          sha256d (epochString (asSigned (printedEpoch val))) = sha256d (epochString epoch)
  | .job _ _ => True
  | .getwork val work =>
      work.randomxSeedHash = sha256d (epochString ((getworkTime val).toNat / 604800))

theorem asSigned_eq_iff (n : UInt32) {epoch : Int} (h : 0 ≤ epoch) :
    asSigned n = epoch ↔ n.toNat < 2 ^ 31 ∧ (n.toNat : Int) = epoch := by
  have hn := n.toNat_lt
  rw [asSigned]
  split
  · next hlt => exact ⟨fun he => ⟨hlt, he⟩, fun he => he.2⟩
  · next hge =>
      constructor
      · intro he
        omega
      · rintro ⟨hlt, -⟩
        exact absurd hlt hge

theorem seedMatches_template {sha256d : Bytes → Hash} {cfg : GbtConfig} {val : Option Json}
    {start s : GbtState} (h : gbtWorkDecode sha256d cfg val start = .ok () s)
    (hpos : 0 < (Fill.template cfg val start).duration) :
    SeedMatches sha256d (Fill.template cfg val start).duration s.work ↔
      (Fill.template cfg val start).SeedRight sha256d := by
  obtain ⟨-, duration, curtime, hduration, hcurtime, -, hdata, hseed⟩ := gbtWorkDecode_ok h
  have htime : templateTime val = .ofInt curtime := by
    rw [templateTime, hcurtime]
    rfl
  have hprinted : printedEpoch val = .ofInt curtime / .ofInt duration := by
    rw [printedEpoch, htime, hduration]
    rfl
  have hlength : (Fill.template cfg val start).duration = duration := by
    rw [Fill.duration, hduration]
    rfl
  have hheader : headerTime s.work.data = templateTime val := by
    rw [headerTime_eq, hdata, swab32_swab32, htime]
  rw [hlength] at hpos ⊢
  have hepoch : 0 ≤ ((templateTime val).toNat : Int) / duration :=
    Int.ediv_nonneg (by omega) (by omega)
  rw [SeedMatches, hseed, hheader, epochSeedString_eq, ← hprinted, Fill.SeedRight, hduration]
  simp only [jsonIntegerValue]
  rw [← asSigned_eq_iff _ hepoch]
  constructor
  · intro heq
    by_cases hsame : asSigned (printedEpoch val) = (templateTime val).toNat / duration
    · exact .inl hsame
    · exact .inr ⟨hsame, heq⟩
  · rintro (hsame | ⟨-, heq⟩)
    · rw [hsame]
    · exact heq

/-- A week fits into a word seven thousand times, so no epoch of a job is
printed as a negative number. -/
theorem asSigned_week (t : UInt32) : asSigned (t / (7 * 24 * 60 * 60)) = t.toNat / 604800 := by
  have hlt := t.toNat_lt
  have hweek : (t / (7 * 24 * 60 * 60)).toNat = t.toNat / 604800 := UInt32.toNat_div _ _
  rw [asSigned_eq_iff _ (by omega), hweek]
  omega

theorem seedMatches_job {sha256d : Bytes → Hash} {ctx ctx' : StratumCtx} {work filled : Work}
    (h : stratumGenWork sha256d .little ctx work = some (ctx', filled)) :
    SeedMatches sha256d 604800 filled := by
  obtain ⟨_, _, -, -, -, -, -, hdata, hseed⟩ := stratumGenWork_some h
  rw [SeedMatches, hseed, hdata, headerTime_eq, ← asSigned_week, ← epochSeedString_eq]
  rfl

theorem swab32_le32dec {p : Bytes} (hp : p.length = 4) : swab32 (le32dec p) = be32dec p := by
  rw [swab32, le32enc_le32dec hp]

/-- On a little-endian host the words of a `getwork` reply are its bytes, and
the seed is the old one. -/
theorem headerTime_getwork {val : Option Json} {work filled : Work}
    (h : workDecode .little val work = (true, filled)) :
    headerTime filled.data = getworkTime val ∧ filled.randomxSeedHash = work.randomxSeedHash := by
  rw [workDecode] at h
  cases hdata : jobjBinary val "data" (ByteOrder.little.bytes work.data) 128 with
  | mk ok buf =>
      rw [hdata] at h
      cases ok with
      | false => cases h
      | true =>
          have hbuf : buf = (jobjBinary val "data" (List.replicate 128 0) 128).2 := by
            have hold : (ByteOrder.little.bytes work.data).length = 128 :=
              ByteOrder.length_bytes _ _
            rw [jobjBinary_overwrites hold List.length_replicate (by rw [hdata]), hdata]
          have hlen : buf.length = 128 := by
            rw [hbuf, length_jobjBinary (by simp), List.length_replicate]
          have hword : swab32 (le32dec (slice buf (4 * 17) 4)) = be32dec (slice buf 68 4) := by
            apply swab32_le32dec
            rw [slice, List.length_take, List.length_drop, hlen]
            decide
          simp only [Bool.not_true, Bool.false_eq_true, if_false] at h
          split at h
          · cases h
          · cases h
            refine ⟨?_, rfl⟩
            rw [headerTime_eq, timeWord, le32decInPlace, Vector.getElem_map, ByteOrder.enc,
              le32dec_le32enc, ByteOrder.words, Vector.getElem_ofFn, ByteOrder.dec,
              getworkTime, ← hbuf]
            exact hword

/-- A filled record carries the seed of its own time exactly where `SeedRight`
says so. -/
theorem seedMatches_iff {sha256d : Bytes → Hash} {fill : Fill} {filled : Work}
    (h : fill.Gives sha256d filled) (hpos : 0 < fill.duration) :
    SeedMatches sha256d fill.duration filled ↔ fill.SeedRight sha256d := by
  cases fill with
  | template cfg val start =>
      obtain ⟨s, hs, rfl⟩ := h
      exact seedMatches_template hs hpos
  | job ctx work =>
      obtain ⟨ctx', hgen⟩ := h
      exact ⟨fun _ => trivial, fun _ => seedMatches_job hgen⟩
  | getwork val work =>
      obtain ⟨htime, hseed⟩ := headerTime_getwork h
      rw [SeedMatches, htime, hseed]
      exact Iff.rfl

theorem seedMatches_iff_sample :
    SeedMatches sampleHash (Fill.template sampleConfig (some sampleTemplate) sampleStart).duration
        sampleFilled.work ↔
      (Fill.template sampleConfig (some sampleTemplate) sampleStart).SeedRight sampleHash :=
  seedMatches_iff ⟨sampleFilled, sampleFilled_ok, rfl⟩ (by decide)

/-- A `getwork` reply with a header of zeros. -/
def zeroReply : Json := .object
  [("data", .string (List.replicate 256 48)), ("target", .string (List.replicate 64 48))]

theorem seedMatches_zeroReply {sha256d : Bytes → Hash} {work : Work}
    (hok : (workDecode .little (some zeroReply) work).1 = true)
    (hseed : work.randomxSeedHash ≠ sha256d (epochString 0)) :
    ∃ (fill : Fill) (filled : Work), fill.Gives sha256d filled ∧ 0 < fill.duration ∧
      ¬ SeedMatches sha256d fill.duration filled := by
  have hgives : workDecode .little (some zeroReply) work =
      (true, (workDecode .little (some zeroReply) work).2) := by
    rw [← hok]
  have hweek : (0 : Int) < 604800 := by decide
  refine ⟨.getwork (some zeroReply) work, _, hgives, hweek, fun hmatches => hseed ?_⟩
  obtain ⟨htime, hold⟩ := headerTime_getwork hgives
  have hzero : getworkTime (some zeroReply) = 0 := by decide +kernel
  rw [SeedMatches, htime, hold, hzero] at hmatches
  exact hmatches

/-- Under no hash function do all fills give the seed of the header: a record
that starts with any other seed keeps it through a `getwork` reply. -/
theorem seedMatches_fails_getwork :
    ¬ ∃ sha256d : Bytes → Hash, ∀ (fill : Fill) (filled : Work),
      fill.Gives sha256d filled → 0 < fill.duration →
        SeedMatches sha256d fill.duration filled := by
  rintro ⟨sha256d, hall⟩
  have hfails : ∃ (fill : Fill) (filled : Work), fill.Gives sha256d filled ∧
      0 < fill.duration ∧ ¬ SeedMatches sha256d fill.duration filled := by
    by_cases hzero : sha256d (epochString 0) = .replicate 32 0
    · have hone : (Vector.replicate 32 1 : Hash) ≠ sha256d (epochString 0) := by
        rw [hzero]
        decide
      exact @seedMatches_zeroReply sha256d { Work.zero with randomxSeedHash := .replicate 32 1 }
        (by decide +kernel) hone
    · exact @seedMatches_zeroReply sha256d Work.zero (by decide +kernel) fun h => hzero h.symm
  obtain ⟨fill, filled, hgives, hpos, hnot⟩ := hfails
  exact hnot (hall fill filled hgives hpos)

end AlphaMiner
