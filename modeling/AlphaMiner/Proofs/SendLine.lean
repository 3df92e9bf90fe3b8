import AlphaMiner.Model.Socket
import AlphaMiner.Model.Submit

/-!
# What `stratum_send_line` puts on the wire

A pool that reads lines has to find, on one connection, the lines of the calls
that returned true and behind them at most the beginning of one more
(`WholeLines`). `send_line` asks whether the socket is ready before every chunk
and does not wait, so a call may return false with part of its line on the
wire; nothing remembers this, and the next call, which after a false return is
the same request once more, continues in the middle of a line.

`wholeLines_iff` is over any list of calls and anything their sockets do: the
lines are whole exactly if no call that was cut short is followed by one whose
socket takes a byte.
-/

namespace AlphaMiner

open Lib

/-! ## What is wanted, and when it is had -/

/-- A call that returned true wrote its line, one that returned false a proper
prefix of it; after a prefix that is not empty nothing is written; and so the
wire carries lines and at most one prefix. -/
structure WholeLines (calls : List SendCall) : Prop where
  once : ∀ c ∈ calls, c.ret = true → c.written = c.line ++ [newline]
  part : ∀ c ∈ calls, c.ret = false →
    c.written <+: c.line ++ [newline] ∧ c.written ≠ c.line ++ [newline]
  silent : calls.Pairwise fun c later =>
    c.ret = false → c.written ≠ [] → later.written = []
  stream : ∃ p, wire calls =
      (calls.filter SendCall.ret).flatMap (fun c => c.line ++ [newline]) ++ p ∧
    (p = [] ∨ ∃ c ∈ calls, c.ret = false ∧ p = c.written)

/-- How many bytes the socket took. -/
def accepted (events : List SendEvent) : Nat :=
  (events.map fun e =>
    match e with
    | .wrote n => n
    | _ => 0).sum

/-- The answers on which `send_line` gives up. -/
def SendEvent.stops : SendEvent → Bool
  | .notReady => true
  | .failed => true
  | .wrote _ => false
  | .again => false

/-- The socket took a byte, and was not ready or failed before it had the line. -/
def CutShort (events : List SendEvent) : Prop :=
  0 < accepted events ∧ ∃ e ∈ events, e.stops = true

instance (events : List SendEvent) : Decidable (CutShort events) :=
  inferInstanceAs (Decidable (0 < accepted events ∧ ∃ e ∈ events, e.stops = true))

/-! ## One call -/

theorem sendLoop_spec {events : List SendEvent} {rest w : Bytes} {ret : Bool}
    (h : sendLine.loop events rest = some (ret, w)) :
    w <+: rest ∧ w.length = accepted events ∧ (ret = true ↔ w = rest) ∧
      (ret = false ↔ ∃ e ∈ events, e.stops = true) := by
  induction events generalizing rest w with
  | nil =>
      cases rest with
      | nil =>
          cases h
          simp [accepted]
      | cons c rest => cases h
  | cons e events ih =>
      cases rest with
      | nil => cases h
      | cons c rest =>
          have hstop : (if events = [] then some (false, []) else none) = some (ret, w) →
              e.stops = true → accepted [e] = 0 →
              w <+: c :: rest ∧ w.length = accepted (e :: events) ∧
                (ret = true ↔ w = c :: rest) ∧
                (ret = false ↔ ∃ e' ∈ e :: events, e'.stops = true) := by
            intro hgo he hacc
            split at hgo
            · next hnil =>
                cases hgo
                rw [hnil, hacc]
                simp [he]
            · cases hgo
          cases e with
          | notReady => exact hstop h rfl rfl
          | failed => exact hstop h rfl rfl
          | again =>
              obtain ⟨hpre, hlen, hret, hstops⟩ := ih h
              refine ⟨hpre, by simpa [accepted] using hlen, hret, ?_⟩
              simpa [SendEvent.stops] using hstops
          | wrote n =>
              rw [sendLine.loop] at h
              split at h
              · next hn =>
                  obtain ⟨⟨ret', w'⟩, hgo, hr⟩ := Option.map_eq_some_iff.mp h
                  cases hr
                  obtain ⟨hpre, hlen, hret, hstops⟩ := ih hgo
                  obtain ⟨u, v, hcut, hu⟩ : ∃ u v, c :: rest = u ++ v ∧ u.length = n :=
                    ⟨_, _, (List.take_append_drop n _).symm,
                      by rw [List.length_take, Nat.min_eq_left hn]⟩
                  rw [hcut, List.drop_left' hu] at hpre hret
                  rw [hcut, List.take_left' hu]
                  refine ⟨(List.prefix_append_right_inj u).mpr hpre, ?_, ?_, ?_⟩
                  · rw [List.length_append, hu, hlen]
                    simp [accepted]
                  · rw [hret, List.append_cancel_left_eq]
                  · simpa [SendEvent.stops] using hstops
              · cases h

theorem sendLine_spec {events : List SendEvent} {s w : Bytes} {ret : Bool}
    (h : sendLine events s = some (ret, w)) :
    w <+: s ++ [newline] ∧ w.length = accepted events ∧ (ret = true ↔ w = s ++ [newline]) ∧
      (ret = false ↔ ∃ e ∈ events, e.stops = true) :=
  sendLoop_spec h

/-- A call as it was made and as it returned. -/
structure Sent (c : Bytes × List SendEvent) (r : SendCall) : Prop where
  line : r.line = c.1
  once : r.ret = true → r.written = r.line ++ [newline]
  part : r.ret = false → r.written <+: r.line ++ [newline] ∧ r.written ≠ r.line ++ [newline]
  none : r.written = [] ↔ accepted c.2 = 0
  short : (r.ret = false ∧ r.written ≠ []) ↔ CutShort c.2

theorem Sent.of_sendLine {c : Bytes × List SendEvent} {ret : Bool} {w : Bytes}
    (h : sendLine c.2 c.1 = some (ret, w)) : Sent c ⟨c.1, ret, w⟩ := by
  obtain ⟨hpre, hlen, hret, hstops⟩ := sendLine_spec h
  have hnone : w = [] ↔ accepted c.2 = 0 := by rw [← hlen, List.length_eq_zero_iff]
  refine ⟨rfl, hret.mp, fun hfalse => ⟨hpre, fun hw => ?_⟩, hnone, ?_⟩
  · rw [hret.mpr hw] at hfalse
    cases hfalse
  · rw [CutShort, ← hstops, Nat.pos_iff_ne_zero]
    exact (and_congr_right fun _ => not_congr hnone).trans and_comm

theorem sent_of_stratumSendLines {calls : List (Bytes × List SendEvent)}
    {results : List SendCall} (h : stratumSendLines calls = some results) :
    List.Forall₂ Sent calls results := by
  unfold stratumSendLines at h
  induction calls generalizing results with
  | nil =>
      cases h
      exact .nil
  | cons c calls ih =>
      rw [List.mapM_cons] at h
      obtain ⟨r, hr, h⟩ := Option.bind_eq_some_iff.mp h
      obtain ⟨rs, hrs, h⟩ := Option.bind_eq_some_iff.mp h
      cases h
      obtain ⟨⟨ret, w⟩, hsend, rfl⟩ := Option.map_eq_some_iff.mp hr
      exact .cons (.of_sendLine hsend) (ih hrs)

/-! ## All calls on a connection -/

theorem silent_iff {calls : List (Bytes × List SendEvent)} {results : List SendCall}
    (h : List.Forall₂ Sent calls results) :
    (results.Pairwise fun c later => c.ret = false → c.written ≠ [] → later.written = []) ↔
      calls.Pairwise fun c later => CutShort c.2 → accepted later.2 = 0 := by
  induction h with
  | nil => simp
  | @cons c r calls results hc hrest ih =>
      have hall : (∀ r ∈ results, r.written = []) ↔ ∀ c ∈ calls, accepted c.2 = 0 := by
        clear ih
        induction hrest with
        | nil => simp
        | cons hc _ ih => simp only [List.forall_mem_cons, hc.none, ih]
      rw [List.pairwise_cons, List.pairwise_cons, ih]
      refine and_congr_left fun _ => ?_
      constructor
      · intro h later hlater hcut
        obtain ⟨hret, hw⟩ := hc.short.mpr hcut
        exact hall.mp (fun r hr => h r hr hret hw) later hlater
      · intro h later hlater hret hw
        exact hall.mpr (fun c' hc' => h c' hc' (hc.short.mp ⟨hret, hw⟩)) later hlater

theorem wire_of_silent {calls : List SendCall}
    (honce : ∀ c ∈ calls, c.ret = true → c.written = c.line ++ [newline])
    (hsilent : calls.Pairwise fun c later =>
      c.ret = false → c.written ≠ [] → later.written = []) :
    ∃ p, wire calls =
        (calls.filter SendCall.ret).flatMap (fun c => c.line ++ [newline]) ++ p ∧
      (p = [] ∨ ∃ c ∈ calls, c.ret = false ∧ p = c.written) := by
  induction calls with
  | nil => exact ⟨[], rfl, .inl rfl⟩
  | cons c calls ih =>
      obtain ⟨hafter, hrest⟩ := List.pairwise_cons.mp hsilent
      have honce' : ∀ c ∈ calls, c.ret = true → c.written = c.line ++ [newline] :=
        fun c hc => honce c (List.mem_cons_of_mem _ hc)
      obtain ⟨p, hp, hpart⟩ := ih honce' hrest
      have hpart' : p = [] ∨ ∃ c' ∈ c :: calls, c'.ret = false ∧ p = c'.written :=
        hpart.imp_right fun ⟨c', hc', h⟩ => ⟨c', List.mem_cons_of_mem _ hc', h⟩
      rw [wire, List.flatMap_cons, ← wire]
      cases hret : c.ret with
      | true =>
          refine ⟨p, ?_, hpart'⟩
          rw [hp, honce c List.mem_cons_self hret, List.filter_cons_of_pos hret,
            List.flatMap_cons, ← List.append_assoc]
      | false =>
          rw [List.filter_cons_of_neg (by simp [hret])]
          by_cases hw : c.written = []
          · exact ⟨p, by rw [hw, hp, List.nil_append], hpart'⟩
          · -- nothing after it is written, so no call after it returned true
            have hnone : wire calls = [] :=
              List.flatMap_eq_nil_iff.mpr fun later hlater => hafter later hlater hret hw
            have hfilter : calls.filter SendCall.ret = [] := by
              refine List.filter_eq_nil_iff.mpr fun later hlater htrue => ?_
              have := honce' later hlater htrue
              rw [hafter later hlater hret hw] at this
              simp at this
            exact ⟨c.written, by rw [hnone, hfilter]; simp,
              .inr ⟨c, List.mem_cons_self, hret, rfl⟩⟩

/-- The lines are whole exactly if the socket takes no byte after a call that
was cut short. -/
theorem wholeLines_iff {calls : List (Bytes × List SendEvent)} {results : List SendCall}
    (h : stratumSendLines calls = some results) :
    WholeLines results ↔
      calls.Pairwise fun c later => CutShort c.2 → accepted later.2 = 0 := by
  have hsent := sent_of_stratumSendLines h
  have hall : ∀ r ∈ results, ∃ c, Sent c r := by
    clear h
    induction hsent with
    | nil => nofun
    | cons hc _ ih =>
        rintro r (_ | ⟨_, hr⟩)
        · exact ⟨_, hc⟩
        · exact ih r hr
  have honce : ∀ r ∈ results, r.ret = true → r.written = r.line ++ [newline] := by
    intro r hr
    obtain ⟨c, hc⟩ := hall r hr
    exact hc.once
  rw [← silent_iff hsent]
  constructor
  · exact WholeLines.silent
  · intro hsilent
    refine ⟨honce, fun r hr => ?_, hsilent, wire_of_silent honce hsilent⟩
    obtain ⟨c, hc⟩ := hall r hr
    exact hc.part

/-- Two requests, the second in two pieces with a full buffer in between. -/
theorem wholeLines_iff_sample :
    WholeLines [⟨ascii "a", true, ascii "a\n"⟩, ⟨ascii "bc", true, ascii "bc\n"⟩] ↔
      [(ascii "a", [SendEvent.wrote 2]), (ascii "bc", [.wrote 1, .again, .wrote 2])].Pairwise
        fun c later => CutShort c.2 → accepted later.2 = 0 :=
  wholeLines_iff (by decide +kernel)

/-! ## A share submitted twice -/

def shareWork : Work := { Work.zero with jobId := some (ascii "1") }

def poolGlobals : SubmitGlobals :=
  { rpcUser := ascii "u", haveStratum := true, submitOld := true, gWork := Work.zero }

def shareRequest : Bytes :=
  miningSubmitReq (ascii "u") (ascii "1") [] (ascii "00000000") (ascii "00000000")

/-- The socket takes five bytes of a share and is not ready for more; the same
request is made again, and the pool reads the five bytes and it as one line. -/
theorem send_line_breaks :
    (workioSubmitWork .little (-1) [(poolGlobals, ⟨false, none⟩), (poolGlobals, ⟨true, none⟩)]
      shareWork).calls.map Submission.sent = [some shareRequest, some shareRequest] ∧
    stratumSendLines [(shareRequest, [.wrote 5, .notReady]),
        (shareRequest, [.wrote (shareRequest.length + 1)])] =
      some [⟨shareRequest, false, shareRequest.take 5⟩,
        ⟨shareRequest, true, shareRequest ++ [newline]⟩] ∧
    ¬WholeLines [⟨shareRequest, false, shareRequest.take 5⟩,
        ⟨shareRequest, true, shareRequest ++ [newline]⟩] := by
  refine ⟨by decide +kernel, by decide +kernel, fun h => ?_⟩
  have hsilent := (List.pairwise_cons.mp h.silent).1 _ List.mem_cons_self rfl (by decide +kernel)
  simp at hsilent

end AlphaMiner
