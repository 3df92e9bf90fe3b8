import AlphaMiner.Model.Socket

/-!
# What `stratum_recv_line` makes of the stream

`FramedStream` is what a reader of lines owes: the bytes received so far are
those it has consumed and then those in `sockbuf`, and the non-empty lines of
the consumed ones are the strings it has returned.

Two habits of the function break it. It goes on to `strtok` when its minute is
over, and `strtok` takes an unfinished line for a token; and it shifts the
buffer by the length of the token, although `strtok` has skipped newlines in
front of it, so that the bytes it keeps are the end of the line it returns and
not what was behind it. `Framing` leaves out these two and nothing else, which
is `recv_line_framed`.
-/

namespace AlphaMiner

open Lib

/-! ## What is wanted, and when it is had -/

def FramedStream (s : RecvState) : Prop :=
  ∃ consumed, s.received = consumed ++ cstr s.sockbuf ∧ Whole newline consumed ∧
    records newline consumed = s.returned

/-- The answers that make the reading loop give up. -/
def RecvEvent.fatal : RecvEvent → Bool
  | .closed => true
  | .failed => true
  | .again full => !full
  | .data _ => false

/-- The call ends at the socket: there is no line to return yet, and nothing to
read within the minute, or a read that fails. -/
def GivesUp (s : RecvState) (a : RecvInput) : Prop :=
  newline ∉ cstr s.sockbuf ∧ (a.full = false ∨ ∃ e ∈ a.events, e.1.fatal = true)

/-- The buffer has no token, or begins with a line that is ended; and if the
line has newlines in front of it, what follows its own newline is at most more
newlines and then the bytes that the shift will leave. -/
def FramedBuf (b : Bytes) : Prop :=
  word newline b = [] ∨
    ∃ rest, tail newline b = newline :: rest ∧
      (lead newline b = 0 ∨
        ∃ m, rest = List.replicate m newline ++
          (List.replicate (lead newline b) newline ++ word newline b).drop
            ((word newline b).length + 1))

def Framing (s : RecvState) (a : RecvInput) : Prop :=
  GivesUp s a ∨ FramedBuf (cstr s.sockbuf ++ arrived a.events)

/-! ## The reading loop -/

theorem mem_store {b : Bytes} (off : Nat) {bs : Bytes} {c : UInt8} (h : c ∈ bs) :
    c ∈ store b off bs := by
  rw [store]
  exact List.mem_append_left _ (List.mem_append_right _ h)

theorem cstr_bufferAppend {heap : Nat → UInt8} {b s : Bytes} (hb : 0 ∈ b) (hs : 0 ∉ s) :
    cstr (stratumBufferAppend heap b s) = cstr b ++ s ∧ 0 ∈ stratumBufferAppend heap b s := by
  obtain ⟨junk, hjunk⟩ := eq_cstr_append hb
  have hlen : (cstr b).length ≤ b.length := by
    rw [hjunk, cstr_append (zero_not_mem_cstr b)]
    simp
  have htake : b.take (cstr b).length = cstr b := by
    conv_lhs => rw [hjunk, cstr_append (zero_not_mem_cstr b)]
    rw [List.take_left]
  refine ⟨?_, mem_store _ (by simp)⟩
  have hkept : ∀ m : Bytes, m.take (cstr b).length = cstr b →
      cstr (store m (cstr b).length (s ++ [0])) = cstr b ++ s := by
    intro m hm
    rw [store, hm, ← List.append_assoc, List.append_assoc _ [0], List.singleton_append,
      cstr_append]
    simpa using ⟨zero_not_mem_cstr b, hs⟩
  rw [stratumBufferAppend]
  split
  · exact hkept _ ((take_realloc (by omega) hlen).trans htake)
  · exact hkept _ htake

/-- The loop leaves what was there and what came, and its answer says whether a
read failed. -/
theorem recvLoop_spec {heap : Nat → UInt8} {events : List (RecvEvent × Bool)} {b b' : Bytes}
    {ret : Bool} (h : stratumRecvLine.loop heap events b = some (ret, b')) (hb : 0 ∈ b) :
    cstr b' = cstr b ++ arrived events ∧ 0 ∈ b' ∧
      (ret = false ↔ ∃ e ∈ events, e.1.fatal = true) := by
  induction events generalizing b with
  | nil => cases h
  | cons head events ih =>
      obtain ⟨event, inTime⟩ := head
      -- what an event that does not fail leaves the rest of the loop to do
      have hproceed : ∀ {m : Bytes}, 0 ∈ m → event.fatal = false →
          cstr m = cstr b ++ arrived [(event, inTime)] →
          (if inTime ∧ newline ∉ cstr m then stratumRecvLine.loop heap events m
            else if events.isEmpty then some (true, m) else none) = some (ret, b') →
          cstr b' = cstr b ++ arrived ((event, inTime) :: events) ∧ 0 ∈ b' ∧
            (ret = false ↔ ∃ e ∈ (event, inTime) :: events, e.1.fatal = true) := by
        intro m hm hfatal hcstr hgo
        have harrived : arrived ((event, inTime) :: events) =
            arrived [(event, inTime)] ++ arrived events := by
          simp [arrived]
        rw [harrived, ← List.append_assoc, ← hcstr]
        simp only [List.mem_cons, exists_eq_or_imp, hfatal, Bool.false_eq_true, false_or]
        split at hgo
        · exact ih hgo hm
        · split at hgo
          · next hempty =>
              obtain rfl := List.isEmpty_iff.mp hempty
              cases hgo
              exact ⟨by simp [arrived], hm, by simp⟩
          · cases hgo
      have hquit : event.fatal = true →
          (if events.isEmpty then some (false, b) else none) = some (ret, b') →
          cstr b' = cstr b ++ arrived ((event, inTime) :: events) ∧ 0 ∈ b' ∧
            (ret = false ↔ ∃ e ∈ (event, inTime) :: events, e.1.fatal = true) := by
        intro hfatal hgo
        split at hgo
        · next hempty =>
            obtain rfl := List.isEmpty_iff.mp hempty
            cases hgo
            refine ⟨?_, hb, by simp [hfatal]⟩
            cases event with
            | data s => cases hfatal
            | closed | failed | again => simp [arrived]
        · cases hgo
      unfold stratumRecvLine.loop at h
      cases event with
      | closed => exact hquit rfl h
      | failed => exact hquit rfl h
      | again full =>
          cases full with
          | false => exact hquit rfl h
          | true => exact hproceed hb rfl (by simp [arrived]) h
      | data s =>
          have hs := @cstr_bufferAppend heap b s.bytes hb s.nul_free
          exact hproceed hs.2 rfl (by rw [hs.1]; simp [arrived]) h

/-! ## Taking a line -/

/-- The string left in the buffer when a token has been taken from `b`. -/
def leftover (b : Bytes) : Bytes :=
  if lead newline b = 0 then (tail newline b).drop 1
  else (List.replicate (lead newline b) newline ++ word newline b).drop
    ((word newline b).length + 1)

theorem takeLine_none {b : Bytes} (h : word newline (cstr b) = []) :
    takeLine b = (none, b) := by
  rw [takeLine, strtok_none h]

/-- A `memmove` to the front makes the string at its source the string. -/
theorem cstr_memmove {m x : Bytes} {off n : Nat} (hm : ∃ more, m.drop off = x ++ 0 :: more)
    (hx : 0 ∉ x) (hn : x.length < n) :
    cstr (store m 0 (slice m off n)) = x ∧ 0 ∈ store m 0 (slice m off n) := by
  obtain ⟨more, hm⟩ := hm
  have hslice : slice m off n = x ++ 0 :: more.take (n - x.length - 1) := by
    rw [slice, hm, List.take_append, List.take_of_length_le (by omega),
      show n - x.length = n - x.length - 1 + 1 by omega, List.take_succ_cons,
      Nat.add_sub_cancel]
  rw [hslice, store, List.take_zero, List.nil_append, List.append_assoc, List.cons_append]
  exact ⟨cstr_append hx _, by simp⟩

theorem takeLine_word {b : Bytes} (hb : 0 ∈ b) (h : word newline (cstr b) ≠ []) :
    (takeLine b).1 = some (word newline (cstr b)) ∧
      cstr (takeLine b).2 = leftover (cstr b) ∧ 0 ∈ (takeLine b).2 := by
  obtain ⟨junk, hjunk⟩ := eq_cstr_append hb
  have hfree := zero_not_mem_cstr b
  obtain ⟨behind, htok, -, hbehind⟩ := strtok_word hfree h
  rw [← hjunk] at htok
  have hcut := lead_word_tail newline (cstr b)
  have hlen := congrArg List.length hcut
  simp only [List.length_append, List.length_replicate] at hlen
  have hw : 0 ∉ word newline (cstr b) := by
    intro hmem
    apply hfree
    rw [hcut]
    exact List.mem_append_left _ (List.mem_append_right _ hmem)
  rw [takeLine, htok]
  simp only
  have hdrop : (List.replicate (lead newline (cstr b)) newline ++ word newline (cstr b) ++
      0 :: behind).drop (lead newline (cstr b)) = word newline (cstr b) ++ 0 :: behind := by
    rw [List.append_assoc, List.drop_left' (by simp)]
  rw [hdrop, cstr_append hw, leftover]
  have hzero : ∀ m : Bytes, 0 ∈ store m 0 [0] ∧ cstr (store m 0 [0]) = [] := by
    intro m
    exact ⟨by simp [store], by simp [store, cstr]⟩
  by_cases hlong : (cstr b).length > (word newline (cstr b)).length + 1
  · rw [if_pos hlong]
    refine ⟨rfl, ?_⟩
    by_cases hlead : lead newline (cstr b) = 0
    · rw [if_pos hlead]
      rcases tail_eq newline (cstr b) with ht | ⟨rest, ht⟩
      · rw [ht, List.length_nil] at hlen
        omega
      · rw [ht, List.length_cons] at hlen
        refine cstr_memmove ⟨junk, ?_⟩ ?_ ?_
        · rw [hlead, List.replicate_zero, List.nil_append, hbehind rest ht, ht]
          rw [← List.singleton_append, ← List.append_assoc, List.drop_left' (by simp)]
          rfl
        · intro hmem
          apply hfree
          rw [hcut, ht]
          exact List.mem_append_right _ (List.mem_cons_of_mem _ (by simpa [ht] using hmem))
        · rw [ht, List.drop_succ_cons, List.drop_zero]
          omega
    · -- the source of the move lies inside the token
      rw [if_neg hlead]
      refine cstr_memmove ⟨behind, ?_⟩ ?_ ?_
      · rw [List.drop_append_of_le_length]
        simp only [List.length_append, List.length_replicate]
        omega
      · intro hmem
        have hmem := List.mem_of_mem_drop hmem
        apply hfree
        rw [hcut]
        exact List.mem_append_left _ hmem
      · simp only [List.length_drop, List.length_append, List.length_replicate]
        omega
  · rw [if_neg hlong]
    refine ⟨rfl, ?_, (hzero _).1⟩
    rw [(hzero _).2]
    split
    · next hlead =>
        rcases tail_eq newline (cstr b) with ht | ⟨rest, ht⟩
        · rw [ht]
          rfl
        · rw [ht, List.length_cons] at hlen
          rw [ht, List.length_eq_zero_iff.mp (show rest.length = 0 by omega)]
          rfl
    · next hlead =>
        rw [List.drop_eq_nil_of_le]
        simp only [List.length_append, List.length_replicate]
        omega

/-! ## One call -/

theorem length_leftover_lt {b : Bytes} (h : word newline b ≠ []) :
    (leftover b).length < b.length := by
  have hlen := congrArg List.length (lead_word_tail newline b)
  have hpos := List.length_pos_of_ne_nil h
  simp only [List.length_append, List.length_replicate] at hlen
  rw [leftover]
  split
  · simp only [List.length_drop]
    omega
  · simp only [List.length_drop, List.length_append, List.length_replicate]
    omega

/-- Handing out the token keeps the stream framed in the buffers of `FramedBuf`
and in no others. -/
theorem framed_take {consumed b : Bytes} (hwhole : Whole newline consumed)
    (hw : word newline b ≠ []) :
    (∃ consumed', consumed ++ b = consumed' ++ leftover b ∧ Whole newline consumed' ∧
      records newline consumed' = records newline consumed ++ [word newline b]) ↔
        FramedBuf b := by
  have hcut := lead_word_tail newline b
  constructor
  · rintro ⟨consumed', heq, hwhole', hrec⟩
    right
    rcases List.append_eq_append_iff.mp heq with ⟨e, rfl, hb⟩ | ⟨e, rfl, he⟩
    · rw [records_append hwhole] at hrec
      obtain ⟨j, m, rfl⟩ := whole_record hwhole'.of_append (List.append_cancel_left hrec)
      rw [List.append_assoc, List.cons_append] at hb
      obtain ⟨hlead, -, htail⟩ := cut_eq (not_mem_word newline b) hw j
        (List.replicate m newline ++ leftover b)
      rw [← hb] at hlead htail
      refine ⟨_, htail, ?_⟩
      by_cases hzero : lead newline b = 0
      · exact .inl hzero
      · exact .inr ⟨m, by rw [leftover, if_neg hzero]⟩
    · -- what is consumed cannot shrink, since the string left has become shorter
      have hlt := length_leftover_lt hw
      rw [he, List.length_append] at hlt
      omega
  · rintro (hnil | ⟨rest, htail, hrest⟩)
    · exact absurd hnil hw
    · obtain ⟨m, hm⟩ : ∃ m, rest = List.replicate m newline ++ leftover b := by
        by_cases hzero : lead newline b = 0
        · exact ⟨0, by rw [leftover, if_pos hzero, htail]; rfl⟩
        · obtain ⟨m, hm⟩ := hrest.resolve_left hzero
          exact ⟨m, by rw [leftover, if_neg hzero]; exact hm⟩
      rw [htail, hm, List.append_assoc] at hcut
      refine ⟨consumed ++ (List.replicate (lead newline b) newline ++
        (word newline b ++ newline :: List.replicate m newline)), ?_, ?_, ?_⟩
      · conv_lhs => rw [hcut]
        simp only [List.append_assoc, List.cons_append]
      · refine hwhole.append (.inr ⟨List.replicate (lead newline b) newline ++
          (word newline b ++ List.replicate m newline), ?_⟩)
        rw [← List.replicate_succ, List.replicate_succ']
        simp only [List.append_assoc]
      · rw [records_append hwhole, records_replicate_append,
          records_word (not_mem_word newline b) hw, ← List.append_nil (List.replicate m _),
          records_replicate_append]
        rfl

/-- A call gives up and keeps what came, or takes a line from what there is. -/
theorem stratumRecvLine_cases {s s' : RecvState} {a : RecvInput} (hb : 0 ∈ s.sockbuf)
    (h : recvStep s a = some s') :
    s'.received = s.received ++ arrived a.events ∧
      ∃ b, 0 ∈ b ∧ cstr b = cstr s.sockbuf ++ arrived a.events ∧
        (GivesUp s a ∧ s'.sockbuf = b ∧ s'.returned = s.returned ∨
          ¬GivesUp s a ∧ s'.sockbuf = (takeLine b).2 ∧
            s'.returned = s.returned ++ (takeLine b).1.toList) := by
  rw [recvStep] at h
  split at h
  · cases h
  · next sret sockbuf hcall =>
      cases h
      refine ⟨rfl, ?_⟩
      rw [stratumRecvLine] at hcall
      split at hcall
      · next hline =>
          split at hcall
          · next hempty =>
              rw [List.isEmpty_iff.mp hempty]
              refine ⟨s.sockbuf, hb, by simp [arrived], .inr ⟨fun hg => hg.1 hline, ?_⟩⟩
              rw [Option.some.inj hcall]
              exact ⟨rfl, rfl⟩
          · cases hcall
      · next hline =>
          split at hcall
          · next hfull =>
              split at hcall
              · next hempty =>
                  cases hcall
                  rw [List.isEmpty_iff.mp hempty]
                  exact ⟨s.sockbuf, hb, by simp [arrived],
                    .inl ⟨⟨hline, .inl (by simpa using hfull)⟩, rfl, by simp⟩⟩
              · cases hcall
          · next hfull =>
              split at hcall
              · cases hcall
              · next b hloop =>
                  cases hcall
                  obtain ⟨hcstr, hzero, hret⟩ := recvLoop_spec hloop hb
                  exact ⟨_, hzero, hcstr, .inl ⟨⟨hline, .inr (hret.mp rfl)⟩, rfl, by simp⟩⟩
              · next b hloop =>
                  obtain ⟨hcstr, hzero, hret⟩ := recvLoop_spec hloop hb
                  have hgives : ¬GivesUp s a := by
                    rintro ⟨-, hg | hg⟩
                    · exact hfull (by rw [hg]; rfl)
                    · exact absurd (hret.mpr hg) nofun
                  refine ⟨b, hzero, hcstr, .inr ⟨hgives, ?_⟩⟩
                  rw [Option.some.inj hcall]
                  exact ⟨rfl, rfl⟩

theorem recvStep_framed {s s' : RecvState} {a : RecvInput} (hb : 0 ∈ s.sockbuf)
    (hs : FramedStream s) (h : recvStep s a = some s') :
    0 ∈ s'.sockbuf ∧ (FramedStream s' ↔ Framing s a) := by
  obtain ⟨consumed, hreceived, hwhole, hrec⟩ := hs
  obtain ⟨hreceived', b, hzero, hcstr, hcase⟩ := stratumRecvLine_cases hb h
  rw [hreceived, List.append_assoc, ← hcstr] at hreceived'
  have hsame : cstr s'.sockbuf = cstr b → s'.returned = s.returned → FramedStream s' := by
    intro hbuf hret
    exact ⟨consumed, by rw [hreceived', hbuf], hwhole, hrec.trans hret.symm⟩
  rw [Framing, ← hcstr]
  rcases hcase with ⟨hgives, hbuf, hret⟩ | ⟨hgives, hbuf, hret⟩
  · exact ⟨hbuf ▸ hzero, iff_of_true (hsame (by rw [hbuf]) hret) (.inl hgives)⟩
  · by_cases hw : word newline (cstr b) = []
    · rw [takeLine_none hw] at hbuf hret
      refine ⟨hbuf ▸ hzero, iff_of_true (hsame (by rw [hbuf]) ?_) (.inr (.inl hw))⟩
      rw [hret]
      exact List.append_nil _
    · obtain ⟨hfst, hleft, hzero'⟩ := takeLine_word hzero hw
      rw [hfst, ← hrec] at hret
      refine ⟨hbuf ▸ hzero', ?_⟩
      rw [FramedStream, hreceived', hbuf, hleft, hret]
      exact (framed_take hwhole hw).trans (or_iff_right hgives).symm

/-! ## A connection -/

/-- As long as no call meets an unfinished line or a blank one in a bad place,
the stream is framed; and the first call that does breaks it. -/
theorem recv_line_framed {s : RecvState} (hs : (recvConn.guard Framing).Reachable s) :
    FramedStream s ∧
      ∀ a s', recvStep s a = some s' → (FramedStream s' ↔ Framing s a) := by
  have hinv : 0 ∈ s.sockbuf ∧ FramedStream s := by
    refine hs.invariant (I := fun s => 0 ∈ s.sockbuf ∧ FramedStream s) ?_ ?_
    · rintro s ⟨-, hbuf, hreceived, hreturned⟩
      obtain ⟨junk, hbuf⟩ := List.head?_eq_some_iff.mp hbuf
      refine ⟨by simp [hbuf], [], ?_, .inl rfl, by rw [hreturned]; rfl⟩
      rw [hreceived, hbuf]
      rfl
    · rintro s a s' ⟨hb, hframed⟩ ⟨hc, h⟩
      have hstep := recvStep_framed hb hframed h
      exact ⟨hstep.1, hstep.2.mpr hc⟩
  exact ⟨hinv.2, fun a s' h => (recvStep_framed hinv.1 hinv.2 h).2⟩

/-- A connection that has just been made, and a call that reads `s` once. -/
def freshRecv : RecvState := ⟨List.replicate rbufsize 0, [], []⟩

def readOnce (s : Chunk) (inTime : Bool) : RecvInput := ⟨fun _ => 0, true, [(.data s, inTime)]⟩

theorem freshRecv_init : recvConn.init freshRecv := by
  refine ⟨?_, rfl, rfl, rfl⟩
  simp [freshRecv]

/-- What is to be seen of a call on a fresh connection. -/
def firstRead (s : Chunk) (inTime : Bool) : Option (Bytes × Bytes × List Bytes) :=
  (recvStep freshRecv (readOnce s inTime)).map fun s => (s.received, cstr s.sockbuf, s.returned)

theorem of_firstRead {s : Chunk} {inTime : Bool} {out : Bytes × Bytes × List Bytes}
    (h : firstRead s inTime = some out) :
    ∃ s', recvStep freshRecv (readOnce s inTime) = some s' ∧ s'.received = out.1 ∧
      cstr s'.sockbuf = out.2.1 ∧ s'.returned = out.2.2 := by
  obtain ⟨s', hs', rfl⟩ := Option.map_eq_some_iff.mp h
  exact ⟨s', hs', rfl, rfl, rfl⟩

/-- A line and the beginning of the next, in one read. -/
def lineAndMore : Chunk := ⟨ascii "ab\ncd", by decide, by decide, by decide⟩

theorem recv_line_framed_sample : ∃ s, s.returned = [ascii "ab"] ∧
    cstr s.sockbuf = ascii "cd" ∧ FramedStream s := by
  obtain ⟨s, hs, -, hbuf, hret⟩ := @of_firstRead lineAndMore true
    (ascii "ab\ncd", ascii "cd", [ascii "ab"]) (by decide +kernel)
  have hframing : Framing freshRecv (readOnce lineAndMore true) :=
    .inr (.inr ⟨ascii "cd", by decide +kernel, .inl (by decide +kernel)⟩)
  exact ⟨s, hret, hbuf,
    (recv_line_framed (.step (.init freshRecv_init) ⟨hframing, hs⟩)).1⟩

/-- The beginning of a line. -/
def halfLine : Chunk := ⟨ascii "ab", by decide, by decide, by decide⟩

/-- A blank line and two more. -/
def blankLine : Chunk := ⟨ascii "\nab\ncd\n", by decide, by decide, by decide⟩

/-- When the minute ends in the middle of a line, its beginning is returned as
a line; and a blank line in front of two others costs the second of them. -/
theorem recv_line_breaks :
    (∃ s, recvConn.Reachable s ∧ s.received = ascii "ab" ∧ s.returned = [ascii "ab"] ∧
      ¬FramedStream s) ∧
    ∃ s, recvConn.Reachable s ∧ s.received = ascii "\nab\ncd\n" ∧ s.returned = [ascii "ab"] ∧
      ¬FramedStream s := by
  constructor
  · obtain ⟨s, hs, hreceived, hbuf, hret⟩ := @of_firstRead halfLine false
      (ascii "ab", [], [ascii "ab"]) (by decide +kernel)
    refine ⟨s, .step (.init freshRecv_init) hs, hreceived, hret, ?_⟩
    rintro ⟨consumed, hcut, hwhole, -⟩
    rw [hbuf, hreceived, List.append_nil] at hcut
    obtain h | ⟨ys, h⟩ := hwhole
    · rw [← hcut] at h
      exact absurd h (by decide)
    · rw [← hcut] at h
      exact absurd (congrArg List.getLast? h) (by rw [List.getLast?_concat]; decide)
  · obtain ⟨s, hs, hreceived, hbuf, hret⟩ := @of_firstRead blankLine true
      (ascii "\nab\ncd\n", [], [ascii "ab"]) (by decide +kernel)
    refine ⟨s, .step (.init freshRecv_init) hs, hreceived, hret, ?_⟩
    rintro ⟨consumed, hcut, -, hrec⟩
    rw [hbuf, hreceived, List.append_nil] at hcut
    rw [← hcut, hret] at hrec
    exact absurd hrec (by decide +kernel)

end AlphaMiner
