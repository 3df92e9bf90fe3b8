import AlphaMiner.Model.HttpReply

/-!
# The header lines of a reply

A line has a name if it has a colon, and its value is what is behind the colon without
the white space at both ends. `headerField` is this reading, and a field of
`HeaderInfo` is that of the last line which has one. The code gets there with two
loops over a line that ends in no terminator, and with two copies into buffers of its
length: a line with a colon and a byte behind it leaves room for both terminators
(`respHdrCb.parse_named`).
-/

namespace AlphaMiner

open Lib

/-! ## What a line says -/

def headerName (line : Bytes) : Option Bytes :=
  if 58 ∈ line then some (line.takeWhile (· ≠ 58)) else none

def headerValue (line : Bytes) : Bytes := trim (line.dropWhile (· ≠ 58)).tail

/-- The value, if the line has this name and the value is not empty. -/
def headerField (name : String) (line : Bytes) : Option Bytes :=
  if (headerName line).any (isNamed name) ∧ headerValue line ≠ [] then some (headerValue line)
  else none

def lastField (name : String) (lines : List Bytes) : Option Bytes :=
  (lines.filterMap (headerField name)).getLast?

theorem lastField_concat (name : String) (lines : List Bytes) (line : Bytes) :
    lastField name (lines ++ [line]) = (headerField name line).or (lastField name lines) := by
  rw [lastField, List.filterMap_append, lastField]
  cases h : headerField name line with
  | none => simp [h]
  | some v => simp [h]

/-- A line is cut at its first colon. -/
theorem exists_cut {line : Bytes} (h : 58 ∈ line) :
    ∃ name rest, line = name ++ 58 :: rest ∧ 58 ∉ name ∧ headerName line = some name ∧
      headerValue line = trim rest := by
  have hcut : line.takeWhile (· ≠ 58) ++ line.dropWhile (· ≠ 58) = line :=
    List.takeWhile_append_dropWhile
  have hname : 58 ∉ line.takeWhile (· ≠ 58) := fun hmem => by
    simpa using List.mem_takeWhile_imp hmem
  have hhead := List.head?_dropWhile_not (fun c : UInt8 => decide (c ≠ 58)) line
  cases hrest : line.dropWhile (· ≠ 58) with
  | nil =>
      rw [hrest, List.append_nil] at hcut
      rw [← hcut] at h
      exact absurd h hname
  | cons c rest =>
      rw [hrest] at hcut hhead
      obtain rfl : c = 58 := by simpa using hhead
      exact ⟨_, rest, hcut.symm, hname, if_pos h, by rw [headerValue, hrest, List.tail_cons]⟩

/-! ## The loops -/

theorem idxOf?_cut {name : Bytes} (h : 58 ∉ name) (rest : Bytes) :
    (name ++ 58 :: rest).idxOf? 58 = some name.length := by
  induction name with
  | nil => simp [List.idxOf?_cons]
  | cons c name ih =>
      rw [List.mem_cons, not_or] at h
      have hc : (c == 58) = false := beq_false_of_ne (Ne.symm h.1)
      rw [List.cons_append, List.idxOf?_cons, hc, ih h.2]
      rfl

/-- `rem` comes to stand on what is left without the white space in front. -/
theorem respHdrCb.skip_eq (rest : Bytes) : ∀ front : Bytes,
    respHdrCb.skip (front ++ rest) front.length rest.length =
      some (front.length + (rest.takeWhile isspace).length, (rest.dropWhile isspace).length) := by
  induction rest with
  | nil => exact fun _ => rfl
  | cons c rest ih =>
      intro front
      have hread : (front ++ c :: rest)[front.length]? = some c := by simp
      rw [List.length_cons, respHdrCb.skip, hread]
      simp only
      by_cases hc : isspace c
      · have hnext := ih (front ++ [c])
        rw [List.append_assoc, List.length_append, List.length_singleton] at hnext
        rw [if_pos hc, List.takeWhile_cons_of_pos hc, List.dropWhile_cons_of_pos hc,
          List.length_cons]
        refine hnext.trans ?_
        rw [Nat.add_assoc, Nat.add_comm 1]
      · rw [if_neg hc, List.takeWhile_cons_of_neg hc, List.dropWhile_cons_of_neg hc]
        rfl

/-- White space at the end is overwritten from the last character on. -/
theorem respHdrCb.trimEnd_eq (fuel : Nat) : ∀ (s junk : Bytes), 0 ∉ s → s.length < fuel →
    ∃ junk', respHdrCb.trimEnd fuel (s ++ 0 :: junk) =
      some (s.rdropWhile isspace ++ 0 :: junk') := by
  induction fuel with
  | zero => exact fun _ _ _ h => absurd h (Nat.not_lt_zero _)
  | succ fuel ih =>
      intro s junk hs hfuel
      rw [respHdrCb.trimEnd, str?_append hs]
      simp only [Option.bind_eq_bind, Option.bind_some]
      rcases List.eq_nil_or_concat s with rfl | ⟨t, c, rfl⟩
      · exact ⟨junk, rfl⟩
      · rw [List.concat_eq_append] at hs hfuel ⊢
        rw [List.getLast?_append_of_ne_nil _ (List.cons_ne_nil c []), List.getLast?_singleton]
        simp only
        by_cases hc : isspace c
        · have ht : 0 ∉ t := fun h => hs (List.mem_append_left _ h)
          have hcut : store? (t ++ [c] ++ 0 :: junk) ((t ++ [c]).length - 1) [0] =
              some (t ++ 0 :: 0 :: junk) := by
            have hlen : t.length = (t ++ [c]).length - 1 := by
              rw [List.length_append, List.length_singleton]
              rfl
            rw [@store?_middle t [c] [0] _ _ hlen rfl, List.append_assoc]
            rfl
          obtain ⟨junk', hrun⟩ := ih t (0 :: junk) ht (by simp at hfuel; omega)
          rw [if_pos hc, hcut, Option.bind_some, hrun, List.rdropWhile_concat_pos _ _ _ hc]
          exact ⟨junk', rfl⟩
        · rw [if_neg hc, List.rdropWhile_concat_neg _ _ _ hc]
          exact ⟨junk, rfl⟩

/-! ## One line -/

/-- A part of the line that is not the whole line leaves room for its terminator. -/
theorem respHdrCb.copy_eq {front part behind : Bytes}
    (h : part.length < (front ++ part ++ behind).length) :
    ∃ junk, respHdrCb.copy (front ++ part ++ behind) front.length part.length =
      some (part ++ 0 :: junk) := by
  obtain ⟨k, hk⟩ : ∃ k, (front ++ part ++ behind).length = part.length + (k + 1) :=
    ⟨(front ++ part ++ behind).length - part.length - 1, by omega⟩
  have hcut : List.replicate (part.length + (k + 1)) (0 : UInt8) =
      [] ++ List.replicate part.length 0 ++ List.replicate (k + 1) 0 := by
    rw [List.nil_append, List.replicate_append_replicate]
  have hpart := @store?_middle [] (.replicate part.length 0) part (.replicate (k + 1) 0) 0 rfl
    (by rw [List.length_replicate])
  have hzero := @store?_middle part [0] [0] (.replicate k 0) _ rfl rfl
  rw [← hcut, List.nil_append] at hpart
  rw [List.append_assoc part, List.singleton_append, ← List.replicate_succ] at hzero
  refine ⟨.replicate k 0, ?_⟩
  simp only [respHdrCb.copy, slice?_middle rfl, Option.bind_eq_bind, Option.bind_some, hk, hpart,
    hzero]
  rw [List.replicate_succ]

/-- A line with a name: the copies have room, and what they leave is the name and the
trimmed value. -/
theorem respHdrCb.parse_named {name rest : Bytes} (hcolon : 58 ∉ name)
    (hnul : 0 ∉ name ++ 58 :: rest) :
    respHdrCb.parse (name ++ 58 :: rest) =
      some (if name ≠ [] ∧ trim rest ≠ [] then some (name, trim rest) else none) := by
  have hlen : (name ++ 58 :: rest).length = name.length + 1 + rest.length := by
    simp
    omega
  rw [respHdrCb.parse, idxOf?_cut hcolon]
  simp only [List.length_eq_zero_iff]
  by_cases hname : name = []
  · rw [if_pos hname, if_neg (fun h => h.1 hname)]
  rw [if_neg hname]
  by_cases hrest : rest = []
  · rw [hrest, if_pos (by simp), if_neg (fun h => h.2 rfl)]
  have hnamePos := List.length_pos_of_ne_nil hname
  have hrestPos := List.length_pos_of_ne_nil hrest
  rw [if_neg (by omega)]
  have hnameNul : 0 ∉ name := fun h => hnul (List.mem_append_left _ h)
  obtain ⟨keyJunk, hkey⟩ := @respHdrCb.copy_eq [] name (58 :: rest) (by
    rw [List.nil_append, hlen]
    omega)
  -- the value, behind white space
  have hskip := respHdrCb.skip_eq rest (name ++ [58])
  have hcut : rest.takeWhile isspace ++ rest.dropWhile isspace = rest :=
    List.takeWhile_append_dropWhile
  have htrim : trim rest = (rest.dropWhile isspace).rdropWhile isspace := rfl
  generalize rest.takeWhile isspace = blanks at hskip hcut
  generalize rest.dropWhile isspace = body at hskip hcut htrim
  have hline : name ++ [58] ++ blanks ++ body = name ++ 58 :: rest := by
    rw [← hcut]
    simp
  obtain ⟨valJunk, hval⟩ := @respHdrCb.copy_eq (name ++ [58] ++ blanks) body [] (by
    simp
    omega)
  have hbodyNul : 0 ∉ body := fun h => hnul (hline ▸ List.mem_append_right _ h)
  obtain ⟨valJunk', htrimEnd⟩ := respHdrCb.trimEnd_eq (body.length + 1) body valJunk hbodyNul
    (Nat.lt_succ_self _)
  have hvalueNul : 0 ∉ body.rdropWhile isspace := fun h =>
    hbodyNul ((List.rdropWhile_prefix isspace body).mem h)
  rw [List.nil_append, List.length_nil] at hkey
  rw [List.append_nil, hline, List.length_append, List.length_append, List.length_singleton] at hval
  rw [List.append_assoc, List.singleton_append, List.length_append, List.length_singleton] at hskip
  have hleft : (name ++ 58 :: rest).length - name.length - 1 = rest.length := by omega
  simp only [hkey, hleft, hskip, hval, htrimEnd, str?_append hvalueNul, str?_append hnameNul,
    Option.bind_eq_bind, Option.bind_some, htrim]
  by_cases hvalue : body.rdropWhile isspace = []
  · rw [if_pos hvalue, if_neg (fun h => h.2 hvalue)]
  · rw [if_neg hvalue, if_pos ⟨hname, hvalue⟩]

/-- A line has one name at most. -/
theorem isNamed_unique {a b : String} {key : Bytes} (ha : isNamed a key = true)
    (hab : (ascii a).map lowerAscii ≠ (ascii b).map lowerAscii) : isNamed b key = false := by
  rw [Bool.eq_false_iff]
  intro hb
  simp only [isNamed, decide_eq_true_eq] at ha hb
  exact hab (ha.trans hb.symm)

/-- The line replaces the field that it names. -/
def HeaderInfo.update (long : LongWidth) (hi : HeaderInfo) (line : Bytes) : HeaderInfo where
  lpPath := (headerField "X-Long-Polling" line).or hi.lpPath
  reason := (headerField "X-Reject-Reason" line).or hi.reason
  stratumUrl := (headerField "X-Stratum" line).or hi.stratumUrl
  contentLength := ((headerField "Content-Length" line).map (strtoul long)).getD hi.contentLength

theorem HeaderInfo.update_of_none (long : LongWidth) (hi : HeaderInfo) {line : Bytes}
    (h : ∀ name ∈ ["X-Long-Polling", "X-Reject-Reason", "X-Stratum", "Content-Length"],
      headerField name line = none) : hi.update long line = hi := by
  simp only [List.forall_mem_cons, List.not_mem_nil, false_implies, implies_true, and_true] at h
  simp [update, h]

/-- A line that names none of the fields, or has no value, is skipped or falls through. -/
theorem respHdrCb_named (long : LongWidth) (hi : HeaderInfo) {name rest : Bytes}
    (hparse : respHdrCb.parse (name ++ 58 :: rest) = some (some (name, trim rest)))
    (hfield : ∀ n, headerField n (name ++ 58 :: rest) =
      if isNamed n name then some (trim rest) else none) :
    respHdrCb long hi true (name ++ 58 :: rest) =
      some (hi.update long (name ++ 58 :: rest)) := by
  rw [respHdrCb, hparse, HeaderInfo.update]
  simp only [hfield, respHdrCb.steal, Bool.not_true, Bool.false_eq_true, if_false]
  by_cases hpath : isNamed "X-Long-Polling" name = true
  · simp [hpath, isNamed_unique hpath (show _ ≠ (ascii "X-Reject-Reason").map lowerAscii by decide),
      isNamed_unique hpath (show _ ≠ (ascii "X-Stratum").map lowerAscii by decide),
      isNamed_unique hpath (show _ ≠ (ascii "Content-Length").map lowerAscii by decide)]
  by_cases hreason : isNamed "X-Reject-Reason" name = true
  · simp [hpath, hreason,
      isNamed_unique hreason (show _ ≠ (ascii "X-Stratum").map lowerAscii by decide),
      isNamed_unique hreason (show _ ≠ (ascii "Content-Length").map lowerAscii by decide)]
  by_cases hurl : isNamed "X-Stratum" name = true
  · simp [hpath, hreason, hurl,
      isNamed_unique hurl (show _ ≠ (ascii "Content-Length").map lowerAscii by decide)]
  by_cases hlength : isNamed "Content-Length" name = true
  · simp [hpath, hreason, hurl, hlength]
  · simp [hpath, hreason, hurl, hlength]

theorem respHdrCb_eq (long : LongWidth) (hi : HeaderInfo) {line : Bytes} (hnul : 0 ∉ line) :
    respHdrCb long hi true line = some (hi.update long line) := by
  have hskipped : respHdrCb.parse line = some none →
      (∀ name ∈ ["X-Long-Polling", "X-Reject-Reason", "X-Stratum", "Content-Length"],
        headerField name line = none) →
      respHdrCb long hi true line = some (hi.update long line) := by
    intro hparse hfield
    rw [respHdrCb, hparse, hi.update_of_none long hfield]
    rfl
  by_cases hcolon : 58 ∈ line
  · obtain ⟨name, rest, rfl, hname, hheader, hvalue⟩ := exists_cut hcolon
    have hfield : ∀ n, headerField n (name ++ 58 :: rest) =
        if isNamed n name ∧ trim rest ≠ [] then some (trim rest) else none := by
      intro n
      rw [headerField, hheader, hvalue]
      rfl
    have hparse := respHdrCb.parse_named hname hnul
    by_cases hempty : name = []
    · rw [if_neg fun h => h.1 hempty] at hparse
      refine hskipped hparse fun n hn => ?_
      have hunnamed : isNamed n name = false := by
        rw [hempty]
        revert n
        decide
      rw [hfield, hunnamed]
      rfl
    by_cases hblank : trim rest = []
    · rw [if_neg fun h => h.2 hblank] at hparse
      exact hskipped hparse fun n _ => by rw [hfield, if_neg fun h => h.2 hblank]
    · rw [if_pos ⟨hempty, hblank⟩] at hparse
      exact respHdrCb_named long hi hparse fun n => by simp [hfield, hblank]
  · refine hskipped ?_ fun name _ => ?_
    · rw [respHdrCb.parse, List.idxOf?_eq_none_iff.mpr hcolon]
    · rw [headerField, headerName, if_neg hcolon]
      rfl

/-! ## All lines of a reply -/

/-- The lines for which there was memory. -/
def seenLines (calls : List HeaderCall) : List Bytes :=
  (calls.filter HeaderCall.memory).map HeaderCall.ptr

/-- What is recorded once these lines have come. -/
def HeaderInfo.after (long : LongWidth) (lines : List Bytes) : HeaderInfo where
  lpPath := lastField "X-Long-Polling" lines
  reason := lastField "X-Reject-Reason" lines
  stratumUrl := lastField "X-Stratum" lines
  contentLength := ((lastField "Content-Length" lines).map (strtoul long)).getD 0

theorem HeaderInfo.update_after (long : LongWidth) (lines : List Bytes) (line : Bytes) :
    (HeaderInfo.after long lines).update long line = HeaderInfo.after long (lines ++ [line]) := by
  rw [after, after, update]
  simp only [lastField_concat, mk.injEq, true_and]
  cases headerField "Content-Length" line <;> rfl

theorem HeaderInfo.receive_all (long : LongWidth) {calls : List HeaderCall} :
    (∀ c ∈ calls, 0 ∉ c.ptr) → ∀ lines : List Bytes,
      calls.foldlM (HeaderInfo.receive long) (HeaderInfo.after long lines) =
        some (HeaderInfo.after long (lines ++ seenLines calls)) := by
  induction calls with
  | nil =>
      intro _ lines
      rw [show seenLines [] = [] from rfl, List.append_nil]
      rfl
  | cons c calls ih =>
      intro hnul lines
      rw [List.forall_mem_cons] at hnul
      obtain ⟨ptr, memory⟩ := c
      rw [List.foldlM_cons, HeaderInfo.receive]
      cases memory with
      | false =>
          have hsame : respHdrCb long (HeaderInfo.after long lines) false ptr =
              some (HeaderInfo.after long lines) := rfl
          rw [hsame]
          exact ih hnul.2 lines
      | true =>
          have hnext := ih hnul.2 (lines ++ [ptr])
          rw [List.append_assoc] at hnext
          rw [respHdrCb_eq long _ hnul.1, HeaderInfo.update_after]
          exact hnext

/-- Every field is that of the last line which has one, and the other lines change
nothing. -/
theorem respHdrCb_lines (long : LongWidth) {calls : List HeaderCall}
    (hnul : ∀ c ∈ calls, 0 ∉ c.ptr) :
    ∃ hi, calls.foldlM (HeaderInfo.receive long) .start = some hi ∧
      hi.lpPath = lastField "X-Long-Polling" (seenLines calls) ∧
      hi.reason = lastField "X-Reject-Reason" (seenLines calls) ∧
      hi.stratumUrl = lastField "X-Stratum" (seenLines calls) ∧
      hi.contentLength =
        ((lastField "Content-Length" (seenLines calls)).map (strtoul long)).getD 0 ∧
      ∀ line memory, 0 ∉ line →
        (∀ name ∈ ["X-Long-Polling", "X-Reject-Reason", "X-Stratum", "Content-Length"],
          headerField name line = none) →
        respHdrCb long hi memory line = some hi := by
  refine ⟨HeaderInfo.after long (seenLines calls), ?_, rfl, rfl, rfl, rfl, ?_⟩
  · exact HeaderInfo.receive_all long hnul []
  · intro line memory hline hfield
    cases memory with
    | false => rfl
    | true => rw [respHdrCb_eq long _ hline, HeaderInfo.update_of_none long _ hfield]

def sampleHeaders : List HeaderCall :=
  [⟨ascii "HTTP/1.1 200 OK\r\n", true⟩, ⟨ascii "x-stratum: \tstratum+tcp://h:1 \r\n", true⟩,
    ⟨ascii "X-Stratum:\r\n", true⟩, ⟨ascii "CONTENT-LENGTH:12", true⟩, ⟨[], true⟩, ⟨[58], true⟩]

theorem respHdrCb_lines_sample :
    (∀ c ∈ sampleHeaders, 0 ∉ c.ptr) ∧
    ∃ hi, sampleHeaders.foldlM (HeaderInfo.receive .bits64) .start = some hi ∧
      hi.lpPath = none ∧ hi.stratumUrl = some (ascii "stratum+tcp://h:1") ∧
      hi.contentLength = 12 := by
  refine ⟨by decide, ?_⟩
  obtain ⟨hi, hrun, hpath, -, hurl, hlength, -⟩ :=
    @respHdrCb_lines .bits64 sampleHeaders (by decide)
  exact ⟨hi, hrun, hpath.trans (by decide), hurl.trans (by decide), hlength.trans (by decide)⟩

end AlphaMiner
