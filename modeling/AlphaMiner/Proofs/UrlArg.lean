import AlphaMiner.Model.Options

/-!
# The argument of `-o`

A URL with credentials goes through memory that is used twice: the password in it is
overwritten by the host that was behind it (`move_host`), and the address without
credentials is put together in the copy (`server_protocol`).
-/

namespace AlphaMiner

open Lib

/-- The host moves to the front, and what is left of it behind is cleared with the
terminator: `gap` is what it moves over. -/
theorem move_host (front gap host : Bytes) :
    ∃ moved, memmove? (front ++ (gap ++ (host ++ [0]))) front.length
        (front.length + gap.length) (host ++ [0]).length = some moved ∧
      memset? moved (front.length + host.length) 0 gap.length =
        some (front ++ host ++ List.replicate (gap.length + 1) 0) := by
  refine ⟨_, memmove?_left front gap (host ++ [0]), ?_⟩
  -- the last byte of the block has been the terminator all along
  have hlast : ∃ junk : Bytes, junk.length = gap.length ∧
      [0] ++ (gap ++ (host ++ [0])).drop (host ++ [0]).length = junk ++ [0] := by
    rcases gap with _ | ⟨c, gap⟩
    · exact ⟨[], rfl, by rw [List.nil_append, List.drop_length]; rfl⟩
    · refine ⟨[0] ++ (c :: gap ++ host).drop (host ++ [0]).length, ?_, ?_⟩
      · simp only [List.length_append, List.length_drop, List.length_cons, List.length_nil]
        omega
      · rw [← List.append_assoc (c :: gap), List.drop_append_of_le_length (by simp),
          List.append_assoc]
  obtain ⟨junk, hjunk, hlast⟩ := hlast
  rw [← List.append_assoc, List.append_assoc (front ++ host), hlast, ← List.append_assoc, memset?,
    store?_middle (by rw [List.length_append]) (by rw [List.length_replicate, hjunk]),
    List.append_assoc, List.replicate_succ']

/-- What is left of a password in the memory. -/
def hidden (password : Bytes) : Bytes := if password = [] then [] else [120]

/-- The first byte of the password is overwritten, and the next one is free for the `@`. -/
theorem hide_first (front password rest : Bytes) :
    ∃ c gap, (if password = [] then (front ++ (password ++ 0 :: rest), front.length)
        else (store (front ++ (password ++ 0 :: rest)) front.length [120], front.length + 1)) =
          (front ++ hidden password ++ c :: (gap ++ rest), (front ++ hidden password).length) ∧
      password.length = (hidden password).length + gap.length := by
  rcases password with _ | ⟨d, password⟩
  · exact ⟨0, [], by simp [hidden], rfl⟩
  · rcases password with _ | ⟨c, gap⟩
    · exact ⟨0, [], by simp [hidden, store_one], rfl⟩
    · refine ⟨c, gap ++ [0], by simp [hidden, store_one], ?_⟩
      rw [hidden, if_neg (List.cons_ne_nil _ _), List.length_append, List.length_singleton,
        List.length_singleton, List.length_cons, List.length_cons]
      omega

theorem userinfo_eq (g : Settings) {front user password host : Bytes} (huser : 58 ∉ user)
    (hnul : 0 ∉ user ++ 58 :: password) (hhost : 0 ∉ host) :
    ∃ c, parseArg.userinfo g (front ++ (user ++ 58 :: password) ++ 0 :: (host ++ [0]))
        front.length (front ++ (user ++ 58 :: password)).length =
      .ok ({ g with
          rpcUserpass := some (user ++ 58 :: password), rpcUser := user, rpcPass := password },
        front ++ user ++ [58] ++ hidden password ++ c ::
          (host ++ List.replicate (password.length - (hidden password).length + 1) 0),
        (front ++ user ++ [58] ++ hidden password).length) := by
  have hmem : front ++ (user ++ 58 :: password) ++ 0 :: (host ++ [0]) =
      front ++ user ++ [58] ++ (password ++ 0 :: (host ++ [0])) := by simp
  have hcred := @strAt_middle front _ hnul _ rfl (host ++ [0])
  rw [hmem] at hcred ⊢
  have hcolon : front.length + user.length + 1 = (front ++ user ++ [58]).length := by
    simp only [List.length_append, List.length_singleton]
  have hpass : strAt (front ++ user ++ [58] ++ (password ++ 0 :: (host ++ [0])))
      (front ++ user ++ [58]).length = password := by
    rw [← List.append_assoc]
    exact strAt_middle (fun h => hnul (by simp [h])) rfl _
  have huserSlice : slice (front ++ user ++ [58] ++ (password ++ 0 :: (host ++ [0])))
      front.length user.length = user := by
    rw [slice, List.append_assoc, List.append_assoc, List.drop_left, List.take_left]
  obtain ⟨c, gap, hfirst, hgap⟩ := hide_first (front ++ user ++ [58]) password (host ++ [0])
  obtain ⟨moved, hmove, hset⟩ := move_host (front ++ user ++ [58] ++ hidden password ++ [c]) gap host
  refine ⟨c, ?_⟩
  rw [parseArg.userinfo, strchr_eq hcred huser]
  simp only [hcred, hcolon, hpass, hfirst, Nat.add_sub_cancel_left, huserSlice]
  have hend : (front ++ (user ++ 58 :: password)).length =
      (front ++ user ++ [58] ++ hidden password).length + gap.length := by
    simp only [List.length_append, List.length_cons, List.length_nil]
    omega
  have hkept : password.length - (hidden password).length = gap.length := by omega
  rw [hend, hkept]
  generalize front ++ user ++ [58] ++ hidden password = shown at hmove hset ⊢
  have hsplit : ∀ rest : Bytes, shown ++ [c] ++ rest = shown ++ c :: rest := by simp
  have hhostAt : strAt (shown ++ c :: (gap ++ (host ++ [0]))) (shown.length + gap.length + 1) =
      host := by
    rw [← hsplit, ← List.append_assoc, ← List.append_assoc]
    refine strAt_middle hhost ?_ []
    simp only [List.length_append, List.length_singleton]
    omega
  rw [List.length_append, List.length_singleton, List.length_append, List.length_singleton, hsplit,
    Nat.add_right_comm] at hmove
  rw [List.length_append, List.length_singleton, Nat.add_assoc, Nat.add_comm 1,
    List.append_assoc, hsplit] at hset
  simp only [hhostAt, hmove, Nat.add_sub_cancel_left, hset, Nat.not_lt.mpr (Nat.le_add_right _ _),
    if_false]

/-! ## The address -/

theorem hasPrefix_protocol {front : Bytes} (h : front ∈ protocols) (rest : Bytes) :
    protocols.any (hasPrefix (front ++ rest)) = true := by
  have hlower : (protocols.all fun p => p.map lowerAscii = p) = true := by decide
  have hfront : front.map lowerAscii = front := by
    simpa using List.all_eq_true.mp hlower front h
  refine List.any_eq_true.mpr ⟨front, h, ?_⟩
  rw [hasPrefix, List.take_left, hfront]
  exact decide_eq_true rfl

/-- The address is what is in front of the credentials and what is behind them. -/
theorem server_protocol (g : Settings) {arg front tail host : Bytes} {hp : Nat}
    (hfront : front ∈ protocols) (harg : strAt arg 0 = front ++ tail) (hhost : strAt arg hp = host)
    (hnul : 0 ∉ front ++ host) (hlen : host.length ≤ tail.length) :
    parseArg.server g arg front.length hp =
      .ok ({ g with
          rpcUrl := some (front ++ host)
          haveStratum := !g.optBenchmark && hasPrefix (front ++ host) (ascii "stratum") }, arg) := by
  have hne : front.length ≠ 0 := by
    have hall : (protocols.all fun p => p.length ≠ 0) = true := by decide
    simpa using List.all_eq_true.mp hall front hfront
  have hstore : store? (front ++ tail ++ [0]) front.length (host ++ [0]) =
      some (front ++ host ++ 0 :: (tail ++ [0]).drop (host ++ [0]).length) := by
    have hfits : front.length + (host ++ [0]).length ≤ (front ++ tail ++ [0]).length := by
      simp only [List.length_append]
      omega
    rw [store?, if_pos hfits, store, List.append_assoc front, List.take_left,
      ← List.drop_drop, List.drop_left]
    simp
  rw [parseArg.server]
  simp only [harg, hhost, hstore, hasPrefix_protocol hfront, ne_eq, hne, not_false_eq_true, if_true,
    Bool.true_eq_false, if_false, cstr_append hnul]

/-! ## The whole argument -/

theorem schemes_spec {scheme : Bytes}
    (h : scheme ∈ [ascii "http", ascii "https", ascii "stratum+tcp", ascii "stratum+tcps"]) :
    scheme ++ ascii "://" ∈ protocols ∧ 58 ∉ scheme ∧ 0 ∉ scheme := by
  simp only [List.mem_cons, List.not_mem_nil, or_false] at h
  rcases h with rfl | rfl | rfl | rfl <;> decide

/-- The two strings in memory with an `@` in it: all of it, and what is behind the `@`. -/
theorem url_strings {before host : Bytes} (hbefore : 0 ∉ before) (hhost : 0 ∉ host)
    (junk : Bytes) :
    strAt (before ++ 64 :: (host ++ 0 :: junk)) 0 = before ++ 64 :: host ∧
      strAt (before ++ 64 :: (host ++ 0 :: junk)) (before.length + 1) = host := by
  constructor
  · have hnul : 0 ∉ before ++ 64 :: host := by
      rw [List.mem_append, List.mem_cons, not_or, not_or]
      exact ⟨hbefore, by decide, hhost⟩
    have h := @strAt_middle [] _ hnul 0 rfl junk
    rwa [List.nil_append, List.append_assoc, List.cons_append] at h
  · have hplace : (before ++ [64]).length = before.length + 1 := by
      rw [List.length_append, List.length_singleton]
    have h := strAt_middle hhost hplace junk
    rwa [List.append_assoc, List.append_assoc] at h

/-- What the two searches find in the argument. -/
theorem url_searches {scheme cred host : Bytes} (hcolon : 58 ∉ scheme) (hat : 64 ∉ host)
    (hbefore : 0 ∉ scheme ++ ascii "://" ++ cred) (hhost : 0 ∉ host) :
    strstr (scheme ++ ascii "://" ++ cred ++ 64 :: (host ++ [0])) 0 (ascii "://") =
        some scheme.length ∧
      strrchr (scheme ++ ascii "://" ++ cred ++ 64 :: (host ++ [0])) 0 64 =
        some (scheme ++ ascii "://" ++ cred).length := by
  have htext := (url_strings hbefore hhost []).1
  constructor
  · have hneedle : ascii "://" = 58 :: [47, 47] := by decide
    have hcut := htext.trans (List.append_assoc _ cred _)
    rw [hneedle] at hcut ⊢
    rw [strstr_eq hcut hcolon, Nat.zero_add]
  · rw [strrchr_eq htext hat, Nat.zero_add]

/-- A URL with a user and a password comes apart into its parts, and one `x` of the
password is left in the memory. -/
theorem parseArg_url (g : Settings) {scheme user password host : Bytes}
    (hscheme : scheme ∈ [ascii "http", ascii "https", ascii "stratum+tcp", ascii "stratum+tcps"])
    (huser : 58 ∉ user) (hhost : 64 ∉ host) (hnul : 0 ∉ user ++ password ++ host) :
    parseArg g .url
        (scheme ++ ascii "://" ++ user ++ ascii ":" ++ password ++ ascii "@" ++ host ++ [0]) =
      .ok ({ g with
          rpcUrl := some (scheme ++ ascii "://" ++ host)
          rpcUserpass := some (user ++ ascii ":" ++ password)
          rpcUser := user
          rpcPass := password
          haveStratum :=
            !g.optBenchmark && hasPrefix (scheme ++ ascii "://" ++ host) (ascii "stratum") },
        scheme ++ ascii "://" ++ user ++ ascii ":" ++ hidden password ++ ascii "@" ++ host ++
          List.replicate (password.length - (hidden password).length + 1) 0) := by
  obtain ⟨hfront, hcolon, hscheme0⟩ := schemes_spec hscheme
  have hfront0 : 0 ∉ scheme ++ ascii "://" := by
    rw [List.mem_append, not_or]
    exact ⟨hscheme0, by decide⟩
  simp only [List.mem_append, not_or] at hnul
  obtain ⟨⟨huser0, hpassword0⟩, hhost0⟩ := hnul
  have hcred0 : 0 ∉ user ++ 58 :: password := by simp [huser0, hpassword0]
  have hbefore0 : 0 ∉ scheme ++ ascii "://" ++ (user ++ 58 :: password) := by
    rw [List.mem_append, not_or]
    exact ⟨hfront0, hcred0⟩
  have harg : scheme ++ ascii "://" ++ user ++ ascii ":" ++ password ++ ascii "@" ++ host ++ [0] =
      scheme ++ ascii "://" ++ (user ++ 58 :: password) ++ 64 :: (host ++ [0]) := by
    simp [ascii]
  have hap : scheme.length + 3 = (scheme ++ ascii "://").length := by
    rw [List.length_append]
    rfl
  obtain ⟨hprotocol, hat⟩ := url_searches hcolon hhost hbefore0 hhost0
  obtain ⟨c, hinfo⟩ := @userinfo_eq g (scheme ++ ascii "://") user password host huser hcred0 hhost0
  rw [harg, parseArg]
  simp only [hprotocol, Option.map_some, Option.getD_some, hat, store_one, hap, hinfo]
  generalize password.length - (hidden password).length = n
  -- the memory once more, with one byte of the password or none
  have hshown0 : 0 ∉ scheme ++ ascii "://" ++ user ++ [58] ++ hidden password := by
    have hhidden0 : 0 ∉ hidden password := by
      unfold hidden
      split <;> decide
    simp only [List.mem_append, not_or] at hfront0 ⊢
    exact ⟨⟨⟨hfront0, huser0⟩, by decide⟩, hhidden0⟩
  obtain ⟨htext, hbehind⟩ := url_strings hshown0 hhost0 (List.replicate n 0)
  have hsplit : scheme ++ ascii "://" ++ user ++ [58] ++ hidden password ++ 64 :: host =
      scheme ++ ascii "://" ++ (user ++ [58] ++ hidden password ++ [64] ++ host) := by
    simp only [List.append_assoc, List.cons_append, List.nil_append]
  have hurl0 : 0 ∉ scheme ++ ascii "://" ++ host := by
    rw [List.mem_append, not_or]
    exact ⟨hfront0, hhost0⟩
  have hfits : host.length ≤ (user ++ [58] ++ hidden password ++ [64] ++ host).length := by
    rw [List.length_append]
    exact Nat.le_add_left _ _
  rw [List.replicate_succ, server_protocol _ hfront (htext.trans hsplit) hbehind hurl0 hfits]
  simp [ascii]

/-- `http://u:pw@h` -/
theorem parseArg_url_sample :
    (ascii "http" ∈ [ascii "http", ascii "https", ascii "stratum+tcp", ascii "stratum+tcps"] ∧
      58 ∉ ascii "u" ∧ 64 ∉ ascii "h" ∧ 0 ∉ ascii "u" ++ ascii "pw" ++ ascii "h") ∧
    ((parseArg ⟨none, none, [], [], false, false⟩ .url
        (ascii "http" ++ ascii "://" ++ ascii "u" ++ ascii ":" ++ ascii "pw" ++ ascii "@" ++
          ascii "h" ++ [0])).map fun r => (r.1.rpcUrl, r.2)) =
      .ok (some (ascii "http://h"), ascii "http://u:x@h" ++ [0, 0]) := by
  refine ⟨by decide, ?_⟩
  rw [parseArg_url ⟨none, none, [], [], false, false⟩ (by decide) (by decide) (by decide)
    (by decide)]
  rfl

end AlphaMiner
