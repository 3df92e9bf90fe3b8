import AlphaMiner.Model.Options

/-!
# Which account the options name

An option says something about the account or nothing (`Account`), and what it says
is in the text of its argument alone. Three variables hold it. A pair of user and
password sets all three of them, while a user or a password by itself leaves the
combined one as it is. `main` puts the combined one together only if no pair was
given, so that what follows a pair counts for the one protocol and not for the
other (`mainSettings_userpass`).
-/

namespace AlphaMiner

open Lib

/-! ## What is said about the account -/

inductive Account where
  | pair (user pass : Bytes)
  | user (user : Bytes)
  | pass (pass : Bytes)
  | nothing

/-- The three variables. -/
structure Credentials where
  userpass : Option Bytes
  user : Bytes
  pass : Bytes

def Settings.credentials (g : Settings) : Credentials := ⟨g.rpcUserpass, g.rpcUser, g.rpcPass⟩

def Credentials.say (c : Credentials) : Account → Credentials
  | .pair user pass => ⟨some (user ++ ascii ":" ++ pass), user, pass⟩
  | .user user => { c with user := user }
  | .pass pass => { c with pass := pass }
  | .nothing => c

/-- What is in front of the first `c` and what is behind it. -/
def cutAt (c : UInt8) (s : Bytes) : Option (Bytes × Bytes) :=
  if c ∈ s then some (s.takeWhile (· ≠ c), (s.dropWhile (· ≠ c)).tail) else none

theorem cutAt_eq {c : UInt8} {u : Bytes} (hu : c ∉ u) (v : Bytes) :
    cutAt c (u ++ c :: v) = some (u, v) := by
  have hne : ∀ a ∈ u, decide (a ≠ c) = true := fun a ha => by
    simpa using ne_of_mem_of_not_mem ha hu
  rw [cutAt, if_pos (by simp), List.takeWhile_append_of_pos hne, List.dropWhile_append_of_pos hne,
    List.takeWhile_cons_of_neg (by simp), List.dropWhile_cons_of_neg (by simp), List.append_nil,
    List.tail_cons]

/-- The part of a URL behind its protocol. -/
def behindProtocol (s : Bytes) : Bytes :=
  s.drop (((strstr (s ++ [0]) 0 (ascii "://")).map (· + 3)).getD 0)

/-- The credentials of a URL are what is in front of the last `@`. -/
def urlAccount (s : Bytes) : Account :=
  match cutAt 64 (behindProtocol s).reverse with
  | none => .nothing
  | some (_, front) =>
      match cutAt 58 front.reverse with
      | some (user, pass) => .pair user pass
      | none => .user front.reverse

/-- What an option says with the argument `s`. -/
def OptionKey.account (key : OptionKey) (s : Bytes) : Account :=
  match key with
  | .url => urlAccount s
  | .userpass => ((cutAt 58 s).map fun up => Account.pair up.1 up.2).getD .nothing
  | .user => .user s
  | .pass => .pass s
  | .benchmark => .nothing

/-- What an entry of a configuration file says. -/
def configAccount (config : Json) (entry : String × Bool × Option OptionKey) : List Account :=
  match jsonObjectGet (some config) entry.1, entry.2.2 with
  | some (.string s), some key => [key.account (cstr s)]
  | some (.bool true), some key => [key.account []]
  | _, _ => []

/-- What is said on the command line, where a file counts for all of its options in the
order in which they are read. -/
def CommandArg.accounts : CommandArg → List Account
  | .option key arg => [key.account arg.1]
  | .config _ _ (some file) => optionTable.flatMap (configAccount file)
  | .config _ _ none => []

/-! ## A run of options -/

def Account.isPair : Account → Bool
  | .pair _ _ => true
  | _ => false

def Account.user? : Account → Option Bytes
  | .user u => some u
  | _ => none

def Account.pass? : Account → Option Bytes
  | .pass p => some p
  | _ => none

def lastUser (said : List Account) : Option Bytes := (said.filterMap Account.user?).getLast?

def lastPass (said : List Account) : Option Bytes := (said.filterMap Account.pass?).getLast?

/-- Behind the last pair the user and the password are not changed, or they are changed
into two that are written in the same way. -/
def InStep (said : List Account) : Prop :=
  ∀ before user pass after, said = before ++ .pair user pass :: after →
    (∀ a ∈ after, a.isPair = false) →
    (lastUser after).getD user ++ ascii ":" ++ (lastPass after).getD pass =
      user ++ ascii ":" ++ pass

theorem foldl_say_single {said : List Account} : ∀ c : Credentials,
    (∀ a ∈ said, a.isPair = false) →
    said.foldl Credentials.say c =
      ⟨c.userpass, (lastUser said).getD c.user, (lastPass said).getD c.pass⟩ := by
  induction said with
  | nil =>
      intro c _
      rfl
  | cons a said ih =>
      intro c h
      rw [List.foldl_cons, ih _ fun b hb => h b (List.mem_cons_of_mem a hb)]
      cases a with
      | pair user pass => exact absurd (h _ List.mem_cons_self) (by simp [Account.isPair])
      | user u =>
          have hlast : lastUser (.user u :: said) = some ((lastUser said).getD u) :=
            List.getLast?_cons
          rw [hlast]
          rfl
      | pass p =>
          have hlast : lastPass (.pass p :: said) = some ((lastPass said).getD p) :=
            List.getLast?_cons
          rw [hlast]
          rfl
      | nothing => rfl

theorem exists_last_pair {said : List Account} (h : ∃ a ∈ said, a.isPair = true) :
    ∃ before user pass after, said = before ++ .pair user pass :: after ∧
      ∀ a ∈ after, a.isPair = false := by
  induction said with
  | nil =>
      obtain ⟨a, ha, -⟩ := h
      cases ha
  | cons b said ih =>
      by_cases hsaid : ∃ a ∈ said, a.isPair = true
      · obtain ⟨before, user, pass, after, rfl, hafter⟩ := ih hsaid
        exact ⟨b :: before, user, pass, after, rfl, hafter⟩
      · obtain ⟨a, ha, hpair⟩ := h
        obtain rfl := (List.mem_cons.mp ha).resolve_right fun hmem => hsaid ⟨a, hmem, hpair⟩
        cases a with
        | pair user pass =>
            exact ⟨[], user, pass, said, rfl, fun a ha =>
              Bool.eq_false_iff.mpr fun hpair => hsaid ⟨a, ha, hpair⟩⟩
        | _ => cases hpair

/-- The combined variable is completed at the end, if no pair has set it. -/
theorem inStep_iff (said : List Account) :
    ((said.foldl Credentials.say ⟨none, [], []⟩).userpass.getD
        ((said.foldl Credentials.say ⟨none, [], []⟩).user ++ ascii ":" ++
          (said.foldl Credentials.say ⟨none, [], []⟩).pass) =
      (said.foldl Credentials.say ⟨none, [], []⟩).user ++ ascii ":" ++
        (said.foldl Credentials.say ⟨none, [], []⟩).pass) ↔ InStep said := by
  have hfinal : ∀ before user pass after, said = before ++ .pair user pass :: after →
      (∀ a ∈ after, a.isPair = false) →
      said.foldl Credentials.say ⟨none, [], []⟩ =
        ⟨some (user ++ ascii ":" ++ pass), (lastUser after).getD user,
          (lastPass after).getD pass⟩ := by
    intro before user pass after hsaid hafter
    rw [hsaid, List.foldl_append, List.foldl_cons, foldl_say_single _ hafter]
    rfl
  constructor
  · intro h before user pass after hsaid hafter
    rw [hfinal before user pass after hsaid hafter] at h
    exact h.symm
  · intro h
    by_cases hpair : ∃ a ∈ said, a.isPair = true
    · obtain ⟨before, user, pass, after, hsaid, hafter⟩ := exists_last_pair hpair
      rw [hfinal before user pass after hsaid hafter]
      exact (h before user pass after hsaid hafter).symm
    · have hnone : ∀ a ∈ said, a.isPair = false := fun a ha =>
        Bool.eq_false_iff.mpr fun h => hpair ⟨a, ha, h⟩
      rw [foldl_say_single _ hnone]
      rfl

/-! ## The protocol of a URL -/

theorem lowerAscii_eq {c d : UInt8} (hd : d < 65) (h : lowerAscii c = d) : c = d := by
  unfold lowerAscii at h
  split at h
  · next hc =>
      simp only [Bool.and_eq_true, decide_eq_true_eq, UInt8.le_iff_toNat_le] at hc
      rw [← h, UInt8.lt_iff_toNat_lt, UInt8.toNat_add] at hd
      simp at hc hd
      omega
  · exact h

theorem map_lowerAscii_mark {t : Bytes} (h : t.map lowerAscii = ascii "://") : t = ascii "://" := by
  obtain ⟨a, t, rfl, ha, h⟩ := List.map_eq_cons_iff.mp h
  obtain ⟨b, t, rfl, hb, h⟩ := List.map_eq_cons_iff.mp h
  obtain ⟨c, t, rfl, hc, h⟩ := List.map_eq_cons_iff.mp h
  rw [lowerAscii_eq (by decide) ha, lowerAscii_eq (by decide) hb, lowerAscii_eq (by decide) hc,
    List.map_eq_nil_iff.mp h]
  rfl

/-- A URL that begins with a known protocol has no `@` before the end of it. -/
theorem protocol_front {s : Bytes} (hs : 0 ∉ s) (h : protocols.any (hasPrefix s) = true) :
    ∃ i, strstr (s ++ [0]) 0 (ascii "://") = some i ∧ 64 ∉ s.take (i + 3) := by
  obtain ⟨p, hp, hfront⟩ := List.any_eq_true.mp h
  rw [hasPrefix, decide_eq_true_eq] at hfront
  have hprotocols : (protocols.all fun p =>
      !p.contains 64 && decide (p.drop (p.length - 3) = ascii "://") && decide (3 ≤ p.length)) =
        true := by decide
  have hp := List.all_eq_true.mp hprotocols p hp
  simp only [Bool.and_eq_true, Bool.not_eq_true', decide_eq_true_eq] at hp
  obtain ⟨⟨hat, hend⟩, hlen⟩ := hp
  have hsize : p.length ≤ s.length := by
    have h := congrArg List.length hfront
    rw [List.length_map, List.length_take] at h
    omega
  have hmark : ascii "://" <+: s.drop (p.length - 3) := by
    rw [← hfront, List.length_map, List.length_take, Nat.min_eq_left hsize, ← List.map_drop] at hend
    rw [← map_lowerAscii_mark hend, List.drop_take]
    exact List.take_prefix _ _
  have htext : strAt (s ++ [0]) 0 = s := strAt_drop hs (Nat.zero_le _) []
  obtain ⟨j, hj, hfind⟩ := @strstr_le (s ++ [0]) (ascii "://") 0 (p.length - 3)
    (by rw [htext]; omega) (by rwa [htext])
  refine ⟨j, by rw [hfind, Nat.zero_add], fun hmem => ?_⟩
  have hmem' : 64 ∈ s.take p.length :=
    List.take_subset_take_left s (by omega) hmem
  have hlower : lowerAscii 64 ∈ p := by
    rw [← hfront]
    exact List.mem_map_of_mem hmem'
  exact absurd (List.contains_iff_mem.mpr hlower) (by rw [show lowerAscii 64 = 64 from rfl, hat]; decide)

/-! ## One option -/

/-- The three searches for the credentials of a URL. -/
theorem userinfo_ok {g g' : Settings} {arg arg' : Bytes} {ap hp q : Nat}
    (h : parseArg.userinfo g arg ap hp = .ok (g', arg', q)) :
    (∃ u w, cutAt 58 (strAt arg ap) = some (u, w) ∧
      g'.credentials = g.credentials.say (.pair u w) ∧ ap ≤ hp) ∨
    (cutAt 58 (strAt arg ap) = none ∧ g'.credentials = g.credentials.say (.user (strAt arg ap)) ∧
      arg' = arg ∧ q = hp) := by
  by_cases hmem : 58 ∈ strAt arg ap
  · refine .inl ?_
    obtain ⟨u, w, htext, hu⟩ := List.eq_append_cons_of_mem hmem
    obtain ⟨huser, hpass⟩ := strAt_split htext
    rw [parseArg.userinfo, strchr_eq htext hu] at h
    simp only [Nat.add_sub_cancel_left, huser, hpass, htext] at h
    refine ⟨u, w, by rw [htext, cutAt_eq hu], ?_⟩
    have hplace : ap ≤ (if w = [] then (arg, ap + u.length + 1)
        else (store arg (ap + u.length + 1) [120], ap + u.length + 1 + 1)).2 := by
      split
      · exact Nat.le_trans (Nat.le_add_right _ _) (Nat.le_add_right _ 1)
      · exact Nat.le_trans (Nat.le_add_right _ _) (Nat.le_add_right _ 2)
    generalize (if w = [] then (arg, ap + u.length + 1)
      else (store arg (ap + u.length + 1) [120], ap + u.length + 1 + 1)) = argp at h hplace
    cases hmove : memmove? argp.1 (argp.2 + 1) (hp + 1) ((strAt argp.1 (hp + 1)).length + 1) with
    | none =>
        rw [hmove] at h
        cases h
    | some moved =>
        simp only [hmove] at h
        by_cases hlt : hp < argp.2
        · rw [if_pos hlt] at h
          cases h
        · rw [if_neg hlt] at h
          cases hset : memset? moved (argp.2 + ((strAt argp.1 (hp + 1)).length + 1)) 0
              (hp - argp.2) with
          | none =>
              rw [hset] at h
              cases h
          | some cleared =>
              simp only [hset] at h
              cases h
              refine ⟨?_, Nat.le_trans hplace (Nat.le_of_not_lt hlt)⟩
              simp [Settings.credentials, Credentials.say, ascii]
  · refine .inr ⟨if_neg hmem, ?_⟩
    rw [parseArg.userinfo, strchr_none hmem] at h
    cases h
    exact ⟨rfl, rfl, rfl⟩

theorem server_ok {g g' : Settings} {arg arg' : Bytes} {ap hp : Nat}
    (h : parseArg.server g arg ap hp = .ok (g', arg')) :
    g'.credentials = g.credentials ∧
      (ap ≠ 0 → protocols.any (hasPrefix (strAt arg 0)) = true) := by
  rw [parseArg.server] at h
  by_cases hap : ap ≠ 0
  · simp only [if_pos hap] at h
    by_cases hprotocol : protocols.any (hasPrefix (strAt arg 0)) = false
    · rw [if_pos hprotocol] at h
      cases h
    · rw [if_neg hprotocol] at h
      cases hurl : store? (strAt arg 0 ++ [0]) ap (strAt arg hp ++ [0]) with
      | none =>
          rw [hurl] at h
          cases h
      | some url =>
          rw [hurl] at h
          cases h
          exact ⟨rfl, fun _ => Bool.eq_true_of_not_eq_false hprotocol⟩
  · simp only [if_neg hap] at h
    split at h
    · cases h
    · cases h
      exact ⟨rfl, fun h => absurd h hap⟩

theorem parseArg_url_credentials {g g' : Settings} {s arg' : Bytes} (hs : 0 ∉ s)
    (h : parseArg g .url (s ++ [0]) = .ok (g', arg')) :
    g'.credentials = g.credentials.say (urlAccount s) := by
  have htext : strAt (s ++ [0]) 0 = s := strAt_drop hs (Nat.zero_le _) []
  rw [urlAccount, behindProtocol]
  simp only [parseArg] at h
  have hfront : ((strstr (s ++ [0]) 0 (ascii "://")).map (· + 3)).getD 0 ≠ 0 →
      protocols.any (hasPrefix s) = true →
      64 ∉ s.take (((strstr (s ++ [0]) 0 (ascii "://")).map (· + 3)).getD 0) := by
    intro _ hprotocol
    obtain ⟨i, hfind, hat⟩ := protocol_front hs hprotocol
    rw [hfind]
    exact hat
  generalize ((strstr (s ++ [0]) 0 (ascii "://")).map (· + 3)).getD 0 = ap at h hfront ⊢
  by_cases hat : 64 ∈ s
  · obtain ⟨front, host, rfl, hhost⟩ := exists_last hat
    have hmem : front ++ 64 :: host ++ [0] = front ++ 64 :: (host ++ [0]) :=
      List.append_assoc front (64 :: host) [0]
    have hfront0 : 0 ∉ front := fun h => hs (by simp [h])
    rw [strrchr_eq htext hhost, Nat.zero_add, hmem] at h
    simp only [store_one] at h
    cases hinfo : parseArg.userinfo g (front ++ 0 :: (host ++ [0])) ap front.length with
    | error e =>
        rw [hinfo] at h
        cases h
    | ok r =>
        obtain ⟨g₁, arg₁, hp⟩ := r
        simp only [hinfo] at h
        obtain ⟨hserver, hprotocol⟩ := server_ok h
        have hle : ap ≤ front.length := by
          obtain ⟨-, -, -, -, hle⟩ | ⟨-, -, rfl, rfl⟩ := userinfo_ok hinfo
          · exact hle
          · by_contra hlt
            rw [store_one, ← hmem, htext] at hprotocol
            apply hfront (by omega) (hprotocol (by omega))
            rw [List.take_append, List.take_cons (by omega)]
            simp
        have hcred : strAt (front ++ 0 :: (host ++ [0])) ap = front.drop ap :=
          strAt_drop hfront0 hle _
        have hcut : cutAt 64 ((front ++ 64 :: host).drop ap).reverse =
            some (host.reverse, (front.drop ap).reverse) := by
          rw [List.drop_append_of_le_length hle, List.reverse_append, List.reverse_cons,
            List.append_assoc]
          exact cutAt_eq (by simpa using hhost) _
        rw [hcut, hserver]
        simp only [List.reverse_reverse]
        obtain ⟨u, w, hcolon, hinfo, -⟩ | ⟨hcolon, hinfo, -, -⟩ := userinfo_ok hinfo
        · rw [hcred] at hcolon
          rw [hcolon, hinfo]
        · rw [hcred] at hcolon hinfo
          rw [hcolon, hinfo]
  · rw [strrchr_none (by rwa [htext])] at h
    have hnone : cutAt 64 (s.drop ap).reverse = none :=
      if_neg fun hmem => hat (List.mem_of_mem_drop (List.mem_reverse.mp hmem))
    rw [hnone]
    exact (server_ok h).1

/-- Every option says about the account what is in its argument. -/
theorem parseArg_credentials {g g' : Settings} {key : OptionKey} {s arg' : Bytes} (hs : 0 ∉ s)
    (h : parseArg g key (s ++ [0]) = .ok (g', arg')) :
    g'.credentials = g.credentials.say (key.account s) := by
  have htext : strAt (s ++ [0]) 0 = s := strAt_drop hs (Nat.zero_le _) []
  cases key with
  | url => exact parseArg_url_credentials hs h
  | userpass =>
      by_cases hmem : 58 ∈ s
      · obtain ⟨u, v, rfl, hu⟩ := List.eq_append_cons_of_mem hmem
        obtain ⟨huser, hpass⟩ := strAt_split htext
        rw [parseArg, strchr_eq htext hu] at h
        simp only [Nat.zero_add] at h huser hpass
        cases h
        simp only [OptionKey.account, cutAt_eq hu, Settings.credentials, htext, huser, hpass]
        simp [Credentials.say, ascii]
      · rw [parseArg, strchr_none (by rwa [htext])] at h
        cases h
  | user =>
      cases h
      simp [Settings.credentials, htext, OptionKey.account, Credentials.say]
  | pass =>
      cases h
      simp [Settings.credentials, htext, OptionKey.account, Credentials.say]
  | benchmark =>
      cases h
      rfl

/-! ## All options -/

theorem foldlM_credentials {α : Type*} {step : Settings → α → Except ArgError Settings}
    {said : α → List Account}
    (hstep : ∀ g a g', step g a = .ok g' →
      g'.credentials = (said a).foldl Credentials.say g.credentials) (l : List α) :
    ∀ g g', l.foldlM step g = .ok g' →
      g'.credentials = (l.flatMap said).foldl Credentials.say g.credentials := by
  induction l with
  | nil =>
      intro g g' h
      cases h
      rfl
  | cons a l ih =>
      intro g g' h
      rw [List.foldlM_cons] at h
      cases hfirst : step g a with
      | error e =>
          rw [hfirst] at h
          cases h
      | ok g₁ =>
          rw [hfirst] at h
          rw [List.flatMap_cons, List.foldl_append, ← hstep g a g₁ hfirst]
          exact ih g₁ g' h

theorem of_map_fst {r : Except ArgError (Settings × Bytes)} {g : Settings}
    (h : r.map Prod.fst = .ok g) : ∃ arg, r = .ok (g, arg) := by
  cases r with
  | error e => cases h
  | ok r =>
      obtain ⟨g', arg⟩ := r
      cases h
      exact ⟨arg, rfl⟩

theorem round_credentials (ref : Bytes) (config : Json) (g : Settings)
    (entry : String × Bool × Option OptionKey) (g' : Settings)
    (h : parseConfig.round ref config g entry = .ok g') :
    g'.credentials = (configAccount config entry).foldl Credentials.say g.credentials := by
  obtain ⟨name, hasArg, key⟩ := entry
  rw [configAccount]
  simp only [parseConfig.round] at h
  cases hget : jsonObjectGet (some config) name with
  | none =>
      rw [hget] at h
      cases h
      rfl
  | some val =>
      simp only [hget] at h
      cases hasArg with
      | true =>
          cases val with
          | string s =>
              cases key with
              | none => cases h
              | some key =>
                  obtain ⟨arg, h⟩ := of_map_fst h
                  exact parseArg_credentials (zero_not_mem_cstr s) h
          | _ => cases h
      | false =>
          cases val with
          | bool b =>
              cases b with
              | false => cases h
              | true =>
                  cases key with
                  | none => cases h
                  | some key =>
                      obtain ⟨arg, h⟩ := of_map_fst h
                      exact parseArg_credentials (s := []) List.not_mem_nil h
          | _ => cases h

theorem parse_credentials (g : Settings) (arg : CommandArg) (g' : Settings)
    (h : arg.parse g = .ok g') :
    g'.credentials = arg.accounts.foldl Credentials.say g.credentials := by
  cases arg with
  | option key arg =>
      obtain ⟨buf, h⟩ := of_map_fst h
      exact parseArg_credentials arg.2 h
  | config ref err file =>
      cases file with
      | none => cases h
      | some file =>
          cases file with
          | object members =>
              exact foldlM_credentials (round_credentials ref (.object members)) optionTable g g' h
          | _ => cases h

/-- What `main` adds to what was said. -/
theorem mainSettings_credentials {args : List CommandArg} {g : Settings}
    (h : mainSettings args = .ok g) :
    g.credentials =
      { (args.flatMap CommandArg.accounts).foldl Credentials.say ⟨none, [], []⟩ with
        userpass := some
          (((args.flatMap CommandArg.accounts).foldl Credentials.say ⟨none, [], []⟩).userpass.getD
            (((args.flatMap CommandArg.accounts).foldl Credentials.say ⟨none, [], []⟩).user ++
              ascii ":" ++
              ((args.flatMap CommandArg.accounts).foldl Credentials.say ⟨none, [], []⟩).pass)) } := by
  rw [mainSettings] at h
  cases hparse : parseCmdline args ⟨none, none, [], [], false, false⟩ with
  | error e =>
      rw [hparse] at h
      cases h
  | ok g₀ =>
      have hsaid := foldlM_credentials parse_credentials args _ _ hparse
      rw [show (⟨none, none, [], [], false, false⟩ : Settings).credentials = ⟨none, [], []⟩ from rfl]
        at hsaid
      rw [← hsaid]
      simp only [hparse] at h
      split at h
      · cases h
      · cases huserpass : g₀.rpcUserpass with
        | none =>
            rw [huserpass] at h
            cases h
            simp [Settings.credentials, huserpass]
        | some userpass =>
            rw [huserpass] at h
            cases h
            simp [Settings.credentials, huserpass]

/-- The two protocols use the same account if and only if nothing behind the last pair of
user and password changes one of them. -/
theorem mainSettings_userpass {args : List CommandArg} {g : Settings}
    (h : mainSettings args = .ok g) :
    g.rpcUserpass = some (g.rpcUser ++ ascii ":" ++ g.rpcPass) ↔
      InStep (args.flatMap CommandArg.accounts) := by
  have hmain := mainSettings_credentials h
  rw [← inStep_iff]
  generalize (args.flatMap CommandArg.accounts).foldl Credentials.say ⟨none, [], []⟩ = c at hmain ⊢
  obtain ⟨huserpass, huser, hpass⟩ := Credentials.mk.inj hmain
  rw [huserpass, huser, hpass, Option.some_inj]

/-- `-O a:b` and then a URL -/
theorem mainSettings_userpass_sample :
    mainSettings [.option .userpass ⟨[97, 58, 98], by decide⟩, .option .url ⟨[104], by decide⟩] =
        .ok ⟨some (ascii "http://h"), some [97, 58, 98], [97], [98], false, false⟩ ∧
      (some [97, 58, 98] = some ([97] ++ ascii ":" ++ [98]) ↔
        InStep ([CommandArg.option .userpass ⟨[97, 58, 98], by decide⟩,
          .option .url ⟨[104], by decide⟩].flatMap CommandArg.accounts)) :=
  ⟨rfl, mainSettings_userpass
    (show mainSettings [.option .userpass ⟨[97, 58, 98], by decide⟩,
      .option .url ⟨[104], by decide⟩] = .ok ⟨some (ascii "http://h"), some [97, 58, 98], [97], [98],
        false, false⟩ from rfl)⟩

/-- `-u c` behind `-O a:b` -/
theorem mainSettings_stale :
    ∃ args g, mainSettings args = .ok g ∧
      ¬g.rpcUserpass = some (g.rpcUser ++ ascii ":" ++ g.rpcPass) :=
  ⟨[.option .userpass ⟨[97, 58, 98], by decide⟩, .option .user ⟨[99], by decide⟩,
    .option .url ⟨[104], by decide⟩],
    ⟨some (ascii "http://h"), some [97, 58, 98], [99], [98], false, false⟩, rfl, by decide⟩

end AlphaMiner
