import AlphaMiner.Lib.CSearch
import AlphaMiner.Model.Stratum

/-!
# Options of the command line (`parse_arg` and `parse_config`, `cpu-miner.c`)

The options that say which server is used and as whom: `-o`, `-O`, `-u` and `-p`, and
`--benchmark`, which does without a server. An argument is a string in memory that
`parse_arg` writes into, so that the password does not stay there; on the command
line it is the memory of the process's own arguments, for a configuration file it is
a copy. Pointers into it are offsets.

A run that ends the program is an error, with the line it prints behind the name of
the program. So is a write outside of the argument.
-/

namespace AlphaMiner

open Lib

/-- The global variables that the options set. -/
structure Settings where
  rpcUrl : Option Bytes
  rpcUserpass : Option Bytes
  rpcUser : Bytes
  rpcPass : Bytes
  haveStratum : Bool
  optBenchmark : Bool

inductive ArgError where
  | exit (line : Bytes)
  | fault

inductive OptionKey where
  | url
  | userpass
  | user
  | pass
  | benchmark
  deriving DecidableEq

/-! ## One option -/

/-- The string at `s` with its first character overwritten and the others cleared. -/
def strhide (arg : Bytes) (s : Nat) : Bytes :=
  match strAt arg s with
  | [] => arg
  | _ :: rest => store arg s (120 :: List.replicate rest.length 0)

/-- `!strncasecmp(s, prefix, n)` for the whole of a prefix in lower case. -/
def hasPrefix (s front : Bytes) : Bool := (s.take front.length).map lowerAscii = front

def protocols : List Bytes :=
  [ascii "http://", ascii "https://", ascii "stratum+tcp://", ascii "stratum+tcps://"]

/-- The part of a URL in front of the `@` at `hp`, which is gone by now. The last
pointer of the answer is the place where the `@` goes. The length `v` is an `int`, and
an argument or a string of a configuration file is too short for it to overflow. -/
def parseArg.userinfo (g : Settings) (arg : Bytes) (ap hp : Nat) :
    Except ArgError (Settings × Bytes × Nat) :=
  match strchr arg ap 58 with
  | some p =>
      let g := { g with
        rpcUserpass := some (strAt arg ap)
        rpcUser := slice arg ap (p - ap)
        rpcPass := strAt arg (p + 1) }
      let p := p + 1
      let argp := if strAt arg p = [] then (arg, p) else (store arg p [120], p + 1)
      let v := (strAt argp.1 (hp + 1)).length + 1
      match memmove? argp.1 (argp.2 + 1) (hp + 1) v with
      | some arg =>
          -- the length of a `memset` is unsigned
          if hp < argp.2 then .error .fault
          else
            match memset? arg (argp.2 + v) 0 (hp - argp.2) with
            | some arg => .ok (g, arg, argp.2)
            | none => .error .fault
      | none => .error .fault
  | none => .ok ({ g with rpcUser := strAt arg ap }, arg, hp)

/-- The part behind it, at `hp`. -/
def parseArg.server (g : Settings) (arg : Bytes) (ap hp : Nat) :
    Except ArgError (Settings × Bytes) :=
  let setUrl (url : Bytes) : Settings × Bytes :=
    ({ g with
        rpcUrl := some url
        haveStratum := !g.optBenchmark && hasPrefix url (ascii "stratum") }, arg)
  if ap ≠ 0 then
    if protocols.any (hasPrefix (strAt arg 0)) = false then
      .error (.exit (ascii "unknown protocol -- '" ++ strAt arg 0 ++ ascii "'"))
    else
      match store? (strAt arg 0 ++ [0]) ap (strAt arg hp ++ [0]) with
      | some url => .ok (setUrl (cstr url))
      | none => .error .fault
  else if (strAt arg hp).head? = none ∨ (strAt arg hp).head? = some 47 then
    .error (.exit (ascii "invalid URL -- '" ++ strAt arg 0 ++ ascii "'"))
  else .ok (setUrl (ascii "http://" ++ strAt arg hp))

def parseArg (g : Settings) (key : OptionKey) (arg : Bytes) : Except ArgError (Settings × Bytes) :=
  match key with
  | .pass => .ok ({ g with rpcPass := strAt arg 0 }, strhide arg 0)
  | .user => .ok ({ g with rpcUser := strAt arg 0 }, arg)
  | .url =>
      let ap := ((strstr arg 0 (ascii "://")).map (· + 3)).getD 0
      match strrchr arg 0 64 with
      | some hp =>
          match parseArg.userinfo g (store arg hp [0]) ap hp with
          | .ok (g, arg, hp) => parseArg.server g (store arg hp [64]) ap (hp + 1)
          | .error e => .error e
      | none => parseArg.server g arg ap ap
  | .userpass =>
      match strchr arg 0 58 with
      | some p =>
          .ok ({ g with
            rpcUserpass := some (strAt arg 0)
            rpcUser := slice arg 0 p
            rpcPass := strAt arg (p + 1) }, strhide arg (p + 1))
      | none =>
          .error (.exit (ascii "invalid username:password pair -- '" ++ strAt arg 0 ++ ascii "'"))
  | .benchmark => .ok ({ g with optBenchmark := true, haveStratum := false }, arg)

/-! ## All options -/

/-- The names of `options` that are modelled, in order, whether an argument belongs
to them, and `none` for the one that a configuration file must not contain. -/
def optionTable : List (String × Bool × Option OptionKey) :=
  [("benchmark", false, some .benchmark),
   ("config", true, none),
   ("pass", true, some .pass),
   ("url", true, some .url),
   ("user", true, some .user),
   ("userpass", true, some .userpass)]

/-- One round of the loop of `parse_config`; `ref` is the name of the file. -/
def parseConfig.round (ref : Bytes) (config : Json) (g : Settings)
    (entry : String × Bool × Option OptionKey) : Except ArgError Settings :=
  match jsonObjectGet (some config) entry.1 with
  | none => .ok g
  | some val =>
      match entry.2.1, val, entry.2.2 with
      | true, .string s, some key => (parseArg g key (cstr s ++ [0])).map Prod.fst
      | true, .string _, none =>
          .error (.exit (ref ++ ascii ": option '" ++ ascii entry.1 ++ ascii "' not allowed here"))
      | false, .bool true, some key => (parseArg g key [0]).map Prod.fst
      | _, _, _ => .error (.exit (ascii "invalid argument for option '" ++ ascii entry.1 ++ ascii "'"))

def parseConfig (ref : Bytes) (config : Json) (g : Settings) : Except ArgError Settings :=
  optionTable.foldlM (parseConfig.round ref config) g

/-- What `getopt_long` hands out: an option with its argument, or `-c` with the file
that was loaded, or what the library says if it was not. -/
inductive CommandArg where
  | option (key : OptionKey) (arg : { s : Bytes // 0 ∉ s })
  | config (ref err : Bytes) (file : Option Json)

def CommandArg.parse (g : Settings) (arg : CommandArg) : Except ArgError Settings :=
  match arg with
  | .option key arg => (parseArg g key (arg.1 ++ [0])).map Prod.fst
  | .config ref err file =>
      match file with
      | some (.object members) => parseConfig ref (.object members) g
      | _ => .error (.exit err)

def parseCmdline (args : List CommandArg) (g : Settings) : Except ArgError Settings :=
  args.foldlM CommandArg.parse g

/-- The beginning of `main`. -/
def mainSettings (args : List CommandArg) : Except ArgError Settings :=
  match parseCmdline args ⟨none, none, [], [], false, false⟩ with
  | .ok g =>
      if g.optBenchmark = false ∧ g.rpcUrl = none then .error (.exit (ascii "no URL supplied"))
      else
        match g.rpcUserpass with
        | some _ => .ok g
        | none => .ok { g with rpcUserpass := some (g.rpcUser ++ ascii ":" ++ g.rpcPass) }
  | .error e => .error e

end AlphaMiner
