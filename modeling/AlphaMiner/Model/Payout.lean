import AlphaMiner.Lib.System
import AlphaMiner.Model.Address
import AlphaMiner.Model.Gbt

/-!
# Choosing an address, and paying it

`select_random_address` lets `address_to_script` write the new script over the
old one, and sets its length when that has returned. No lock covers the two. The
thread that decodes a template copies as many bytes of `pk_script` as
`pk_script_size` says just then. Here the selection is two steps and a template
is one.

`coinbases` is not in the code. It keeps what has been built from templates that
bring no coinbase of their own.
-/

namespace AlphaMiner

open Lib

/-- The loader tries an address on 128 bytes, and keeps it if there is a size. -/
def loadedScript (sha256d : Bytes → Hash) (addr : Bytes) : Option Bytes :=
  match addressToScript sha256d (.replicate 128 0) addr with
  | some (size, script) => if size = 0 then none else some (script.take size)
  | none => none

structure LoadedAddress (sha256d : Bytes → Hash) where
  addr : Bytes
  script : Bytes
  loaded : loadedScript sha256d addr = some script

structure Payout where
  pkScript : Bytes
  pkScriptSize : Nat
  selecting : Option Nat
  coinbases : List Bytes

def Payout.start : Payout where
  pkScript := .replicate 42 0
  pkScriptSize := 0
  selecting := none
  coinbases := []

/-- What a template's reader finds in the globals. -/
def Payout.config (s : Payout) (cfg : GbtConfig) : GbtConfig :=
  { cfg with pkScriptSize := s.pkScriptSize, pkScript := s.pkScript }

inductive PayoutEvent where
  | select (randomIndex : Nat)
  | assign
  | template (cfg : GbtConfig) (val : Option Json) (txa : List Json) (gbt : GbtState)

def payoutStep (sha256d : Bytes → Hash) (addresses : List (LoadedAddress sha256d)) (s : Payout) :
    PayoutEvent → Option Payout
  | .select randomIndex =>
      match s.selecting, addresses[randomIndex]? with
      | none, some address =>
          match addressToScript sha256d s.pkScript address.addr with
          | some (size, script) => some { s with pkScript := script, selecting := some size }
          | none => none
      | none, none => none
      | some _, _ => none
  | .assign =>
      match s.selecting with
      | some size => some { s with pkScriptSize := size, selecting := none }
      | none => none
  | .template cfg val txa gbt =>
      match Gbt.coinbase sha256d (s.config cfg) val txa gbt with
      | .ok (cbtx, size) _ =>
          match jsonObjectGet val "coinbasetxn" with
          | none => some { s with coinbases := s.coinbases ++ [cbtx.take size] }
          | some _ => some s
      | .error _ _ => some s

/-- Every order of selections and templates. -/
def payoutThreads (sha256d : Bytes → Hash) (addresses : List (LoadedAddress sha256d)) :
    Lts Payout PayoutEvent where
  init s := s = .start
  next s e s' := payoutStep sha256d addresses s e = some s'

end AlphaMiner
