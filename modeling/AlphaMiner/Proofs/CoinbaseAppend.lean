import AlphaMiner.Proofs.Coinbase
import AlphaMiner.Proofs.TreeFold

/-!
# Extending a coinbase of the server's

The append step finds the end of the script by byte 41 and compares that byte
with 100 only. Where the script ends inside the transaction the step inserts its
data there, and a hundred spare bytes are enough for it. Where it does not, the
length of the move is negative as soon as there is something to insert.
-/

namespace AlphaMiner

open Lib

/-! ## What is wanted -/

/-- The push in front of the extra data. -/
def pushPrefix (pushLen : Nat) (xsig : Bytes) : Bytes :=
  if pushLen = 2 then [0x4c, UInt8.ofNat xsig.length]
  else if pushLen ≠ 0 then [UInt8.ofNat xsig.length]
  else []

/-- A script has room for a hundred bytes, and beyond that for no push. -/
def pushLenFor (scriptLen : Nat) (xsig : Bytes) : Nat :=
  if scriptLen + xsig.length < 76 then 1
  else if scriptLen + 2 + xsig.length > 100 then 0
  else 2

def extraScript (scriptLen : Nat) (xsig : Bytes) : Bytes :=
  if xsig = [] then [] else pushPrefix (pushLenFor scriptLen xsig) xsig ++ xsig

/-- The length of the script of the one input. -/
def scriptLength (tx : Bytes) : Nat := (tx.getD 41 0).toNat

/-- A transaction with more in the script of its input. -/
def insertScript (tx extra : Bytes) : Bytes :=
  tx.take 41 ++ [UInt8.ofNat (scriptLength tx + extra.length)] ++ slice tx 42 (scriptLength tx) ++
    extra ++ tx.drop (42 + scriptLength tx)

theorem length_pushPrefix {pushLen : Nat} (h : pushLen ≤ 2) (xsig : Bytes) :
    (pushPrefix pushLen xsig).length = pushLen := by
  obtain rfl | rfl | rfl : pushLen = 0 ∨ pushLen = 1 ∨ pushLen = 2 := by omega
  all_goals rfl

theorem pushLenFor_le (scriptLen : Nat) (xsig : Bytes) : pushLenFor scriptLen xsig ≤ 2 := by
  rw [pushLenFor]
  split
  · omega
  · split
    · omega
    · omega

/-- The extra data fits with its push. -/
theorem extraScript_fits {scriptLen : Nat} {xsig : Bytes} (h : Gbt.ExtraFits scriptLen xsig)
    (hne : extraScript scriptLen xsig ≠ []) :
    scriptLen + (extraScript scriptLen xsig).length ≤ 100 := by
  rw [extraScript] at hne ⊢
  split at hne
  · exact absurd rfl hne
  · next hxsig =>
      have hroom := h.resolve_left hxsig
      rw [if_neg hxsig, List.length_append, length_pushPrefix (pushLenFor_le scriptLen xsig),
        pushLenFor]
      split
      · omega
      · split
        · omega
        · omega

namespace Gbt

/-! ## The writes -/

theorem writeExtra_eq {pushLen ssigEnd : Nat} {xsig cbtx : Bytes} :
    writeExtra pushLen xsig ssigEnd cbtx = poke cbtx ssigEnd (pushPrefix pushLen xsig ++ xsig) := by
  rw [writeExtra, pushPrefix]
  split
  · have hlen : ssigEnd + 1 = ssigEnd + [(0x4c : UInt8)].length := rfl
    have hdata : ssigEnd + 2 = ssigEnd + ([0x4c] ++ [UInt8.ofNat xsig.length]).length := rfl
    rw [← bind_assoc, poke_poke hlen, poke_poke hdata]
    rfl
  · split
    · exact poke_poke rfl
    · rw [List.nil_append]

theorem getD_take {buf : Bytes} {i n : Nat} (h : i < n) : (buf.take n).getD i 0 = buf.getD i 0 := by
  rw [List.getD_eq_getElem?_getD, List.getD_eq_getElem?_getD, List.getElem?_take_of_lt h]

/-- A transaction in a buffer, with its script made longer, piece by piece. -/
theorem insertScript_take {cbtx extra : Bytes} {size len : Nat} (hlen : scriptLength cbtx = len)
    (hend : 42 + len ≤ size) :
    insertScript (cbtx.take size) extra =
      slice cbtx 0 41 ++ [UInt8.ofNat (len + extra.length)] ++ slice cbtx 42 len ++ extra ++
        slice cbtx (42 + len) (size - (42 + len)) := by
  have hscript : scriptLength (cbtx.take size) = len := by
    rw [scriptLength, getD_take (by omega)]
    exact hlen
  rw [insertScript, hscript, slice_take hend, List.drop_take, List.take_take,
    Nat.min_eq_left (by omega)]
  rfl

/-- The three writes of the insertion: the tail to its new place, the length, and
the data into the gap. -/
theorem insertScript_stores {cbtx tail extra b₁ b₂ b₃ : Bytes} {size len : Nat}
    (hlen : scriptLength cbtx = len) (hend : 42 + len ≤ size)
    (hroom : size + extra.length ≤ cbtx.length)
    (htail : tail = slice cbtx (42 + len) (size - (42 + len)))
    (hb₁ : b₁ = store cbtx (42 + len + extra.length) tail)
    (hb₂ : b₂ = store b₁ 41 [UInt8.ofNat (len + extra.length)])
    (hb₃ : b₃ = store b₂ (42 + len) extra) :
    b₃.length = cbtx.length ∧
      b₃.take (size + extra.length) = insertScript (cbtx.take size) extra := by
  have htailLen : tail.length = size - (42 + len) := by rw [htail, length_slice (by omega)]
  have hfit₁ : 42 + len + extra.length + tail.length ≤ cbtx.length := by omega
  have hlen₁ : b₁.length = cbtx.length := by rw [hb₁, length_store hfit₁]
  have hfit₂ : 41 + [UInt8.ofNat (len + extra.length)].length ≤ b₁.length := by
    rw [List.length_singleton]
    omega
  have hlen₂ : b₂.length = cbtx.length := by rw [hb₂, length_store hfit₂, hlen₁]
  have hfit₃ : 42 + len + extra.length ≤ b₂.length := by omega
  have hlen₃ : b₃.length = cbtx.length := by rw [hb₃, length_store hfit₃, hlen₂]
  have hfront : slice b₃ 0 41 = slice cbtx 0 41 := by
    rw [hb₃, slice_store_before (by omega) (by omega), hb₂,
      slice_store_before (by omega) (by omega), hb₁, slice_store_before (by omega) (by omega)]
  have hbyte : slice b₃ 41 1 = [UInt8.ofNat (len + extra.length)] := by
    rw [hb₃, slice_store_before (by omega) (by omega), hb₂]
    exact slice_store hfit₂
  have hscript : slice b₃ 42 len = slice cbtx 42 len := by
    rw [hb₃, slice_store_before (by omega) (by omega), hb₂, slice_store_after hfit₂ (by simp),
      hb₁, slice_store_before (by omega) (by omega)]
  have hextra : slice b₃ (42 + len) extra.length = extra := by
    rw [hb₃, slice_store hfit₃]
  have hmoved : slice b₃ (42 + len + extra.length) (size - (42 + len)) = tail := by
    rw [hb₃, slice_store_after hfit₃ (by omega), hb₂,
      slice_store_after hfit₂ (by rw [List.length_singleton]; omega), hb₁, ← htailLen,
      slice_store hfit₁]
  refine ⟨hlen₃, ?_⟩
  rw [insertScript_take hlen hend, show size + extra.length =
    41 + 1 + len + extra.length + (size - (42 + len)) by omega]
  show slice b₃ 0 _ = _
  rw [slice_add, slice_add, slice_add, slice_add, hfront, Nat.zero_add,
    show 0 + (41 + 1) = 42 by rfl, show 0 + (41 + 1 + len) = 42 + len by omega,
    show 0 + (41 + 1 + len + extra.length) = 42 + len + extra.length by omega, hbyte, hscript,
    hextra, hmoved, htail]

/-- Where the script ends inside the transaction, and there is room behind it. -/
theorem insertExtra_pure {cbtx xsig extra : Bytes} {size pushLen len : Nat} {scriptLen : UInt8}
    (hpush : pushLen ≤ 2) (hextra : extra = pushPrefix pushLen xsig ++ xsig)
    (hscript : scriptLen = cbtx.getD 41 0) (hlen : scriptLen.toNat = len)
    (hend : 42 + len ≤ size) (hroom : size + extra.length ≤ cbtx.length) :
    ∃ cbtx', insertExtra scriptLen pushLen xsig cbtx size = pure (cbtx', size + extra.length) ∧
      cbtx'.length = cbtx.length ∧
      cbtx'.take (size + extra.length) = insertScript (cbtx.take size) extra := by
  have hn : xsig.length + pushLen = extra.length := by
    rw [hextra, List.length_append, length_pushPrefix hpush, Nat.add_comm]
  have hbyte : scriptLen + UInt8.ofNat extra.length = UInt8.ofNat (len + extra.length) := by
    rw [UInt8.ofNat_add, ← hlen, UInt8.ofNat_toNat]
  have hscriptLen : scriptLength cbtx = len := by rw [← hlen, hscript, scriptLength]
  have htailFit : 42 + len + (size - (42 + len)) ≤ cbtx.length := by omega
  have hfit₁ : 42 + len + extra.length + (slice cbtx (42 + len) (size - (42 + len))).length ≤
      cbtx.length := by
    rw [length_slice htailFit]
    omega
  have hlen₁ := length_store hfit₁
  have hfit₂ : 41 + [UInt8.ofNat (len + extra.length)].length ≤ cbtx.length := by
    rw [List.length_singleton]
    omega
  rw [← hlen₁] at hfit₂
  have hlen₂ := length_store hfit₂
  have hfit₃ : 42 + len + extra.length ≤ cbtx.length := by omega
  rw [← hlen₁, ← hlen₂] at hfit₃
  rw [insertExtra]
  simp only [hlen, hn]
  rw [if_neg (by omega), peek_of_fits htailFit, pure_bind, poke_of_fits hfit₁, pure_bind, hbyte,
    poke_of_fits hfit₂, pure_bind, writeExtra_eq, ← hextra, poke_of_fits hfit₃, pure_bind]
  exact ⟨_, rfl, insertScript_stores hscriptLen hend hroom rfl rfl rfl rfl⟩

/-! ## The step -/

theorem slice_getD {buf : Bytes} {i : Nat} (h : i < buf.length) :
    slice buf i 1 = [buf.getD i 0] := by
  rw [slice, List.getD_eq_getElem?_getD, List.getElem?_eq_getElem h,
    List.drop_eq_getElem_cons h]
  rfl

theorem insertScript_nil {tx : Bytes} (h : 42 ≤ tx.length) : insertScript tx [] = tx := by
  have hbyte : [UInt8.ofNat (scriptLength tx + ([] : Bytes).length)] = slice tx 41 1 := by
    rw [slice_getD h, scriptLength, List.length_nil, Nat.add_zero, UInt8.ofNat_toNat]
  rw [insertScript, hbyte, List.append_nil]
  have hfront : tx.take 41 ++ slice tx 41 1 = tx.take 42 := (slice_add tx 0 41 1).symm
  have hscript : tx.take 42 ++ slice tx 42 (scriptLength tx) = tx.take (42 + scriptLength tx) := by
    have hadd := (slice_add tx 0 42 (scriptLength tx)).symm
    rwa [Nat.zero_add] at hadd
  rw [hfront, hscript, List.take_append_drop]

/-- What the step adds to the script of a transaction. -/
def addedScript (cfg : GbtConfig) (val : Option Json) (tx : Bytes) : Bytes :=
  extraScript (scriptLength tx) (coinbaseExtra cfg val (scriptLength tx))

/-- A script of at most a hundred bytes stays one. -/
theorem scriptLength_added_le (cfg : GbtConfig) (val : Option Json) {tx : Bytes}
    (h : scriptLength tx ≤ 100) : scriptLength tx + (addedScript cfg val tx).length ≤ 100 := by
  by_cases hnil : addedScript cfg val tx = []
  · rw [hnil]
    exact h
  · exact extraScript_fits (coinbaseExtra_fits cfg val _) hnil

section

variable {cfg : GbtConfig} {val : Option Json} {cbtx : Bytes} {size : Nat}

theorem appendCoinbase_peeked (h : 42 ≤ cbtx.length) :
    appendCoinbase cfg val cbtx size =
      if coinbaseExtra cfg val (scriptLength cbtx) = [] then pure (cbtx, size)
      else insertExtra (cbtx.getD 41 0)
        (pushLenFor (scriptLength cbtx) (coinbaseExtra cfg val (scriptLength cbtx)))
        (coinbaseExtra cfg val (scriptLength cbtx)) cbtx size := by
  rw [appendCoinbase_eq, peek_of_fits h, pure_bind, slice_getD h]
  exact if_congr List.length_eq_zero_iff rfl rfl

theorem addedScript_of_some (h : coinbaseExtra cfg val (scriptLength cbtx) ≠ []) :
    addedScript cfg val cbtx =
      pushPrefix (pushLenFor (scriptLength cbtx) (coinbaseExtra cfg val (scriptLength cbtx)))
        (coinbaseExtra cfg val (scriptLength cbtx)) ++
          coinbaseExtra cfg val (scriptLength cbtx) := if_neg h

/-- With the end of the script inside, and room behind the transaction. -/
theorem appendCoinbase_pure (hsize : 42 ≤ size)
    (hend : addedScript cfg val cbtx = [] ∨ 42 + scriptLength cbtx ≤ size)
    (hroom : size + (addedScript cfg val cbtx).length ≤ cbtx.length) :
    ∃ cbtx', appendCoinbase cfg val cbtx size =
        pure (cbtx', size + (addedScript cfg val cbtx).length) ∧ cbtx'.length = cbtx.length ∧
      cbtx'.take (size + (addedScript cfg val cbtx).length) =
        insertScript (cbtx.take size) (addedScript cfg val cbtx) := by
  rw [appendCoinbase_peeked (by omega)]
  by_cases hnone : coinbaseExtra cfg val (scriptLength cbtx) = []
  · have hadded : addedScript cfg val cbtx = [] := if_pos hnone
    rw [if_pos hnone, hadded]
    refine ⟨cbtx, rfl, rfl, (insertScript_nil ?_).symm⟩
    rw [List.length_take]
    rw [hadded, List.length_nil] at hroom
    omega
  · have hadded := addedScript_of_some hnone
    have hinside : 42 + scriptLength cbtx ≤ size := by
      refine hend.resolve_left fun hnil => hnone ?_
      rw [hadded] at hnil
      exact (List.append_eq_nil_iff.1 hnil).2
    rw [if_neg hnone]
    exact insertExtra_pure (pushLenFor_le _ _) hadded rfl rfl hinside hroom

/-- Otherwise the length of the move is negative. -/
theorem appendCoinbase_fault (hcbtx : 42 ≤ cbtx.length) (hadded : addedScript cfg val cbtx ≠ [])
    (hend : size < 42 + scriptLength cbtx) : appendCoinbase cfg val cbtx size = throw .fault := by
  have hsome : ¬coinbaseExtra cfg val (scriptLength cbtx) = [] := by
    intro hnone
    rw [addedScript, extraScript, if_pos hnone] at hadded
    exact hadded rfl
  rw [appendCoinbase_peeked hcbtx, if_neg hsome, insertExtra]
  exact if_pos hend

end

/-! ## Whether there is anything to add -/

/-- The entries of `coinbaseaux` up to the first that is malformed or too long. -/
def auxEntries : List (String × Json) → List Bytes
  | [] => []
  | (_, v) :: rest =>
      match (jsonStringValue (some v)).bind unhex with
      | some entry => if entry.length ≤ 100 then entry :: auxEntries rest else []
      | none => []

def auxOf (val : Option Json) : List Bytes :=
  match jsonObjectGet val "coinbaseaux" with
  | some (.object members) => auxEntries members
  | _ => []

/-- The script takes the data, and there is some. -/
def Fits (scriptLen : Nat) (bs : Bytes) : Prop := bs ≠ [] ∧ scriptLen + bs.length ≤ 100

def NothingFits (cfg : GbtConfig) (val : Option Json) (scriptLen : Nat) : Prop :=
  ¬Fits scriptLen cfg.coinbaseSig ∧ ∀ entry ∈ auxOf val, ¬Fits scriptLen entry

def addEntry (scriptLen : Nat) (xsig entry : Bytes) : Bytes :=
  if scriptLen + xsig.length + entry.length ≤ 100 then xsig ++ entry else xsig

theorem coinbaseExtra_aux_eq (scriptLen : Nat) (members : List (String × Json)) (xsig : Bytes) :
    coinbaseExtra.aux scriptLen members xsig =
      (auxEntries members).foldl (addEntry scriptLen) xsig := by
  induction members generalizing xsig with
  | nil => rfl
  | cons member rest ih =>
      obtain ⟨key, v⟩ := member
      rw [coinbaseExtra.aux, auxEntries]
      cases hv : jsonStringValue (some v) with
      | none => rfl
      | some s =>
          simp only [Option.bind_some]
          cases hs : unhex s with
          | none =>
              have hfalse := hex2bin_refuses hs (List.replicate (s.length / 2) 0) (s.length / 2)
              rcases hbin : hex2bin (List.replicate (s.length / 2) 0) (some s) (s.length / 2)
                with ⟨_ | _, buf⟩
              · exact ite_self xsig
              · rw [hbin] at hfalse
                cases hfalse
          | some p =>
              have hlen : s.length / 2 = p.length := by
                rw [length_of_unhex hs]
                omega
              rw [hex2bin_measured hs List.length_replicate]
              simp only [hlen]
              by_cases hlong : p.length > 100
              · rw [if_pos hlong, if_neg (by omega)]
                rfl
              · rw [if_neg hlong, if_pos (Nat.le_of_not_lt hlong), List.foldl_cons, ih, addEntry]

theorem foldl_addEntry_nil {scriptLen : Nat} {entries : List Bytes} {xsig : Bytes} :
    entries.foldl (addEntry scriptLen) xsig = [] ↔
      xsig = [] ∧ ∀ entry ∈ entries, ¬Fits scriptLen entry := by
  induction entries generalizing xsig with
  | nil => simp
  | cons entry entries ih =>
      rw [List.foldl_cons, ih, List.forall_mem_cons, ← and_assoc]
      refine and_congr_left' ?_
      rw [addEntry, Fits]
      split
      · next hroom =>
          rw [List.append_eq_nil_iff]
          refine and_congr_right fun hxsig => ⟨fun hentry h => h.1 hentry, fun h => ?_⟩
          by_contra hne
          rw [hxsig, List.length_nil] at hroom
          exact h ⟨hne, hroom⟩
      · next hroom =>
          refine ⟨fun hxsig => ⟨hxsig, fun h => hroom ?_⟩, And.left⟩
          rw [hxsig, List.length_nil]
          exact h.2

theorem coinbaseExtra_nil (cfg : GbtConfig) (val : Option Json) (scriptLen : Nat) :
    coinbaseExtra cfg val scriptLen = [] ↔ NothingFits cfg val scriptLen := by
  have hsig : (if scriptLen + cfg.coinbaseSig.length ≤ 100 then cfg.coinbaseSig else []) = [] ↔
      ¬Fits scriptLen cfg.coinbaseSig := by
    rw [Fits]
    split
    · next hroom => exact ⟨fun h hfits => hfits.1 h, fun h => by_contra fun hne => h ⟨hne, hroom⟩⟩
    · next hroom => exact ⟨fun _ hfits => hroom hfits.2, fun _ => rfl⟩
  rw [coinbaseExtra, NothingFits, auxOf]
  cases jsonObjectGet val "coinbaseaux" with
  | none => exact hsig.trans (and_iff_left (List.forall_mem_nil _)).symm
  | some aux =>
      cases aux with
      | object members =>
          simp only
          rw [coinbaseExtra_aux_eq, foldl_addEntry_nil, hsig]
      | _ => exact hsig.trans (and_iff_left (List.forall_mem_nil _)).symm

theorem addedScript_nil {cfg : GbtConfig} {val : Option Json} {tx : Bytes} :
    addedScript cfg val tx = [] ↔ NothingFits cfg val (scriptLength tx) := by
  rw [← coinbaseExtra_nil, addedScript, extraScript]
  split
  · next hnone => exact iff_of_true rfl hnone
  · next hsome => exact iff_of_false (fun h => hsome (List.append_eq_nil_iff.1 h).2) hsome

/-! ## The coinbase of a template -/

section

variable {cfg : GbtConfig} {val : Option Json} {coinbasetxn : Json} {hex tx : Bytes}

/-- The transaction, and a hundred spare bytes. -/
theorem serverCoinbase_pure (cfg : GbtConfig)
    (hdata : jsonStringValue (jsonObjectGet (some coinbasetxn) "data") = some hex)
    (hhex : unhex hex = some tx) (hlen : 60 ≤ tx.length) :
    ∃ spare, serverCoinbase cfg coinbasetxn = pure (tx ++ spare, tx.length) ∧
      spare.length = 100 := by
  have hsize : hex.length / 2 = tx.length := by
    rw [length_of_unhex hhex]
    omega
  unfold serverCoinbase
  rw [hdata]
  simp only [hsize]
  rw [if_neg (by omega), hex2bin_front hhex (Nat.le_refl _), Nat.sub_self]
  refine ⟨_, rfl, ?_⟩
  simp [malloc]

/-- Where the end of the script is inside, or nothing is added, the step gives the
transaction with more in its script, and elsewhere it faults. -/
theorem appendCoinbase_server {spare : Bytes} (cfg : GbtConfig) (val : Option Json)
    (hspare : spare.length = 100) (hlen : 60 ≤ tx.length) :
    (42 + scriptLength tx ≤ tx.length ∨ NothingFits cfg val (scriptLength tx) →
      ∃ cbtx, appendCoinbase cfg val (tx ++ spare) tx.length =
          pure (cbtx, tx.length + (addedScript cfg val tx).length) ∧
        cbtx.length = tx.length + 100 ∧
        cbtx.take (tx.length + (addedScript cfg val tx).length) =
          insertScript tx (addedScript cfg val tx) ∧
        (addedScript cfg val tx ≠ [] →
          scriptLength tx + (addedScript cfg val tx).length ≤ 100)) ∧
    (¬(42 + scriptLength tx ≤ tx.length ∨ NothingFits cfg val (scriptLength tx)) →
      appendCoinbase cfg val (tx ++ spare) tx.length = throw .fault) := by
  have hbuf : (tx ++ spare).length = tx.length + 100 := by rw [List.length_append, hspare]
  have hscript : scriptLength (tx ++ spare) = scriptLength tx := by
    rw [scriptLength, scriptLength, ← getD_take (n := tx.length) (by omega), List.take_left]
  have hadded : addedScript cfg val (tx ++ spare) = addedScript cfg val tx := by
    rw [addedScript, addedScript, hscript]
  have hfits : addedScript cfg val tx ≠ [] →
      scriptLength tx + (addedScript cfg val tx).length ≤ 100 :=
    extraScript_fits (coinbaseExtra_fits cfg val _)
  rw [← addedScript_nil]
  constructor
  · intro hcond
    have hroom : tx.length + (addedScript cfg val (tx ++ spare)).length ≤ (tx ++ spare).length := by
      rw [hadded, hbuf]
      by_cases hnil : addedScript cfg val tx = []
      · rw [hnil, List.length_nil]
        omega
      · have hle := hfits hnil
        omega
    obtain ⟨cbtx, hok, hcbtx, htake⟩ := appendCoinbase_pure (by omega)
      (hcond.symm.imp (fun h => hadded.trans h) fun h => hscript ▸ h) hroom
    rw [hadded] at hok htake
    rw [List.take_left] at htake
    exact ⟨cbtx, hok, hcbtx.trans hbuf, htake, hfits⟩
  · intro hnot
    rw [not_or, Nat.not_le] at hnot
    exact appendCoinbase_fault (by omega) (hadded ▸ hnot.2) (hscript ▸ hnot.1)

/-- The extended coinbase is in its buffer, and it is the one that was sent with
more in its script. -/
def Extends (sha256d : Bytes → Hash) (cfg : GbtConfig) (val : Option Json) (txa : List Json)
    (tx : Bytes) : Prop :=
  ∃ cbtx, coinbase sha256d cfg val txa =
      pure (cbtx, tx.length + (addedScript cfg val tx).length) ∧ cbtx.length = tx.length + 100 ∧
    cbtx.take (tx.length + (addedScript cfg val tx).length) =
      insertScript tx (addedScript cfg val tx) ∧
    (addedScript cfg val tx ≠ [] → scriptLength tx + (addedScript cfg val tx).length ≤ 100)

/-- The append step keeps to the coinbase it is given just where the script ends
inside the transaction or takes nothing more. -/
theorem coinbase_extends_iff (sha256d : Bytes → Hash) (cfg : GbtConfig) (txa : List Json)
    (hserver : jsonObjectGet val "coinbasetxn" = some coinbasetxn)
    (happend : mutableHas val "coinbase/append" = true)
    (hdata : jsonStringValue (jsonObjectGet (some coinbasetxn) "data") = some hex)
    (hhex : unhex hex = some tx) (hlen : 60 ≤ tx.length) :
    Extends sha256d cfg val txa tx ↔
      42 + scriptLength tx ≤ tx.length ∨ NothingFits cfg val (scriptLength tx) := by
  obtain ⟨spare, hpure, hspare⟩ := serverCoinbase_pure cfg hdata hhex hlen
  obtain ⟨hinside, hfault⟩ := appendCoinbase_server cfg val hspare hlen
  have hrun : coinbase sha256d cfg val txa = appendCoinbase cfg val (tx ++ spare) tx.length := by
    rw [coinbase, hserver]
    simp only
    rw [hpure, pure_bind, if_pos happend]
  rw [Extends, hrun]
  constructor
  · rintro ⟨cbtx, hok, -⟩
    by_contra hnot
    rw [hfault hnot] at hok
    exact throw_ok (congrFun hok sampleStart)
  · exact hinside

end

/-- A template with a coinbase of sixty bytes, every one of them `b`. -/
def appendTemplate (b : UInt8) : Json := .object
  [("mutable", .array [.string (ascii "coinbase/append")]),
    ("coinbasetxn", .object [("data", .string (bin2hex (List.replicate 60 b)))])]

def signedConfig : GbtConfig := { sampleConfig with coinbaseSig := ascii "alpha" }

/-- An empty script takes the signature. -/
theorem coinbase_extends_iff_empty :
    Extends sampleHash signedConfig (some (appendTemplate 0)) [] (List.replicate 60 0) ↔
      42 + scriptLength (List.replicate 60 0) ≤ (List.replicate 60 (0 : UInt8)).length ∨
        NothingFits signedConfig (some (appendTemplate 0)) (scriptLength (List.replicate 60 0)) :=
  coinbase_extends_iff sampleHash signedConfig [] rfl (by decide) rfl (unhex_bin2hex _)
    (Nat.le_of_eq List.length_replicate.symm)

/-- A script that is said to have thirty-two bytes, eighteen of which are there. -/
theorem coinbase_extends_fails :
    ¬∀ (cfg : GbtConfig) (val : Option Json) (coinbasetxn : Json) (hex tx : Bytes),
      jsonObjectGet val "coinbasetxn" = some coinbasetxn →
      mutableHas val "coinbase/append" = true →
      jsonStringValue (jsonObjectGet (some coinbasetxn) "data") = some hex →
      unhex hex = some tx → 60 ≤ tx.length → Extends sampleHash cfg val [] tx := by
  intro hclaim
  obtain ⟨cbtx, hok, -⟩ := hclaim signedConfig (some (appendTemplate 32)) _ _ _ rfl (by decide) rfl
    (unhex_bin2hex _) (Nat.le_of_eq List.length_replicate.symm)
  have hfault : stoppedBy (coinbase sampleHash signedConfig (some (appendTemplate 32)) []
      sampleStart) = some .fault := by decide +kernel
  rw [hok] at hfault
  cases hfault

end Gbt

end AlphaMiner
