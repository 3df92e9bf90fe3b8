import AlphaMiner.Proofs.ScanSpec

/-!
# What a scan finds

With both functions read as a search, two questions about them are short. They
agree with each other whenever the restart flag is clear on entry and there is
at least one nonce to try (`scanhashRandomxBatch_agrees`); the extra look at
the flag and the extra nonce of the do-while form are the only differences, and
neither can show.

Whether they find every share is decided by the test in front of `fulltest`.
It asks for a top word strictly below the target's, where the sibling
`scanhash_sha256d` asks for one at most as large, so a commitment that ties
with the target in its top word is passed over however small the rest is.
`findsFirst_iff` is the exact account: the scans find what they should on
precisely those inputs where no such tie comes before the first nonce the
strict test accepts.
-/

namespace AlphaMiner

open Lib

section

variable (rx : RandomX) (pdata : Vector UInt32 32) (ptarget : Vector UInt32 8)
  (maxNonce : UInt32) (outRxHash : Hash)

/-! ## The two functions agree -/

theorem scanhashRandomxBatch_eq_plain (host : ByteOrder) (restart : Nat → Bool)
    (vm vm' : RandomxVm) (hstart : nonceWord pdata < maxNonce) (hclear : restart 0 = false) :
    scanhashRandomxBatch host rx restart pdata ptarget maxNonce outRxHash vm =
      scanhashRandomx host rx restart pdata ptarget maxNonce outRxHash vm' := by
  have hlen : maxNonce.toNat - (nonceWord pdata + 1).toNat + 1 =
      maxNonce.toNat - (nonceWord pdata).toNat := by
    have hlt : (nonceWord pdata).toNat < maxNonce.toNat := hstart
    rw [toNat_succ_of_lt hstart]
    omega
  rw [scanhashRandomxBatch_eq, scanhashRandomx_eq, hlen]
  congr 1
  apply search_congr
  intro j _ _
  refine ⟨rfl, ?_⟩
  cases j with
  | zero => rw [hclear]; rfl
  | succ j => rfl

/-- Batch mode and plain mode return the same code and leave the same nonce
word, hash and count, whatever the restart flag does once it was clear on
entry. -/
theorem scanhashRandomxBatch_agrees (host : ByteOrder) (restart : Nat → Bool)
    (vm vm' : RandomxVm) (hstart : nonceWord pdata < maxNonce) (hclear : restart 0 = false) :
    let batch := scanhashRandomxBatch host rx restart pdata ptarget maxNonce outRxHash vm
    let plain := scanhashRandomx host rx restart pdata ptarget maxNonce outRxHash vm'
    batch.rc = plain.rc ∧ batch.pdata = plain.pdata ∧
      batch.outRxHash = plain.outRxHash ∧ batch.hashesDone = plain.hashesDone := by
  intro batch plain
  have heq : batch = plain := scanhashRandomxBatch_eq_plain rx pdata ptarget maxNonce
    outRxHash host restart vm vm' hstart hclear
  rw [heq]
  exact ⟨rfl, rfl, rfl, rfl⟩

/-! ## The nonces of a range -/

theorem nonceAt_toNat {k : Nat} (hk : k ≤ maxNonce.toNat - (nonceWord pdata).toNat) :
    (nonceAt pdata k).toNat = (nonceWord pdata).toNat + k := by
  have hm := maxNonce.toNat_lt
  have hs := (nonceWord pdata).toNat_lt
  rw [nonceAt, UInt32.toNat_add, UInt32.toNat_ofNat']
  omega

theorem exists_nonceAt {n : UInt32} (hlo : nonceWord pdata ≤ n) (hhi : n < maxNonce) :
    ∃ k, k < maxNonce.toNat - (nonceWord pdata).toNat ∧ n = nonceAt pdata k := by
  have hlo' : (nonceWord pdata).toNat ≤ n.toNat := hlo
  have hhi' : n.toNat < maxNonce.toNat := hhi
  refine ⟨n.toNat - (nonceWord pdata).toNat, by omega, ?_⟩
  apply UInt32.toNat_inj.mp
  rw [nonceAt_toNat pdata maxNonce (by omega)]
  omega

/-- An uninterrupted scan, told by its nonces: it reports the first one the
test accepts, or that there is none. -/
theorem search_first (P : UInt32 → Prop) [DecidablePred P] :
    (∃ n, nonceWord pdata ≤ n ∧ n < maxNonce ∧ P n ∧
        (∀ m, nonceWord pdata ≤ m → m < n → ¬ P m) ∧
        ∃ k, n = nonceAt pdata k ∧
          search (fun k => decide (P (nonceAt pdata k))) (fun _ => false)
            (maxNonce.toNat - (nonceWord pdata).toNat) 0 = (k, true)) ∨
      (∀ n, nonceWord pdata ≤ n → n < maxNonce → ¬ P n) ∧
        (search (fun k => decide (P (nonceAt pdata k))) (fun _ => false)
          (maxNonce.toNat - (nonceWord pdata).toNat) 0).2 = false := by
  have hs := search_spec (fun k => decide (P (nonceAt pdata k))) (fun _ => false)
    (maxNonce.toNat - (nonceWord pdata).toNat) 0
  generalize search (fun k => decide (P (nonceAt pdata k))) (fun _ => false)
    (maxNonce.toNat - (nonceWord pdata).toNat) 0 = r at hs ⊢
  obtain ⟨k, found⟩ := r
  cases found with
  | true =>
      obtain ⟨hlt, hhit, -⟩ := hs.found rfl
      have hk := nonceAt_toNat pdata maxNonce (Nat.le_of_lt (by simpa using hlt))
      refine .inl ⟨nonceAt pdata k, ?_, ?_, of_decide_eq_true hhit, ?_, k, rfl, rfl⟩
      · rw [UInt32.le_iff_toNat_le]
        omega
      · rw [UInt32.lt_iff_toNat_lt]
        omega
      · intro m hlo hm
        have hm' : m.toNat < (nonceAt pdata k).toNat := hm
        have hmax : m < maxNonce := by
          rw [UInt32.lt_iff_toNat_lt]
          omega
        obtain ⟨j, hj, rfl⟩ := exists_nonceAt pdata maxNonce hlo hmax
        rw [nonceAt_toNat pdata maxNonce (Nat.le_of_lt hj)] at hm'
        exact of_decide_eq_false (hs.miss j (Nat.zero_le j) (by simp only; omega))
  | false =>
      refine .inr ⟨?_, rfl⟩
      intro n hlo hhi
      obtain ⟨j, hj, rfl⟩ := exists_nonceAt pdata maxNonce hlo hhi
      have hend : k = maxNonce.toNat - (nonceWord pdata).toNat := by
        rcases hs.ended rfl with he | hst
        · simpa using he
        · cases hst
      exact of_decide_eq_false (hs.miss j (Nat.zero_le j) (by simp only; omega))

/-! ## Finding every share -/

/-- The commitment of nonce `n`, as a 256-bit little-endian integer, is at
most the target. -/
def Qualifies (n : UInt32) : Prop :=
  leValue (nonceCommitment rx pdata n).toList ≤ wordsValue ptarget.toList

instance (n : UInt32) : Decidable (Qualifies rx pdata ptarget n) :=
  inferInstanceAs (Decidable (_ ≤ _))

def topWord (n : UInt32) : UInt32 :=
  le32dec (slice (nonceCommitment rx pdata n).toList 28 4)

/-- What a scan of `[pdata[19], maxNonce)` is for: it answers 1 exactly when a
nonce of the range qualifies, and then it has stored the smallest one, in
big-endian bytes, and the RandomX hash of its header. -/
structure FindsFirst (res : ScanResult) : Prop where
  rc : res.rc = 0 ∨ res.rc = 1
  finds : res.rc = 1 ↔
    ∃ n, nonceWord pdata ≤ n ∧ n < maxNonce ∧ Qualifies rx pdata ptarget n
  first : res.rc = 1 → ∃ n, nonceWord pdata ≤ n ∧ n < maxNonce ∧
    Qualifies rx pdata ptarget n ∧
    (∀ m, nonceWord pdata ≤ m → m < n → ¬ Qualifies rx pdata ptarget m) ∧
    ByteOrder.little.enc (nonceWord res.pdata) = be32enc n ∧
    res.outRxHash = nonceHash rx pdata n
  keeps : res.rc = 0 → res.outRxHash = outRxHash

theorem highWord_commitment (n : UInt32) :
    highWord (ByteOrder.little.words 8 (nonceCommitment rx pdata n).toList) =
      topWord rx pdata n := by
  rw [highWord, ByteOrder.words, Vector.getElem_ofFn]
  rfl

theorem shareTest_nonce (n : UInt32) :
    shareTest .little ptarget (nonceCommitment rx pdata n) =
      decide (topWord rx pdata n < highWord ptarget) := by
  rw [shareTest_eq, highWord_commitment]

theorem qualifies_of_topWord_lt {n : UInt32} (h : topWord rx pdata n < highWord ptarget) :
    Qualifies rx pdata ptarget n := by
  have ht : shareTest .little ptarget (nonceCommitment rx pdata n) = true := by
    rw [shareTest_nonce]
    simpa using h
  rw [shareTest, Bool.and_eq_true, fulltest_eq, decide_eq_true_eq] at ht
  rw [Qualifies, leValue_hash]
  exact of_decide_eq_true ht.2

theorem topWord_le_of_qualifies {n : UInt32} (h : Qualifies rx pdata ptarget n) :
    topWord rx pdata n ≤ highWord ptarget := by
  rw [Qualifies, leValue_hash] at h
  have hf := fulltest_eq (ByteOrder.little.words 8 (nonceCommitment rx pdata n).toList) ptarget
  rw [decide_eq_true h, fulltest, fulltest.go] at hf
  split at hf
  · cases hf
  · next hgt =>
      rw [← highWord_commitment]
      exact UInt32.not_lt.mp hgt

/-- No commitment ties with the target's top word and qualifies, unless a
smaller nonce of the range has its top word below the target's. -/
def NoTieFirst : Prop :=
  ∀ n, nonceWord pdata ≤ n → n < maxNonce → topWord rx pdata n = highWord ptarget →
    Qualifies rx pdata ptarget n →
    ∃ m, nonceWord pdata ≤ m ∧ m < n ∧ topWord rx pdata m < highWord ptarget

/-- Without early ties, what the strict test passes over does not qualify. -/
theorem NoTieFirst.none_below {rx : RandomX} {pdata : Vector UInt32 32}
    {ptarget : Vector UInt32 8} {maxNonce b : UInt32}
    (hno : NoTieFirst rx pdata ptarget maxNonce) (hb : b ≤ maxNonce)
    (hmiss : ∀ m, nonceWord pdata ≤ m → m < b → ¬ topWord rx pdata m < highWord ptarget) :
    ∀ m, nonceWord pdata ≤ m → m < b → ¬ Qualifies rx pdata ptarget m := by
  intro m hlo hm hq
  have htop := UInt32.le_antisymm (topWord_le_of_qualifies rx pdata ptarget hq)
    (UInt32.not_lt.mp (hmiss m hlo hm))
  obtain ⟨m', hlo', hlt', htop'⟩ := hno m hlo (UInt32.lt_of_lt_of_le hm hb) htop hq
  exact hmiss m' hlo' (UInt32.lt_trans hlt' hm) htop'

theorem findsFirst_search_iff :
    FindsFirst rx pdata ptarget maxNonce outRxHash
        (searchAnswer .little rx pdata outRxHash
          (search (nonceTest .little rx pdata ptarget) (fun _ => false)
            (maxNonce.toNat - (nonceWord pdata).toNat) 0)) ↔
      NoTieFirst rx pdata ptarget maxNonce := by
  have hhit : nonceTest .little rx pdata ptarget = fun k =>
      decide (topWord rx pdata (nonceAt pdata k) < highWord ptarget) :=
    funext fun k => shareTest_nonce rx pdata ptarget _
  rw [hhit]
  rcases search_first pdata maxNonce fun n => topWord rx pdata n < highWord ptarget
    with ⟨n, hlo, hhi, hn, hmiss, k, rfl, hk⟩ | ⟨hmiss, hk⟩
  · -- A share is reported, and the question is whether it is the first one.
    rw [hk, searchAnswer, if_pos rfl]
    constructor
    · intro hres m hmlo hmhi htop hq
      obtain ⟨n', _, _, _, hfirst, hstored, _⟩ := hres.first rfl
      have heq : nonceAt pdata k = n' := be32enc_inj (by rw [← hstored, scanFound_nonce])
      subst heq
      rcases Nat.lt_trichotomy m.toNat (nonceAt pdata k).toNat with hlt | heq | hgt
      · exact absurd hq (hfirst m hmlo hlt)
      · rw [← UInt32.toNat_inj.mp heq, htop] at hn
        exact absurd hn (UInt32.lt_irrefl _)
      · exact ⟨_, hlo, hgt, hn⟩
    · intro hno
      have hfirst := hno.none_below (UInt32.le_of_lt hhi) hmiss
      have hq := qualifies_of_topWord_lt rx pdata ptarget hn
      exact
        { rc := .inr rfl
          finds := ⟨fun _ => ⟨_, hlo, hhi, hq⟩, fun _ => rfl⟩
          first := fun _ => ⟨_, hlo, hhi, hq, hfirst, scanFound_nonce .., rfl⟩
          keeps := fun h => absurd (show (1 : Int) = 0 from h) (by decide) }
  · -- Nothing is reported: every tie in the range was a share.
    rw [searchAnswer, hk, if_neg (by decide)]
    constructor
    · intro hres m hmlo hmhi _ hq
      exact absurd (show (0 : Int) = 1 from hres.finds.mpr ⟨m, hmlo, hmhi, hq⟩) (by decide)
    · intro hno
      refine
        { rc := .inl rfl
          finds := ⟨fun h => absurd (show (0 : Int) = 1 from h) (by decide), ?_⟩
          first := fun h => absurd (show (0 : Int) = 1 from h) (by decide)
          keeps := fun _ => rfl }
      rintro ⟨m, hmlo, hmhi, hq⟩
      exact absurd hq (hno.none_below (UInt32.le_refl _) hmiss m hmlo hmhi)

/-- On a little-endian host, where the words of a commitment are its value, the
scans find what they should exactly where no tie in the top word comes before the
first commitment whose top word is below the target's. -/
theorem findsFirst_iff (vm : RandomxVm) (hstart : nonceWord pdata < maxNonce) :
    FindsFirst rx pdata ptarget maxNonce outRxHash
          (scanhashRandomx .little rx (fun _ => false) pdata ptarget maxNonce outRxHash vm) ∧
        FindsFirst rx pdata ptarget maxNonce outRxHash
          (scanhashRandomxBatch .little rx (fun _ => false) pdata ptarget maxNonce outRxHash
            vm) ↔
      NoTieFirst rx pdata ptarget maxNonce := by
  rw [← scanhashRandomxBatch_eq_plain rx pdata ptarget maxNonce outRxHash .little
    (fun _ => false) vm vm hstart rfl, and_self, scanhashRandomxBatch_eq]
  exact findsFirst_search_iff rx pdata ptarget maxNonce outRxHash

end

/-! ## At a concrete input

A library whose hashes are all zero, asked for one nonce: against the target
of difficulty 1, whose top word is zero, its commitment qualifies and is
missed. -/

def zeroRandomX : RandomX := ⟨fun _ => .replicate 32 0, fun _ _ => .replicate 32 0⟩

def diffOneTarget : Vector UInt32 8 := #v[0, 0, 0, 0, 0, 0, 0xffff0000, 0]

def topOneTarget : Vector UInt32 8 := #v[0, 0, 0, 0, 0, 0, 0xffff0000, 1]

/-- Only a header with a byte 3 in it has a small commitment, so that of the nonces
0, 1, 2, … over a header of zeros the fourth is the first share. -/
def threeRandomX : RandomX :=
  ⟨fun _ => .replicate 32 0, fun input _ => .replicate 32 (if 3 ∈ input then 0 else 255)⟩

theorem noTieFirst_three :
    NoTieFirst threeRandomX (.replicate 32 0) topOneTarget 5 := by
  intro n _ _ htop
  exfalso
  rw [topWord, nonceCommitment] at htop
  by_cases hthree : 3 ∈ nonceHeader (.replicate 32 0) n
  · simp only [threeRandomX, if_pos hthree] at htop
    exact absurd htop (by decide)
  · simp only [threeRandomX, if_neg hthree] at htop
    exact absurd htop (by decide)

theorem scanhashRandomxBatch_agrees_zero :
    let pdata := Vector.replicate 32 0
    let batch := scanhashRandomxBatch .little zeroRandomX (fun k => k == 2) pdata
      diffOneTarget 5 (.replicate 32 7) ⟨[]⟩
    let plain := scanhashRandomx .little zeroRandomX (fun k => k == 2) pdata
      diffOneTarget 5 (.replicate 32 7) ⟨[]⟩
    batch.rc = plain.rc ∧ batch.pdata = plain.pdata ∧
      batch.outRxHash = plain.outRxHash ∧ batch.hashesDone = plain.hashesDone :=
  scanhashRandomxBatch_agrees zeroRandomX (.replicate 32 0) diffOneTarget 5
    (.replicate 32 7) .little (fun k => k == 2) ⟨[]⟩ ⟨[]⟩ (by decide) rfl

theorem findsFirst_iff_three :
    let pdata := Vector.replicate 32 0
    let ptarget := topOneTarget
    FindsFirst threeRandomX pdata ptarget 5 (.replicate 32 7)
        (scanhashRandomx .little threeRandomX (fun _ => false) pdata ptarget 5
          (.replicate 32 7) ⟨[]⟩) ∧
      FindsFirst threeRandomX pdata ptarget 5 (.replicate 32 7)
        (scanhashRandomxBatch .little threeRandomX (fun _ => false) pdata ptarget 5
          (.replicate 32 7) ⟨[]⟩) :=
  (findsFirst_iff threeRandomX (.replicate 32 0) topOneTarget 5
    (.replicate 32 7) ⟨[]⟩ (by decide)).mpr noTieFirst_three

/-- Nonce 0 qualifies, and neither function reports it. -/
theorem findsFirst_fails_diffOne :
    let pdata := Vector.replicate 32 0
    ¬ FindsFirst zeroRandomX pdata diffOneTarget 1 (.replicate 32 7)
        (scanhashRandomx .little zeroRandomX (fun _ => false) pdata diffOneTarget 1
          (.replicate 32 7) ⟨[]⟩) ∧
      ¬ FindsFirst zeroRandomX pdata diffOneTarget 1 (.replicate 32 7)
        (scanhashRandomxBatch .little zeroRandomX (fun _ => false) pdata diffOneTarget 1
          (.replicate 32 7) ⟨[]⟩) := by
  intro pdata
  have hq : ∃ n, nonceWord pdata ≤ n ∧ n < 1 ∧ Qualifies zeroRandomX pdata diffOneTarget n :=
    ⟨0, by decide, by decide, by decide⟩
  exact ⟨fun h => absurd (h.finds.mpr hq) (by decide),
    fun h => absurd (h.finds.mpr hq) (by decide)⟩

end AlphaMiner
