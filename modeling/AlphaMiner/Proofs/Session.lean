import AlphaMiner.Model.Session
import AlphaMiner.Proofs.JobLayout

/-!
# Generating work from a job of an earlier connection

`stratum_gen_work` copies and counts up as many bytes of the coinbase as the
current subscription says, from where the job's own subscription put them. The
two are the same subscription as long as the pool sends a job on every
connection before work is generated on it. Nothing makes it: a new connection
clears `g_work_time`, and the thread then generates work from the job it still
has.

`windowValid_iff` says that this is the only way. Up to any call all of whose
predecessors met it, the condition that the job was notified under the current
extra nonce and size is the same as the coinbase being laid out for them. The
counterexample is the shortest run without it: a reconnect to a pool that now
wants a larger extra nonce, and the call reads and writes behind the buffer.
-/

namespace AlphaMiner

open Lib

/-! ## What is wanted at a call -/

/-- The coinbase is that of the notification, around the extra nonces of the
current subscription, and the one that is counted up lies inside it. -/
def Session.WindowValid (s : Session) : Prop :=
  ∃ n x₂, s.notified = some n ∧ Window n.params s.ctx x₂ ∧
    s.ctx.job.xnonce2 + s.ctx.xnonce2Size ≤ s.ctx.job.coinbase.length

/-- The job was notified under the extra nonce and the size now subscribed to. -/
def Session.SameSubscription (s : Session) : Prop :=
  ∃ n ∈ s.notified, n.xnonce1 = s.ctx.xnonce1 ∧ n.xnonce2Size = s.ctx.xnonce2Size

instance (s : Session) : Decidable s.SameSubscription :=
  inferInstanceAs (Decidable (∃ n ∈ s.notified,
    n.xnonce1 = s.ctx.xnonce1 ∧ n.xnonce2Size = s.ctx.xnonce2Size))

/-- The context as it would be under the job's own subscription. -/
def Notified.under (n : Notified) (ctx : StratumCtx) : StratumCtx :=
  { ctx with xnonce1 := n.xnonce1, xnonce2Size := n.xnonce2Size }

theorem Window.inside {n : NotifyParams} {ctx : StratumCtx} {x₂ : Bytes} (h : Window n ctx x₂) :
    ctx.job.xnonce2 + ctx.xnonce2Size ≤ ctx.job.coinbase.length := by
  obtain ⟨c₁, c₂, hcoinbase, hptr, hx₂, -, -⟩ := h
  rw [hcoinbase, hptr, ← hx₂]
  simp only [List.length_append]
  omega

/-- One block is laid out for one subscription only: the pointer gives away the
length of the first extra nonce, and the length of the block that of the
second. -/
theorem Window.same {n : NotifyParams} {ctx ctx' : StratumCtx} {x₂ x₂' : Bytes}
    (h : Window n ctx x₂) (h' : Window n ctx' x₂') (hjob : ctx.job = ctx'.job) :
    ctx.xnonce1 = ctx'.xnonce1 ∧ ctx.xnonce2Size = ctx'.xnonce2Size := by
  obtain ⟨c₁, c₂, hcoinbase, hptr, hx₂, hd₁, hd₂⟩ := h
  obtain ⟨c₁', c₂', hcoinbase', hptr', hx₂', hd₁', hd₂'⟩ := h'
  have hc₁ : c₁.length = c₁'.length := hd₁.length.trans hd₁'.length.symm
  have hc₂ : c₂.length = c₂'.length := hd₂.length.trans hd₂'.length.symm
  rw [hjob] at hcoinbase hptr
  have hxnonce1 : ctx.xnonce1.length = ctx'.xnonce1.length := by omega
  have heq : c₁ ++ (ctx.xnonce1 ++ (x₂ ++ c₂)) = c₁' ++ (ctx'.xnonce1 ++ (x₂' ++ c₂')) := by
    rw [← List.append_assoc, ← List.append_assoc, ← hcoinbase, hcoinbase',
      List.append_assoc, List.append_assoc]
  obtain ⟨-, heq⟩ := List.append_inj heq hc₁
  obtain ⟨heq₁, heq⟩ := List.append_inj heq hxnonce1
  have hlen := congrArg List.length heq
  rw [List.length_append, List.length_append] at hlen
  exact ⟨heq₁, by omega⟩

/-! ## What a step can do -/

/-- A line leaves the job as it is or is the notification of a new one. -/
theorem handle_job (s : Session) (optRedirect : Bool) (heap : Nat → UInt8) (sent : Bool)
    (val : Option Json) {s' : Session} (hs : (s.handle optRedirect heap sent val).2 = s') :
    (s'.ctx.job = s.ctx.job ∧ s'.notified = s.notified) ∨
      ∃ n, s'.ctx = { s.ctx with job := notifyJob heap n s.ctx } ∧
        s'.notified = some ⟨n, s.ctx.xnonce1, s.ctx.xnonce2Size⟩ := by
  subst hs
  unfold Session.handle acceptedNotify stratumHandleMethod
  cases jsonStringValue (jsonObjectGet val "method") with
  | none => exact .inl ⟨rfl, rfl⟩
  | some method =>
      simp only
      by_cases hnotify : method.map lowerAscii = ascii "mining.notify"
      · rw [if_pos hnotify, if_pos hnotify]
        rw [stratumNotify]
        cases notifyParams (jsonObjectGet val "params") with
        | none => exact .inl ⟨rfl, rfl⟩
        | some n => exact .inr ⟨n, rfl, rfl⟩
      · left
        rw [if_neg hnotify, if_neg hnotify]
        refine ⟨?_, rfl⟩
        split
        · simp only [stratumSetDifficulty]
          split
          · rfl
          · rfl
        · split
          · rfl
          · split
            · rfl
            · split
              · rfl
              · rfl

section

variable {sha256d : Bytes → Hash} {host : ByteOrder} {optRedirect : Bool} {s s' : Session}
  {e : SessionEvent}

theorem genWork_some (h : s.genWork sha256d host = some s') :
    ∃ ctx gWork, stratumGenWork sha256d host s.ctx s.gWork = some (ctx, gWork) ∧
      s' = { s with ctx := ctx, gWork := gWork } := by
  rw [Session.genWork] at h
  split at h
  · cases h
  · next ctx gWork hgen =>
      cases h
      exact ⟨ctx, gWork, hgen, rfl⟩

/-- A step leaves the job alone, or takes a new one from the pool, or generates
work from the one there is. -/
inductive StepEffect (sha256d : Bytes → Hash) (host : ByteOrder) (s : Session) (e : SessionEvent)
    (s' : Session) : Prop where
  | kept (hjob : s'.ctx.job = s.ctx.job) (hnotified : s'.notified = s.notified)
      (hwork : s'.gWork = s.gWork) (hposition : s'.position = .generating → s.needsWork)
  | notified (heap : Nat → UInt8) (n : NotifyParams)
      (hctx : s'.ctx = { s.ctx with job := notifyJob heap n s.ctx })
      (hnotified : s'.notified = some ⟨n, s.ctx.xnonce1, s.ctx.xnonce2Size⟩)
  | generated (hgen : stratumGenWork sha256d host s.ctx s.gWork = some (s'.ctx, s'.gWork))
      (hnotified : s'.notified = s.notified) (he : s.Generates e)

theorem effect_of_handle {heap : Nat → UInt8} {sent : Bool} {val : Option Json}
    (hctx : s'.ctx = (s.handle optRedirect heap sent val).2.ctx)
    (hnotified : s'.notified = (s.handle optRedirect heap sent val).2.notified)
    (hwork : s'.gWork = s.gWork) (hposition : s'.position ≠ .generating) :
    StepEffect sha256d host s e s' := by
  rcases handle_job s optRedirect heap sent val rfl with ⟨hjob, hsame⟩ | ⟨n, hnew, hn⟩
  · exact .kept (by rw [hctx, hjob]) (by rw [hnotified, hsame]) hwork
      fun hp => absurd hp hposition
  · exact .notified heap n (hctx.trans hnew) (hnotified.trans hn)

theorem sessionStep_effect (h : sessionStep sha256d host optRedirect s e = some s') :
    StepEffect sha256d host s e s' := by
  cases e with
  | connect ok =>
      simp only [sessionStep] at h
      split at h
      · split at h
        · cases h
          exact .kept rfl rfl rfl nofun
        · cases h
          exact .kept rfl rfl rfl nofun
      · cases h
  | subscribe heap first second =>
      have hjob := stratumSubscribe_job heap first second s.ctx
      simp only [sessionStep] at h
      split at h
      · split at h
        · cases h
          exact .kept hjob rfl rfl nofun
        · cases h
          exact .kept hjob rfl rfl nofun
      · cases h
  | authorize heap sent line =>
      simp only [sessionStep] at h
      split at h
      · next hposition =>
          split at h
          · cases h
            exact .kept rfl rfl rfl nofun
          · next val hline =>
              split at h
              · cases h
                exact effect_of_handle rfl rfl rfl (by simp [Session.handle, hposition])
              · split at h
                · cases h
                  exact effect_of_handle rfl rfl rfl nofun
                · cases h
                  exact effect_of_handle rfl rfl rfl nofun
      · cases h
  | check =>
      simp only [sessionStep] at h
      split at h
      · cases h
        refine .kept rfl rfl rfl fun hp => ?_
        simp only at hp
        split at hp
        · next hneeds => exact hneeds
        · cases hp
      · cases h
  | generate =>
      simp only [sessionStep] at h
      split at h
      · next hposition =>
          obtain ⟨t, ht, h⟩ := Option.map_eq_some_iff.mp h
          obtain ⟨ctx, gWork, hgen, rfl⟩ := genWork_some ht
          subst h
          exact .generated hgen rfl hposition
      · cases h
  | receive heap sent line =>
      simp only [sessionStep] at h
      split at h
      · split at h
        · cases h
          exact .kept rfl rfl rfl nofun
        · next val =>
            cases h
            refine @effect_of_handle _ _ optRedirect _ _ _ heap sent val rfl rfl rfl ?_
            simp only
            split
            · nofun
            · nofun
      · cases h
  | minerGenerate cfg work =>
      simp only [sessionStep] at h
      split at h
      · next hneeds =>
          obtain ⟨ctx, gWork, hgen, rfl⟩ := genWork_some h
          exact .generated hgen rfl hneeds
      · cases h

/-! ## Whole runs -/

/-- Between two steps: whatever work is generated from came with a notification,
and the block is still laid out as that notification left it. -/
structure SessionInvariant (s : Session) : Prop where
  known : s.ctx.job.jobId.isSome ∨ s.gWork.jobId.isSome ∨ s.position = .generating →
    s.notified.isSome
  layout : ∀ n, s.notified = some n → ∃ x₂, Window n.params (n.under s.ctx) x₂

theorem known_of_generates (hs : SessionInvariant s) (he : s.Generates e) :
    ∃ n, s.notified = some n := by
  apply Option.isSome_iff_exists.mp
  cases e with
  | generate => exact hs.known (.inr (.inr he))
  | minerGenerate cfg work =>
      have hneeds : s.minerNeedsWork cfg work = true := he
      simp only [Session.minerNeedsWork, Bool.and_eq_true] at hneeds
      exact hs.known (.inr (.inl hneeds.1.1))
  | _ => exact he.elim

theorem under_eq {n : Notified} {ctx : StratumCtx} (hxnonce1 : n.xnonce1 = ctx.xnonce1)
    (hsize : n.xnonce2Size = ctx.xnonce2Size) : n.under ctx = ctx := by
  rw [Notified.under, hxnonce1, hsize]

/-- The layout only depends on the job. -/
theorem Window.under_congr {n : Notified} {ctx ctx' : StratumCtx} {x₂ : Bytes}
    (h : Window n.params (n.under ctx) x₂) (hjob : ctx'.job = ctx.job) :
    Window n.params (n.under ctx') x₂ := by
  obtain ⟨c₁, c₂, hcoinbase, hptr, hrest⟩ := h
  refine ⟨c₁, c₂, ?_, ?_, hrest⟩
  · rw [show (n.under ctx').job = ctx.job from hjob]
    exact hcoinbase
  · rw [show (n.under ctx').job = ctx.job from hjob]
    exact hptr

theorem sessionInvariant_step (hs : SessionInvariant s)
    (hc : s.Generates e → s.SameSubscription)
    (h : sessionStep sha256d host optRedirect s e = some s') : SessionInvariant s' := by
  cases sessionStep_effect h with
  | kept hjob hnotified hwork hposition =>
      constructor
      · intro hknown
        rw [hjob, hwork] at hknown
        rw [hnotified]
        apply hs.known
        rcases hknown with hid | hid | hp
        · exact .inl hid
        · exact .inr (.inl hid)
        · have hneeds := hposition hp
          simp only [Session.needsWork, Bool.and_eq_true] at hneeds
          exact .inl hneeds.1
      · intro n hn
        rw [hnotified] at hn
        obtain ⟨x₂, hwindow⟩ := hs.layout n hn
        exact ⟨x₂, hwindow.under_congr hjob⟩
  | notified heap n hctx hnotified =>
      constructor
      · intro _
        rw [hnotified]
        rfl
      · intro m hm
        obtain rfl := Option.some.inj (hnotified.symm.trans hm)
        rw [hctx]
        exact window_notify heap n s.ctx
  | generated hgen hnotified he =>
      obtain ⟨n, hn, hxnonce1, hsize⟩ := hc he
      obtain ⟨jobId, xnonce2, -, hslice, hctx, -⟩ := stratumGenWork_some hgen
      constructor
      · intro _
        rw [hnotified, hn]
        rfl
      · intro m hm
        obtain rfl : n = m := Option.some.inj (hn.symm.trans (hnotified.symm.trans hm))
        obtain ⟨x₂, hwindow⟩ := hs.layout n hn
        rw [under_eq hxnonce1 hsize] at hwindow
        obtain rfl : x₂ = xnonce2 := Option.some.inj (hwindow.slice.symm.trans hslice)
        have hcounted := hwindow.set (length_incBytes x₂)
        rw [← hctx] at hcounted
        refine ⟨incBytes x₂, ?_⟩
        rw [under_eq]
        · exact hcounted
        · rw [hctx, hxnonce1]
        · rw [hctx, hsize]

/-- The call in `s` is right if and only if the job belongs to the subscription. -/
theorem SessionInvariant.windowValid_iff (hs : SessionInvariant s) (he : s.Generates e) :
    s.WindowValid ↔ s.SameSubscription := by
  obtain ⟨n, hn⟩ := known_of_generates hs he
  obtain ⟨x₂, hwindow⟩ := hs.layout n hn
  constructor
  · intro ⟨m, y₂, hm, hvalid, _⟩
    obtain rfl : n = m := Option.some.inj (hn.symm.trans hm)
    obtain ⟨hxnonce1, hsize⟩ := hwindow.same hvalid rfl
    exact ⟨n, hn, hxnonce1, hsize⟩
  · intro ⟨m, hm, hxnonce1, hsize⟩
    obtain rfl : n = m := Option.some.inj (hn.symm.trans hm)
    rw [under_eq hxnonce1 hsize] at hwindow
    exact ⟨n, x₂, hn, hwindow, hwindow.inside⟩

end

/-- The runs in which every call finds a job of the current subscription. -/
def sameSubscriptionRuns (sha256d : Bytes → Hash) (host : ByteOrder) (optRedirect : Bool) :
    Lts Session SessionEvent :=
  (stratumSession sha256d host optRedirect).guard fun s e => s.Generates e → s.SameSubscription

theorem sessionInvariant_reachable {sha256d : Bytes → Hash} {host : ByteOrder}
    {optRedirect : Bool} {s : Session}
    (h : (sameSubscriptionRuns sha256d host optRedirect).Reachable s) : SessionInvariant s := by
  refine h.invariant ?_ fun s e s' hs hnext => sessionInvariant_step hs hnext.1 hnext.2
  intro s hs
  obtain rfl : s = .start := hs
  constructor
  · nofun
  · nofun

/-- In a run in which every call so far found a job of its subscription, the
next one, by whichever thread, has a valid window if and only if it does too. -/
theorem windowValid_iff_sameSubscription {sha256d : Bytes → Hash} {host : ByteOrder}
    {optRedirect : Bool} {s : Session} {e : SessionEvent}
    (h : (sameSubscriptionRuns sha256d host optRedirect).Reachable s) (he : s.Generates e) :
    s.WindowValid ↔ s.SameSubscription :=
  (sessionInvariant_reachable h).windowValid_iff he

/-! ## A pool that changes its mind -/

/-- The pool's answer to `mining.subscribe`. -/
def sessionReply (xnonce2Size : Int) : Option (Option Json) :=
  some (some (.object
    [("id", .integer 1), ("error", .null),
      ("result", .array [.array [], .string (ascii "08000002"), .integer xnonce2Size])]))

def sessionAuthorized : Option (Option Json) :=
  some (some (.object [("id", .integer 2), ("error", .null), ("result", .bool true)]))

/-- A job with an empty second half. -/
def sessionNotify : Option (Option Json) :=
  some (some (.object
    [("method", .string (ascii "mining.notify")),
      ("params", .array
        [.string (ascii "01"), .string (List.replicate 64 49), .string (ascii "0102"),
          .string [], .array [], .string (ascii "20000000"), .string (ascii "1d00ffff"),
          .string (ascii "65d5c0f0"), .bool true])]))

/-- A first connection up to its work, a second one with twice the extra nonce,
and what the pool sends there before it answers `mining.authorize`. -/
def sessionRun (lines : List (Option (Option Json))) : List SessionEvent :=
  [.connect true, .subscribe (fun _ => 0) (sessionReply 4) none,
    .authorize (fun _ => 0) true sessionAuthorized, .check,
    .receive (fun _ => 0) true sessionNotify, .check, .generate,
    .receive (fun _ => 0) true none,
    .connect true, .subscribe (fun _ => 0) (sessionReply 8) none] ++
    lines.map (.authorize (fun _ => 0) true) ++
    [.authorize (fun _ => 0) true sessionAuthorized, .check]

def sessionSampleHash (_ : Bytes) : Hash := .replicate 32 0

theorem windowValid_iff_renotified :
    ∃ s, (sameSubscriptionRuns sessionSampleHash .little false).Reachable s ∧
      s.Generates .generate ∧ s.ctx.xnonce2Size = 8 ∧ s.WindowValid := by
  have hrun : ∃ s ∈ (sessionRun [sessionNotify]).foldlM (fun s e =>
      if s.Generates e → s.SameSubscription then sessionStep sessionSampleHash .little false s e
      else none) Session.start,
      s.Generates .generate ∧ s.ctx.xnonce2Size = 8 ∧ s.SameSubscription := by decide +kernel
  obtain ⟨s, hrun, hgen, hsize, hsame⟩ := hrun
  have hreach : (sameSubscriptionRuns sessionSampleHash .little false).Reachable s :=
    Lts.Reachable.replay_guard (fun _ _ _ h => h) (.init rfl) hrun
  exact ⟨s, hreach, hgen, hsize, (windowValid_iff_sameSubscription hreach hgen).mpr hsame⟩

theorem windowValid_fails_resubscribed :
    ¬ ∀ s e, (stratumSession sessionSampleHash .little false).Reachable s → s.Generates e →
      s.WindowValid := by
  intro hclaim
  have hrun : ∃ s ∈ (sessionRun []).foldlM (sessionStep sessionSampleHash .little false) .start,
      s.Generates .generate ∧
        s.ctx.job.coinbase.length < s.ctx.job.xnonce2 + s.ctx.xnonce2Size := by decide +kernel
  obtain ⟨s, hrun, hgen, hoverrun⟩ := hrun
  have hreach : (stratumSession sessionSampleHash .little false).Reachable s :=
    Lts.Reachable.replay (fun _ _ _ h => h) (.init rfl) hrun
  obtain ⟨n, x₂, -, -, hinside⟩ := hclaim s .generate hreach hgen
  omega

end AlphaMiner
