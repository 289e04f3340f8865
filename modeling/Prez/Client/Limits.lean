import Prez.Client.Memory

/-!
# `Prez.Client.Limits` — the soft limit of a client's output

A client is closed when its output has been at or above the soft limit for some seconds. The code notes the time when a check
finds the limit reached, and forgets it when a check finds it not reached. But checks run when something is added, and the
output shrinks when something is sent: between two checks it may have been empty.

`LimitState` has what the check reads, and records the usage of every moment. What happens to a client is an append (with a
check), a change without a check, or time; every run of `MemoryState` is one of these (`MemoryState.follows`). The property
holds as long as the output does not climb back to the limit while a time is noted (`Unbroken`), and fails otherwise.
-/

namespace Prez

open Lib

/-! ## Histories -/

/-- The meter and the length of the reply list at `server.unixtime`, and the usage at every moment so far. -/
structure LimitState where
  meter : Meter
  len : Nat
  unixtime : Nat
  history : List (Nat × UInt64)

/-- `append` is followed by a check. `drain` is not: a send, or a node that `addDeferredMultiBulkLength` adds. -/
inductive LimitEvent where
  | append (replyBytes : UInt64) (len : Nat)
  | drain (replyBytes : UInt64) (len : Nat)
  | time (unixtime : Nat)

namespace LimitState

def usage (s : LimitState) : UInt64 := s.meter.usage s.len

def record (s : LimitState) : LimitState := { s with history := (s.unixtime, s.usage) :: s.history }

/-- A client that was just connected. -/
def fresh (unixtime : Nat) : LimitState := record ⟨⟨0, 0, false, false⟩, 0, unixtime, []⟩

/-- The meter when the check starts. -/
def appended (s : LimitState) (replyBytes : UInt64) : Meter := Account.setBytes s.meter replyBytes

def step (limits : BufferLimits) (s : LimitState) (e : LimitEvent) : Option LimitState :=
  if s.meter.aborted then none
  else
    match e with
    | .append replyBytes len =>
      let meter := (s.appended replyBytes).asyncCloseClientOnOutputBufferLimitReached limits s.unixtime len
      some (record { s with meter, len })
    | .drain replyBytes len => some (record { s with meter := s.appended replyBytes, len })
    | .time unixtime => some (record { s with unixtime })

/-- Time does not run backwards. -/
def Valid (s : LimitState) : LimitEvent → Prop
  | .time unixtime => s.unixtime ≤ unixtime
  | .append _ _ | .drain _ _ => True

/-- The output does not climb from below the soft limit to it while a time is noted. -/
def Unbroken (limits : BufferLimits) (s : LimitState) : LimitEvent → Prop
  | .append replyBytes len | .drain replyBytes len =>
    s.meter.softLimitReachedTime ≠ 0 → s.usage < limits.softLimitBytes →
      (s.appended replyBytes).usage len < limits.softLimitBytes
  | .time _ => True

instance (s : LimitState) : (e : LimitEvent) → Decidable (s.Valid e)
  | .time _ => inferInstanceAs (Decidable (_ ≤ _))
  | .append _ _ | .drain _ _ => instDecidableTrue

instance (limits : BufferLimits) (s : LimitState) : (e : LimitEvent) → Decidable (s.Unbroken limits e)
  | .append replyBytes len | .drain replyBytes len =>
    inferInstanceAs (Decidable (s.meter.softLimitReachedTime ≠ 0 → s.usage < limits.softLimitBytes →
      (s.appended replyBytes).usage len < limits.softLimitBytes))
  | .time _ => instDecidableTrue

/-- The check after an append reports the soft limit, and the hard limit is not reached. -/
def Reports (limits : BufferLimits) (s : LimitState) (replyBytes : UInt64) (len : Nat) : Prop :=
  ((s.appended replyBytes).checkClientOutputBufferLimits limits s.unixtime len).2 = (true, false)

/-- The usage was at or above the soft limit at every moment of the last `soft_limit_seconds`. -/
def Continuous (limits : BufferLimits) (s : LimitState) (replyBytes : UInt64) (len : Nat) : Prop :=
  ∀ p ∈ (s.unixtime, (s.appended replyBytes).usage len) :: s.history,
    (s.unixtime : Int) - limits.softLimitSeconds ≤ p.1 → limits.softLimitBytes ≤ p.2

end LimitState

/-! ## The noted time -/

/-- A check keeps the noted time, sets it to the current one or clears it. -/
theorem asyncClose_time (limits : BufferLimits) (unixtime len : Nat) (a : Meter) :
    (a.asyncCloseClientOnOutputBufferLimitReached limits unixtime len).softLimitReachedTime = a.softLimitReachedTime ∨
    (a.asyncCloseClientOnOutputBufferLimitReached limits unixtime len).softLimitReachedTime = unixtime ∨
    (a.asyncCloseClientOnOutputBufferLimitReached limits unixtime len).softLimitReachedTime = 0 := by
  have hcheck : (a.checkClientOutputBufferLimits limits unixtime len).1.softLimitReachedTime = a.softLimitReachedTime ∨
      (a.checkClientOutputBufferLimits limits unixtime len).1.softLimitReachedTime = unixtime ∨
      (a.checkClientOutputBufferLimits limits unixtime len).1.softLimitReachedTime = 0 := by
    unfold Meter.checkClientOutputBufferLimits
    dsimp only
    split
    · split
      · exact .inr (.inl rfl)
      · split <;> exact .inl rfl
    · exact .inr (.inr rfl)
  unfold Meter.asyncCloseClientOnOutputBufferLimitReached
  split
  · exact .inl rfl
  split
  · exact .inl rfl
  dsimp only
  split <;> exact hcheck

/-- A report of the soft limit: a time is noted, it is long ago, and the limit is reached now. -/
theorem check_reports {limits : BufferLimits} {unixtime len : Nat} {a : Meter} {hard : Bool}
    (h : (a.checkClientOutputBufferLimits limits unixtime len).2 = (true, hard)) :
    a.softLimitReachedTime ≠ 0 ∧ limits.softLimitSeconds < (unixtime : Int) - a.softLimitReachedTime ∧
      limits.softLimitBytes ≤ a.usage len := by
  unfold Meter.checkClientOutputBufferLimits at h
  dsimp only at h
  split at h
  · rename_i hsoft
    split at h
    · cases congrArg Prod.fst h
    rename_i hsince
    split at h
    · cases congrArg Prod.fst h
    · rename_i hlong
      exact ⟨hsince, not_le.mp hlong, hsoft.2⟩
  · cases congrArg Prod.fst h

/-- While the limit is reached and a time is noted, it was reached at every moment after that time. -/
structure HistoryInv (limits : BufferLimits) (s : LimitState) : Prop where
  past : ∀ p ∈ s.history, p.1 ≤ s.unixtime
  reached : s.meter.softLimitReachedTime ≠ 0 → limits.softLimitBytes ≤ s.usage →
    ∀ p ∈ s.history, s.meter.softLimitReachedTime < p.1 → limits.softLimitBytes ≤ p.2

namespace HistoryInv

variable {limits : BufferLimits} {s s' : LimitState}

theorem fresh (unixtime : Nat) : HistoryInv limits (.fresh unixtime) where
  past p hp := by
    rw [List.mem_singleton.mp hp]
    exact le_rfl
  reached h := absurd rfl h

/-- A moment is recorded. -/
theorem record (hpast : ∀ p ∈ s.history, p.1 ≤ s.unixtime)
    (h : s.meter.softLimitReachedTime ≠ 0 → limits.softLimitBytes ≤ s.usage →
      ∀ p ∈ s.history, s.meter.softLimitReachedTime < p.1 → limits.softLimitBytes ≤ p.2) :
    HistoryInv limits s.record where
  past p hp := by
    rcases List.mem_cons.mp hp with rfl | hp
    · exact le_rfl
    · exact hpast p hp
  reached hsince hsoft p hp hlater := by
    rcases List.mem_cons.mp hp with rfl | hp
    · exact hsoft
    · exact h hsince hsoft p hp hlater

/-- The limit was reached before a change after which it is. -/
theorem before (h : HistoryInv limits s) {replyBytes : UInt64} {len : Nat}
    (hunbroken : s.Unbroken limits (.append replyBytes len)) (hsince : s.meter.softLimitReachedTime ≠ 0)
    (hsoft : limits.softLimitBytes ≤ (s.appended replyBytes).usage len) :
    ∀ p ∈ s.history, s.meter.softLimitReachedTime < p.1 → limits.softLimitBytes ≤ p.2 := by
  refine h.reached hsince (UInt64.not_lt.mp fun hbelow => ?_)
  exact absurd hsoft (UInt64.not_le.mpr (hunbroken hsince hbelow))

theorem step (h : HistoryInv limits s) {e : LimitEvent} (hvalid : s.Valid e) (hunbroken : s.Unbroken limits e)
    (hstep : s.step limits e = some s') : HistoryInv limits s' := by
  unfold LimitState.step at hstep
  split at hstep
  · cases hstep
  cases e with
  | append replyBytes len =>
    cases hstep
    refine record h.past fun hsince hsoft p hp hlater => ?_
    dsimp only at hsince hlater
    have hsoft' : limits.softLimitBytes ≤ (s.appended replyBytes).usage len := by
      unfold LimitState.usage Meter.usage at hsoft
      rwa [Account.asyncClose_bytes] at hsoft
    rcases asyncClose_time limits s.unixtime len (s.appended replyBytes) with hkeep | hnow | hclear
    · rw [hkeep] at hsince hlater
      exact h.before hunbroken hsince hsoft' p hp hlater
    · rw [hnow] at hlater
      exact absurd (h.past p hp) (not_le.mpr hlater)
    · exact absurd hclear hsince
  | drain replyBytes len =>
    cases hstep
    exact record h.past fun hsince hsoft => h.before hunbroken hsince hsoft
  | time unixtime =>
    cases hstep
    exact record (fun p hp => (h.past p hp).trans hvalid) h.reached

theorem of_run {unixtime : Nat} (hr : RunBy (LimitState.step limits)
    (fun s e => s.Valid e ∧ s.Unbroken limits e) (.fresh unixtime) s) : HistoryInv limits s :=
  RunBy.invariant (fun _ _ _ hok hstep h => h.step hok.1 hok.2 hstep) hr (fresh unixtime)

end HistoryInv

/-- **The soft limit means continuously exceeded**, in every history in which the output does not climb back to the limit
    while a time is noted: whenever a check reports it, the usage was at or above the limit at every moment of the
    preceding seconds. -/
theorem soft_limit_continuous {limits : BufferLimits} {unixtime : Nat} {s : LimitState}
    (hr : RunBy (LimitState.step limits) (fun s e => s.Valid e ∧ s.Unbroken limits e) (.fresh unixtime) s)
    {replyBytes : UInt64} {len : Nat} (hunbroken : s.Unbroken limits (.append replyBytes len))
    (hreport : s.Reports limits replyBytes len) : s.Continuous limits replyBytes len := by
  obtain ⟨hsince, hlong, hsoft⟩ := check_reports hreport
  intro p hp hwindow
  rcases List.mem_cons.mp hp with rfl | hp
  · exact hsoft
  · have hlater : s.meter.softLimitReachedTime < p.1 := by
      have hkeep : (s.appended replyBytes).softLimitReachedTime = s.meter.softLimitReachedTime := rfl
      rw [hkeep] at hlong
      omega
    exact (HistoryInv.of_run hr).before hunbroken hsince hsoft p hp hlater

/-- 50000 bytes for ten seconds, and no hard limit. -/
def tenSeconds : BufferLimits := ⟨0, 50000, 10⟩

/-- An output that stays above the limit for twenty seconds. -/
theorem soft_limit_continuous_slow : ∃ s, RunBy (LimitState.step tenSeconds)
    (fun s e => s.Valid e ∧ s.Unbroken tenSeconds e) (.fresh 100) s ∧
    s.Reports tenSeconds 70000 2 ∧ s.Continuous tenSeconds 70000 2 := by
  obtain ⟨s, hr, hv⟩ := run_of_exec (LimitState.step tenSeconds) (fun s e => s.Valid e ∧ s.Unbroken tenSeconds e)
    (.fresh 100) [.append 60000 1, .time 120]
    (fun s => (decide (s.Unbroken tenSeconds (.append 70000 2)),
      ((s.appended 70000).checkClientOutputBufferLimits tenSeconds s.unixtime 2).2)) (true, true, false)
    (by decide +kernel)
  have hunbroken : s.Unbroken tenSeconds (.append 70000 2) := of_decide_eq_true (congrArg Prod.fst hv)
  have hreport : s.Reports tenSeconds 70000 2 := congrArg Prod.snd hv
  exact ⟨s, hr, hreport, soft_limit_continuous hr hunbroken hreport⟩

/-! ## Clients -/

/-- The history belongs to the client. -/
structure Follows (m : MemoryState) (s : LimitState) : Prop where
  meter : s.meter = m.acct.toMeter
  len : s.len = m.st.out.reply.length
  unixtime : s.unixtime = m.unixtime

/-- There is a history for what happened since `s`. -/
def Reaches (limits : BufferLimits) (s : LimitState) (m : MemoryState) : Prop :=
  ∃ s', RunBy (LimitState.step limits) LimitState.Valid s s' ∧ Follows m s'

section

variable {env : MemoryEnv} {m m' : MemoryState} {s : LimitState}

theorem Reaches.refl {limits : BufferLimits} (h : Follows m s) : Reaches limits s m := ⟨s, .refl, h⟩

/-- A change of the output without a check. -/
theorem Reaches.of_drain {limits : BufferLimits} (h : Follows m s) (hlive : ¬ m.acct.aborted = true)
    (htime : m'.unixtime = m.unixtime) {n : UInt64} (hmeter : m'.acct.toMeter = Account.setBytes m.acct.toMeter n) :
    Reaches limits s m' := by
  have hlive' : ¬ s.meter.aborted = true := by rwa [h.meter]
  refine ⟨LimitState.record { s with meter := s.appended n, len := m'.st.out.reply.length },
    .single ⟨.drain n m'.st.out.reply.length, trivial, ?_⟩, ?_, rfl, h.unixtime.trans htime.symm⟩
  · rw [LimitState.step, if_neg hlive']
  · exact (congrArg (Account.setBytes · n) h.meter).trans hmeter.symm

/-- The account does not change, or it changes and is checked. -/
theorem Reaches.of_checked {limits : BufferLimits} (h : Follows m s) (hlive : ¬ m.acct.aborted = true)
    (htime : m'.unixtime = m.unixtime)
    (hchecked : Account.Checked limits m.unixtime m'.st.out.reply.length m.acct.toMeter m'.acct.toMeter) :
    Reaches limits s m' := by
  have hlive' : ¬ s.meter.aborted = true := by rwa [h.meter]
  generalize hmeter : m'.acct.toMeter = meter at hchecked
  cases hchecked with
  | same => exact .of_drain h hlive htime (n := m.acct.replyBytes) hmeter
  | check n =>
    let meter := (s.appended n).asyncCloseClientOnOutputBufferLimitReached limits s.unixtime m'.st.out.reply.length
    refine ⟨LimitState.record { s with meter, len := m'.st.out.reply.length },
      .single ⟨.append n m'.st.out.reply.length, trivial, ?_⟩, ?_, rfl, h.unixtime.trans htime.symm⟩
    · rw [LimitState.step, if_neg hlive']
    · rw [hmeter, ← h.unixtime, ← h.meter]
      rfl

theorem callPart_reaches {free : Nat} {c : ReplyCall} (h : Reaches env.limits s m)
    (hstep : m.callPart env free c = some m') : Reaches env.limits s m' := by
  obtain ⟨s₁, hr, hf⟩ := h
  unfold MemoryState.callPart at hstep
  split at hstep
  · cases hstep
    exact ⟨s₁, hr, hf⟩
  rename_i hlive
  obtain ⟨st, -, rfl⟩ := Option.map_eq_some_iff.mp hstep
  have hnext : Reaches env.limits s₁
      { m with st, acct := m.acct.reply env m.st.out free m.unixtime st.out.reply.length c } :=
    .of_checked hf hlive rfl (Account.reply_checked env m.st.out m.acct free m.unixtime st.out.reply.length c)
  obtain ⟨s₂, hr₂, hf₂⟩ := hnext
  exact ⟨s₂, hr.trans hr₂, hf₂⟩

/-- **What happens to a client is a history of appends, drains and time.** -/
theorem MemoryState.step_follows (hinv : MemoryInv env m) (hf : Follows m s) {e : MemoryEvent} (hvalid : m.Valid e)
    (hstep : m.step env e = some m') : Reaches env.limits s m' := by
  unfold MemoryState.step at hstep
  split at hstep
  · cases hstep
    exact .refl hf
  rename_i hlive
  cases e with
  | create v free =>
    obtain ⟨st, hst, hm⟩ := Option.map_eq_some_iff.mp hstep
    cases hst
    cases v <;> cases hm <;> exact .refl ⟨hf.meter, hf.len, hf.unixtime⟩
  | retain id =>
    obtain ⟨st, hst, rfl⟩ := Option.map_eq_some_iff.mp hstep
    obtain ⟨heap, -, rfl⟩ := Option.map_eq_some_iff.mp hst
    exact .refl ⟨hf.meter, hf.len, hf.unixtime⟩
  | release id =>
    obtain ⟨st, hst, rfl⟩ := Option.map_eq_some_iff.mp hstep
    obtain ⟨heap, -, rfl⟩ := Option.map_eq_some_iff.mp hst
    exact .refl ⟨hf.meter, hf.len, hf.unixtime⟩
  | removeFreeSpace id =>
    obtain ⟨r, -, rfl⟩ := Option.map_eq_some_iff.mp hstep
    split
    · exact .refl hf
    · split
      · exact .refl ⟨hf.meter, hf.len, hf.unixtime⟩
      · exact .refl hf
  | call c free =>
    obtain ⟨cs, -, hstep⟩ := Option.bind_eq_some_iff.mp hstep
    exact foldlM_some_invariant (P := Reaches env.limits s) (fun _ _ _ _ h hstep => callPart_reaches h hstep) (.refl hf)
      hstep
  | defer =>
    cases hstep
    exact .of_drain hf hlive rfl (n := m.acct.replyBytes) rfl
  | setDeferred id length =>
    obtain ⟨st, -, rfl⟩ := Option.map_eq_some_iff.mp hstep
    exact .of_checked hf hlive rfl (Account.setDeferred_checked env m.st.out m.acct id length m.unixtime _)
  | close =>
    cases hstep
    exact .refl ⟨hf.meter, hf.len, hf.unixtime⟩
  | send writes =>
    obtain ⟨⟨out, acct⟩, hsend, rfl⟩ := Option.map_eq_some_iff.mp hstep
    obtain ⟨-, n, hn⟩ := Account.sendReplyToClient_paid hinv.queue.wf hinv.charged hsend
    exact .of_drain hf hlive rfl hn
  | time unixtime =>
    cases hstep
    have hlive' : ¬ s.meter.aborted = true := by rwa [hf.meter]
    have htime : s.Valid (.time unixtime) := hf.unixtime.trans_le hvalid
    refine ⟨LimitState.record { s with unixtime }, .single ⟨.time unixtime, htime, ?_⟩, hf.meter, hf.len, rfl⟩
    rw [LimitState.step, if_neg hlive']

/-- Every run of a client has its history. -/
theorem MemoryState.follows {unixtime : Nat}
    (hr : RunBy (MemoryState.step env) MemoryState.Valid (.fresh unixtime) m) :
    Reaches env.limits (.fresh unixtime) m := by
  have hboth : MemoryInv env m ∧ Reaches env.limits (.fresh unixtime) m := by
    refine RunBy.invariant (P := fun m => MemoryInv env m ∧ Reaches env.limits (.fresh unixtime) m)
      (fun m e m' hvalid hstep h => ?_) hr ⟨.fresh unixtime, .refl ⟨rfl, rfl, rfl⟩⟩
    obtain ⟨hinv, s₁, hr₁, hf⟩ := h
    obtain ⟨s₂, hr₂, hf₂⟩ := m.step_follows hinv hf hvalid hstep
    exact ⟨hinv.step hvalid hstep, s₂, hr₁.trans hr₂, hf₂⟩
  exact hboth.2

theorem follows_glued : ∃ m, m.acct.replyBytes = 128 ∧ Reaches plainEnv.limits (.fresh 0) m := by
  obtain ⟨m, hr, hv⟩ := run_of_exec (MemoryState.step plainEnv) MemoryState.Valid (.fresh 0) gluedEvents
    (fun m => m.acct.replyBytes) 128 (by decide +kernel)
  exact ⟨m, hv, MemoryState.follows hr⟩

end

/-- A soft limit of 1000 bytes for ten seconds. The strings of the run below are the reply, the header of its length and
    the two of them glued together, and these are the blocks that `malloc` has for them. -/
def replyEnv : MemoryEnv := ⟨fun k => if k = 66 then 1016 else if k = 67 then 24 else 2024, ⟨0, 1000, 10⟩⟩

/-- A reply of 1000 bytes behind a deferred length is sent at once. A hundred seconds later there is another one. -/
def sentEvents : List MemoryEvent :=
  [.create (.raw (List.replicate 1000 120)) 0, .defer, .call (.reply 66) 0, .setDeferred 67 1, .send [(2000, true)],
    .time 200, .defer]

/-- The same as a history. -/
def sentHistory : List LimitEvent :=
  [.drain 0 1, .append 1016 2, .append 2024 1, .drain 0 0, .time 200, .drain 0 1]

/-- The client is closed for the soft limit although its output was empty until then. -/
theorem soft_limit_after_send :
    ∃ m m' s, RunBy (MemoryState.step replyEnv) MemoryState.Valid (.fresh 100) m ∧ m.Valid (.call (.reply 66) 0) ∧
      m.step replyEnv (.call (.reply 66) 0) = some m' ∧ m.acct.closeAsap = false ∧ m'.acct.closeAsap = true ∧
      RunBy (LimitState.step replyEnv.limits) LimitState.Valid (.fresh 100) s ∧ Follows m s ∧
      s.Reports replyEnv.limits m'.acct.replyBytes m'.st.out.reply.length ∧
      ¬ s.Continuous replyEnv.limits m'.acct.replyBytes m'.st.out.reply.length := by
  obtain ⟨m, hr, hm⟩ := run_of_exec (MemoryState.step replyEnv) MemoryState.Valid (.fresh 100) sentEvents
    (fun m => ((m.acct.toMeter, m.st.out.reply.length, m.unixtime), decide (m.Valid (.call (.reply 66) 0)),
      (m.step replyEnv (.call (.reply 66) 0)).map fun m' =>
        (m'.acct.closeAsap, m'.acct.replyBytes, m'.st.out.reply.length)))
    ((⟨0, 100, false, false⟩, 1, 200), true, some (true, 1016, 2)) (by decide +kernel)
  obtain ⟨s, hs, hv⟩ := run_of_exec (LimitState.step replyEnv.limits) LimitState.Valid (.fresh 100) sentHistory
    (fun s => ((s.meter, s.len, s.unixtime),
      ((s.appended 1016).checkClientOutputBufferLimits replyEnv.limits s.unixtime 2).2, s.history.head?))
    ((⟨0, 100, false, false⟩, 1, 200), (true, false), some (200, 40)) (by decide +kernel)
  simp only [Prod.mk.injEq, decide_eq_true_eq] at hm hv
  obtain ⟨⟨hmeter, hlen, htime⟩, hvalid, hstep⟩ := hm
  obtain ⟨⟨hmeter', hlen', htime'⟩, hreport, hhead⟩ := hv
  obtain ⟨m', hstep, hclosed⟩ := Option.map_eq_some_iff.mp hstep
  simp only [Prod.mk.injEq] at hclosed
  obtain ⟨hclosed, hbytes, hlength⟩ := hclosed
  refine ⟨m, m', s, hr, hvalid, hstep, congrArg Meter.closeAsap hmeter, hclosed, hs,
    ⟨hmeter'.trans hmeter.symm, hlen'.trans hlen.symm, htime'.trans htime.symm⟩, ?_, fun hcont => ?_⟩
  · rw [hbytes, hlength]
    exact hreport
  · have hmoment : (200, 40) ∈ s.history := List.mem_of_mem_head? hhead
    have := hcont (200, 40) (List.mem_cons_of_mem _ hmoment) (by rw [htime']; decide)
    exact absurd this (by decide)

end Prez
