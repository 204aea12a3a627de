import DistributedKV.Raft.Timers
import DistributedKV.Verify.Leaders
import Mathlib.Algebra.BigOperators.Ring.Finset
import Mathlib.Algebra.Order.BigOperators.Group.Finset
import Mathlib.Tactic.Linarith

/-!
# Timers

A value in the channel of a timer belongs to one expiry, and the timer was set at least
`ElectionTimeoutMin` before that. A loop that handles a signal may still get the value of an expiry
that came before it, if the value was on its way; with nothing on its way, the next election is
`ElectionTimeoutMin` off, and in any case a loop has no more elections than there was time for. It
never waits without a timer that will fire. Every term of a run is one that some node has stood in,
so that the clock bounds the terms.
-/

namespace DistributedKV.Raft

variable {cfg : Config} {t : Timing} {s s' : TimedCluster}

/-! ## Timeouts -/

theorem electionTimeout_nonneg (r : ℕ) (span : ℤ) : 0 ≤ electionTimeout r 0 span := by
  unfold electionTimeout
  split
  · exact le_rfl
  · next h =>
    rw [zero_add, sub_zero]
    exact Int.emod_nonneg _ (by omega)

theorem Timing.min_le_timeout (t : Timing) (r : ℕ) : t.electionTimeoutMin ≤ t.timeout r :=
  Int.le_add_of_nonneg_right (electionTimeout_nonneg ..)

theorem Timing.timeout_lt_max (h : t.electionTimeoutMin < t.electionTimeoutMax) (r : ℕ) :
    t.timeout r < t.electionTimeoutMax := by
  unfold timeout electionTimeout
  rw [if_neg (by omega), zero_add, sub_zero]
  have := Int.emod_lt_of_pos (r : ℤ) (b := t.electionTimeoutMax - t.electionTimeoutMin) (by omega)
  omega

/-- Only a timeout makes the loop start an election. -/
theorem TimerLoop.electing_of_select {l l' : TimerLoop} (hplace : l.place = .select)
    (hl : l.runTimerLoop t now role r w = some l') (he : l'.place = .electing) :
    w = .timeout ∧ l.timer.fired = true := by
  have hsel : l.place ≠ .electing := by simp [hplace]
  cases w with
  | stop => cases hl; cases he
  | electionReset =>
    obtain ⟨-, hl⟩ := Option.ite_none_right_eq_some.mp hl
    cases hl
    exact (hsel he).elim
  | timeout => exact ⟨rfl, (Option.ite_none_right_eq_some.mp hl).1⟩
  | heartbeat =>
    obtain ⟨-, hl⟩ := Option.ite_none_right_eq_some.mp hl
    split at hl
    · cases hl; cases he
    · cases hl; exact (hsel he).elim

/-! ## Steps in time -/

namespace TimedCluster

inductive Steps (cfg : Config) (t : Timing) (s : TimedCluster) : TimedAction → TimedCluster → Prop
  where
  | elapse : Steps cfg t s (.elapse d) { s with now := s.now + d }
  | expire : (s.loop n).timer.expire s.now = some timer →
    Steps cfg t s (.expire n) (s.setLoop n { s.loop n with timer })
  | send : (s.loop n).timer.send = some timer →
    Steps cfg t s (.send n) (s.setLoop n { s.loop n with timer })
  | tick : Steps cfg t s (.tick n) (s.setLoop n { s.loop n with heartbeat })
  | sendTick : Steps cfg t s (.sendTick n) (s.setLoop n { s.loop n with heartbeat })
  | select : (s.loop n).place = .select →
    (s.loop n).runTimerLoop t s.now (s.cluster.node n).role r w = some l → l.place ≠ .electing →
    Steps cfg t s (.select n w r) (s.setLoop n l)
  /-- An election is started. -/
  | stand : (s.loop n).place = .select →
    (s.loop n).runTimerLoop t s.now (s.cluster.node n).role r .timeout = some l →
    (s.loop n).timer.fired = true → l.place = .electing →
    s.cluster.step cfg (.act n .startElection) = some (c, evs) →
    Steps cfg t s (.select n .timeout r) ({ s with cluster := c }.setLoop n l)
  | goOn : s.returns n = true → (s.loop n).goOn t s.now r = some l →
    Steps cfg t s (.goOn n r) (s.setLoop n l)
  | restart : s.cluster.step cfg (.act n .restart) = some (c, evs) →
    TimerLoop.start t s.now r = some l →
    Steps cfg t s (.step (.act n .restart) r) ({ s with cluster := c }.setLoop n l)
  | other : s.cluster.step cfg a = some (c, evs) → (∀ n, a ≠ .act n .startElection) →
    (∀ n, a ≠ .act n .restart) → Steps cfg t s (.step a r) { s with
      cluster := c
      loop := fun n =>
        if s.cluster.resetsTimer a n then (s.loop n).resetElectionTimer else s.loop n }

theorem step_inv (h : s.step cfg t a = some s') : s.Steps cfg t a s' := by
  cases a with
  | elapse d => cases h; exact .elapse
  | expire n =>
    obtain ⟨timer, ht, rfl⟩ := Option.map_eq_some_iff.mp h
    exact .expire ht
  | send n =>
    obtain ⟨timer, ht, rfl⟩ := Option.map_eq_some_iff.mp h
    exact .send ht
  | tick n =>
    obtain ⟨heartbeat, -, rfl⟩ := Option.map_eq_some_iff.mp h
    exact .tick
  | sendTick n =>
    obtain ⟨heartbeat, -, rfl⟩ := Option.map_eq_some_iff.mp h
    exact .sendTick
  | select n w r =>
    obtain ⟨hplace, h⟩ := Option.ite_none_right_eq_some.mp h
    split at h
    · cases h
    · next l hl =>
      split at h
      · next he =>
        obtain ⟨⟨c, evs⟩, hc, rfl⟩ := Option.map_eq_some_iff.mp h
        obtain ⟨rfl, hf⟩ := TimerLoop.electing_of_select hplace hl he
        exact .stand hplace hl hf he hc
      · next hne => cases h; exact .select hplace hl hne
  | goOn n r =>
    obtain ⟨hret, h⟩ := Option.ite_none_right_eq_some.mp h
    obtain ⟨l, hl, rfl⟩ := Option.map_eq_some_iff.mp h
    exact .goOn hret hl
  | step a r =>
    simp only [step, clusterStep] at h
    split at h
    · cases h
    · next c evs hc =>
      split at h
      · cases h
      · obtain ⟨l, hl, rfl⟩ := Option.map_eq_some_iff.mp h
        exact .restart hc hl
      · next hne hne' => cases h; exact .other hc hne hne'

end TimedCluster

/-! ## What a step does to a timer -/

/-- The timer of `n` expires, or its loop is started or takes a case that sets the timer. -/
def TimedAction.concerns (n : NodeID) : TimedAction → Prop
  | .expire m => m = n
  | .select m w _ => m = n ∧ (w = .electionReset ∨ w = .timeout)
  | .step a _ => a = .act n .restart
  | _ => False

/-- What a step at `now` does to the loop of `n`. -/
inductive TimerLoop.Moves (t : Timing) (now : ℤ) (n : NodeID) (l l' : TimerLoop) :
    TimedAction → Prop where
  | keep : ¬ a.concerns n → l'.timer = l.timer → (l.place = .electing → l'.place = .electing) →
    Moves t now n l l' a
  | expire : l.timer.deadline = some d → d ≤ now →
    l'.timer = { l.timer with deadline := none, sends := l.timer.sends + 1 } →
    Moves t now n l l' (.expire n)
  | send : l.timer.sends = k + 1 → l'.timer = { l.timer with sends := k, fired := true } →
    Moves t now n l l' (.send n)
  /-- A timer that was active is not drained. -/
  | reset : l'.timer = { l.timer with
      deadline := some (now + t.timeout r)
      fired := l.timer.deadline.isSome && l.timer.fired } →
    Moves t now n l l' (.select n .electionReset r)
  | lead : l.timer.fired = true →
    l'.timer = { l.timer with deadline := some (now + t.timeout r), fired := false } →
    Moves t now n l l' (.select n .timeout r)
  | stand : l.timer.fired = true → l'.timer = { l.timer with fired := false } →
    l'.place = .electing → Moves t now n l l' (.select n .timeout r)
  | goOn : l'.timer = { l.timer with deadline := some (now + t.timeout r) } →
    Moves t now n l l' (.goOn n r)
  | start : l'.timer = { deadline := some (now + t.timeout r) } →
    Moves t now n l l' (.step (.act n .restart) r)

namespace TimerLoop.Moves

variable {l l' : TimerLoop}

theorem of_expire {timer : Timer} (he : l.timer.expire now = some timer) :
    l.Moves t now n { l with timer } (.expire n) := by
  unfold Timer.expire at he
  split at he
  · next d hd =>
    obtain ⟨hle, he⟩ := Option.ite_none_right_eq_some.mp he
    cases he
    exact .expire hd hle rfl
  · cases he

theorem of_send {timer : Timer} (hs : l.timer.send = some timer) :
    l.Moves t now n { l with timer } (.send n) := by
  obtain ⟨ch, hch, rfl⟩ := Option.map_eq_some_iff.mp hs
  unfold TimeChan.send at hch
  split at hch
  · cases hch
  · next k hk =>
    cases hch
    exact .send hk rfl

theorem of_runTimerLoop (hplace : l.place = .select)
    (hl : l.runTimerLoop t now role r w = some l') : l.Moves t now n l' (.select n w r) := by
  have hsel : l.place ≠ .electing := by simp [hplace]
  cases w with
  | stop =>
    cases hl
    exact .keep (by simp [TimedAction.concerns]) rfl fun h => (hsel h).elim
  | electionReset =>
    obtain ⟨-, hl⟩ := Option.ite_none_right_eq_some.mp hl
    cases hl
    refine .reset (r := r) ?_
    cases hd : l.timer.deadline with
    | none => simp [Timer.drain, Timer.reset]
    | some d => simp [Timer.reset]
  | timeout =>
    obtain ⟨hf, hl⟩ := Option.ite_none_right_eq_some.mp hl
    split at hl
    · cases hl
      exact .stand hf rfl rfl
    · cases hl
      exact .lead hf rfl
  | heartbeat =>
    obtain ⟨-, hl⟩ := Option.ite_none_right_eq_some.mp hl
    split at hl
    · cases hl
      exact .keep (by simp [TimedAction.concerns]) rfl fun h => (hsel h).elim
    · cases hl
      exact .keep (by simp [TimedAction.concerns]) rfl id

theorem of_goOn (hl : l.goOn t now r = some l') : l.Moves t now n l' (.goOn n r) := by
  unfold TimerLoop.goOn at hl
  split at hl
  · cases hl
    exact .goOn rfl
  · next hp =>
    cases hl
    exact .keep id rfl fun h => by rw [hp] at h; cases h
  · cases hl
  · cases hl

end TimerLoop.Moves

theorem TimerLoop.start_timer {l : TimerLoop} (hl : start t now r = some l) :
    l.timer = { deadline := some (now + t.timeout r) } := by
  unfold start at hl
  split at hl
  · cases hl
  · cases hl
    rfl

namespace TimedCluster

theorem setLoop_moves {c : Cluster} (hself : (s.loop m).Moves t s.now m l a)
    (hother : ∀ n, a.concerns n → n = m) (n : NodeID) :
    (s.loop n).Moves t s.now n (({ s with cluster := c }.setLoop m l).loop n) a := by
  by_cases hn : n = m
  · subst hn
    simpa [setLoop] using hself
  · refine .keep (fun h => hn (hother n h)) ?_ ?_ <;> simp [setLoop, hn]

theorem step_moves (hs : s.step cfg t a = some s') (n : NodeID) :
    (s.loop n).Moves t s.now n (s'.loop n) a := by
  cases step_inv hs with
  | elapse => exact .keep id rfl id
  | expire ht => exact setLoop_moves (.of_expire ht) (fun _ h => Eq.symm h) n
  | send ht => exact setLoop_moves (.of_send ht) (fun _ h => False.elim h) n
  | tick | sendTick =>
    refine setLoop_moves (.keep ?_ ?_ ?_) (fun _ h => ?_) n
    exacts [id, rfl, id, False.elim h]
  | select hp hl | stand hp hl =>
    exact setLoop_moves (.of_runTimerLoop hp hl) (fun _ h => (And.left h).symm) n
  | goOn _ hl => exact setLoop_moves (.of_goOn hl) (fun _ h => False.elim h) n
  | restart _ hl =>
    refine setLoop_moves (.start (TimerLoop.start_timer hl)) (fun m h => ?_) n
    cases h
    rfl
  | other _ _ hne =>
    dsimp only
    split
    · exact .keep (hne n) rfl id
    · exact .keep (hne n) rfl id

theorem step_now (hs : s.step cfg t a = some s') : s.now ≤ s'.now := by
  cases step_inv hs with
  | elapse => exact Int.le_add_of_nonneg_right (Int.natCast_nonneg _)
  | _ => exact le_rfl

end TimedCluster

/-! ## Values and their expiries -/

/-- Every expiry from now on, and every value that has not been taken, is `ElectionTimeoutMin` after
`b`. -/
structure TimerLoop.Since (t : Timing) (now b : ℤ) (l : TimerLoop) : Prop where
  active : ∀ d, l.timer.deadline = some d → b + t.electionTimeoutMin ≤ d
  value : 0 < l.timer.sends ∨ l.timer.fired = true → b + t.electionTimeoutMin ≤ now

/-- Nothing of an earlier expiry outlives a `Stop` and the receive after it: no value is on its way,
and none is in the channel of a timer that is active. -/
def Timer.Settled (tm : Timer) : Prop :=
  tm.sends = 0 ∧ (tm.deadline.isSome = true → tm.fired = false)

instance (tm : Timer) : Decidable tm.Settled := inferInstanceAs (Decidable (_ ∧ _))

/-- The step begins a wait of the loop of `n`, with nothing left of the waits before. -/
def TimerLoop.Renews (l : TimerLoop) (n : NodeID) : TimedAction → Prop
  | .select m w _ => m = n ∧ (w = .electionReset ∨ w = .timeout) ∧ l.timer.Settled
  | .step a _ => a = .act n .restart
  | _ => False

/-- With `k` timeouts handled, the timer has expired `e` times. Each expiry has one value at most,
and they are `ElectionTimeoutMin` apart. -/
structure TimerLoop.Tally (t : Timing) (now : ℤ) (k e : ℕ) (l : TimerLoop) : Prop where
  values : k + l.timer.sends + l.timer.fired.toNat ≤ e
  expiries : e * t.electionTimeoutMin ≤ now
  active : ∀ d, l.timer.deadline = some d → e * t.electionTimeoutMin + t.electionTimeoutMin ≤ d

/-- The loop of `n` handles a timeout. -/
def TimedAction.isTimeout (n : NodeID) : TimedAction → Bool
  | .select m .timeout _ => m = n
  | _ => false

/-- The timer is due within `ElectionTimeoutMax`, or a value is there or on its way. In an election
the loop needs none. -/
inductive TimerLoop.Awake (t : Timing) (now : ℤ) (l : TimerLoop) : Prop where
  | active : l.timer.deadline = some d → d < now + t.electionTimeoutMax → Awake t now l
  | sends : 0 < l.timer.sends → Awake t now l
  | fired : l.timer.fired = true → Awake t now l
  | busy : l.place = .electing → Awake t now l

namespace TimerLoop

variable {l l' : TimerLoop} {now now' b : ℤ} {n : NodeID}

theorem Since.later (h : l.Since t now b) (hnow : now ≤ now') : l.Since t now' b :=
  ⟨h.active, fun hv => (h.value hv).trans hnow⟩

theorem Tally.later (h : l.Tally t now k e) (hnow : now ≤ now') : l.Tally t now' k e :=
  ⟨h.values, h.expiries.trans hnow, h.active⟩

/-- There was time for every expiry. -/
theorem Tally.mul_le (h : l.Tally t now k e) (hnow : 0 ≤ now) (hi : i ≤ e) :
    i * t.electionTimeoutMin ≤ now := by
  rcases le_total 0 t.electionTimeoutMin with hmin | hmin
  · exact (mul_le_mul_of_nonneg_right (mod_cast hi) hmin).trans h.expiries
  · exact (mul_nonpos_of_nonneg_of_nonpos (Int.natCast_nonneg i) hmin).trans hnow

theorem Awake.later (h : l.Awake t now) (hnow : now ≤ now') : l.Awake t now' := by
  cases h with
  | active hd hlt => exact .active hd (by omega)
  | sends hs => exact .sends hs
  | fired hf => exact .fired hf
  | busy hp => exact .busy hp

/-- A deadline that has just been set. -/
theorem set_since (h : l.timer.deadline = some (now + t.timeout r)) (hb : b ≤ now) (d : ℤ)
    (hd : l.timer.deadline = some d) : b + t.electionTimeoutMin ≤ d := by
  cases h.symm.trans hd
  have := t.min_le_timeout r
  omega

namespace Moves

theorem since (hm : l.Moves t now n l' a) (h : l.Since t now b) (hb : b ≤ now) :
    l'.Since t now b := by
  obtain ⟨hact, hval⟩ := h
  cases hm with
  | keep _ htm => exact ⟨htm ▸ hact, htm ▸ hval⟩
  | expire hd hle htm => exact ⟨by simp [htm], fun _ => (hact _ hd).trans hle⟩
  | send hk htm => exact ⟨by simpa [htm] using hact, fun _ => hval (.inl (by omega))⟩
  | reset htm =>
    refine ⟨set_since (congrArg Timer.deadline htm) hb, fun hv => hval ?_⟩
    exact hv.imp (by simp [htm]) (by simp +contextual [htm])
  | lead hf htm => exact ⟨set_since (congrArg Timer.deadline htm) hb, fun _ => hval (.inr hf)⟩
  | stand hf htm => exact ⟨by simpa [htm] using hact, fun _ => hval (.inr hf)⟩
  | goOn htm => exact ⟨set_since (congrArg Timer.deadline htm) hb, by simpa [htm] using hval⟩
  | start htm => exact ⟨set_since (congrArg Timer.deadline htm) hb, by simp [htm]⟩

/-- After a renewal it is as if the timer had never been set before. -/
theorem renews (hm : l.Moves t now n l' a) (ha : l.Renews n a) : l'.Since t now now := by
  cases hm with
  | keep hne =>
    cases a with
    | select => exact (hne ⟨ha.1, ha.2.1⟩).elim
    | step => exact (hne ha).elim
    | _ => exact False.elim ha
  | expire | send | goOn => exact False.elim ha
  | reset htm =>
    obtain ⟨-, -, hs, hf⟩ := ha
    refine ⟨set_since (congrArg Timer.deadline htm) le_rfl, ?_⟩
    simpa [htm, hs] using fun hd hfired => absurd (hf hd) (by simp [hfired])
  | lead _ htm =>
    obtain ⟨-, -, hs, -⟩ := ha
    exact ⟨set_since (congrArg Timer.deadline htm) le_rfl, by simp [htm, hs]⟩
  | stand hfired htm =>
    -- The value was the timer's own: it is not active, and the election will set it.
    obtain ⟨-, -, hs, hf⟩ := ha
    have hd : l.timer.deadline = none := by simpa [hfired] using hf
    exact ⟨by simp [htm, hd], by simp [htm, hs]⟩
  | start htm => exact ⟨set_since (congrArg Timer.deadline htm) le_rfl, by simp [htm]⟩

/-- A timeout takes a value, and only an expiry gives one. -/
theorem tally (hm : l.Moves t now n l' a) (h : l.Tally t now k e) :
    ∃ e', l'.Tally t now (k + (a.isTimeout n).toNat) e' := by
  obtain ⟨hval, hexp, hact⟩ := h
  cases hm with
  | keep hne htm =>
    have ha : a.isTimeout n = false := by
      cases a with
      | select m w => cases w <;> simp_all [TimedAction.isTimeout, TimedAction.concerns]
      | _ => rfl
    exact ⟨e, by simpa [ha, htm] using hval, hexp, htm ▸ hact⟩
  | expire hd hle htm =>
    refine ⟨e + 1, ?_, ?_, by simp [htm]⟩
    · simp only [htm, TimedAction.isTimeout, Bool.toNat_false]
      omega
    · push_cast
      linarith [hact _ hd]
  | send hk htm =>
    refine ⟨e, ?_, hexp, by simpa [htm] using hact⟩
    simp only [htm, TimedAction.isTimeout, Bool.toNat_false, Bool.toNat_true]
    omega
  | reset htm =>
    refine ⟨e, ?_, hexp, set_since (congrArg Timer.deadline htm) hexp⟩
    have hle : (l.timer.deadline.isSome && l.timer.fired).toNat ≤ l.timer.fired.toNat := by
      cases l.timer.deadline.isSome <;> simp
    simp only [htm, TimedAction.isTimeout, Bool.toNat_false]
    omega
  | lead hf htm =>
    refine ⟨e, ?_, hexp, set_since (congrArg Timer.deadline htm) hexp⟩
    simpa [htm, hf, TimedAction.isTimeout, Nat.add_right_comm] using hval
  | stand hf htm =>
    refine ⟨e, ?_, hexp, by simpa [htm] using hact⟩
    simpa [htm, hf, TimedAction.isTimeout, Nat.add_right_comm] using hval
  | goOn htm =>
    exact ⟨e, by simpa [htm, TimedAction.isTimeout] using hval, hexp,
      set_since (congrArg Timer.deadline htm) hexp⟩
  | start htm =>
    refine ⟨e, ?_, hexp, set_since (congrArg Timer.deadline htm) hexp⟩
    simp only [htm, TimedAction.isTimeout, Bool.toNat_false]
    omega

theorem awake (hm : l.Moves t now n l' a) (hvalid : t.electionTimeoutMin < t.electionTimeoutMax)
    (h : l.Awake t now) : l'.Awake t now := by
  have hset {r : ℕ} (htm : l'.timer.deadline = some (now + t.timeout r)) : l'.Awake t now :=
    .active htm (Int.add_lt_add_left (Timing.timeout_lt_max hvalid r) now)
  cases hm with
  | keep _ htm hp =>
    cases h with
    | active hd hlt => exact .active (htm ▸ hd) hlt
    | sends hs => exact .sends (htm ▸ hs)
    | fired hf => exact .fired (htm ▸ hf)
    | busy hbusy => exact .busy (hp hbusy)
  | expire _ _ htm => exact .sends (by simp [htm])
  | send _ htm => exact .fired (by simp [htm])
  | stand _ _ hp => exact .busy hp
  | reset htm | lead _ htm | goOn htm | start htm => exact hset (congrArg Timer.deadline htm)

end Moves

theorem start_tally (hl : start t now r = some l) (hnow : 0 ≤ now) : l.Tally t now 0 0 := by
  have htm := start_timer hl
  refine ⟨by simp [htm], by simpa using hnow, ?_⟩
  exact set_since (congrArg Timer.deadline htm) (by simpa using hnow)

theorem start_awake (hl : start t now r = some l)
    (hvalid : t.electionTimeoutMin < t.electionTimeoutMax) : l.Awake t now :=
  .active (congrArg Timer.deadline (start_timer hl))
    (Int.add_lt_add_left (Timing.timeout_lt_max hvalid r) now)

end TimerLoop

/-- The timeouts that the loop of `n` has handled. -/
def timeouts (n : NodeID) (tr : List (TimedCluster × TimedAction)) : ℕ :=
  tr.countP fun x => x.2.isTimeout n

theorem timeouts_snoc : timeouts n (tr ++ [x]) = timeouts n tr + (x.2.isTimeout n).toNat := by
  simp [timeouts, List.countP_singleton, Bool.toNat, Bool.cond_eq_ite]

namespace TimedRun

theorem now_nonneg (h : TimedRun cfg t tr s) : 0 ≤ s.now := by
  induction h with
  | init => exact le_rfl
  | step _ hs ih => exact ih.trans (TimedCluster.step_now hs)

theorem since (h : TimedRun cfg t tr s) (n : NodeID) : ∀ x ∈ tr, x.1.now ≤ s.now ∧
    ((x.1.loop n).Renews n x.2 → (s.loop n).Since t s.now x.1.now) := by
  induction h with
  | init => simp
  | step _ hs ih =>
    have hnow := TimedCluster.step_now hs
    have hm := TimedCluster.step_moves hs n
    intro x hx
    rcases List.mem_append.mp hx with hx | hx
    · obtain ⟨hle, hx⟩ := ih x hx
      exact ⟨hle.trans hnow, fun ha => (hm.since (hx ha) hle).later hnow⟩
    · cases List.mem_singleton.mp hx
      exact ⟨hnow, fun ha => (hm.renews ha).later hnow⟩

theorem tally (h : TimedRun cfg t tr s) (n : NodeID) :
    ∃ e, (s.loop n).Tally t s.now (timeouts n tr) e := by
  induction h with
  | init r loop hl => exact ⟨0, TimerLoop.start_tally (hl n) le_rfl⟩
  | step _ hs ih =>
    obtain ⟨e, he⟩ := ih
    obtain ⟨e', he'⟩ := (TimedCluster.step_moves hs n).tally he
    exact ⟨e', timeouts_snoc ▸ he'.later (TimedCluster.step_now hs)⟩

theorem awake (h : TimedRun cfg t tr s) (hvalid : t.electionTimeoutMin < t.electionTimeoutMax)
    (n : NodeID) : (s.loop n).Awake t s.now := by
  induction h with
  | init r loop hl => exact TimerLoop.start_awake (hl n) hvalid
  | step _ hs ih =>
    exact ((TimedCluster.step_moves hs n).awake hvalid ih).later (TimedCluster.step_now hs)

end TimedRun

theorem TimedCluster.timeout_fired (hs : s.step cfg t (.select n .timeout r) = some s') :
    (s.loop n).timer.fired = true := by
  cases TimedCluster.step_inv hs with
  | select _ hl => exact (Option.ite_none_right_eq_some.mp hl).1
  | stand _ _ hf => exact hf

theorem TimedRun.of_exec (h : TimedRun cfg t tr s) (hx : s.exec cfg t tr as = some (s', tr')) :
    TimedRun cfg t tr' s' ∧ tr <+: tr' := by
  induction as generalizing s tr with
  | nil => cases hx; exact ⟨h, List.prefix_rfl⟩
  | cons a as ih =>
    simp only [TimedCluster.exec] at hx
    split at hx
    · next hs =>
      obtain ⟨h', hpre⟩ := ih (h.step hs) hx
      exact ⟨h', (List.prefix_append ..).trans hpre⟩
    · cases hx

/-- Timeouts between 300 and 600, heartbeats every 75. -/
def usualTiming : Timing := ⟨300, 600, 75⟩

/-- Three nodes whose timers are all due at 300. -/
def timedTrio : TimedCluster where
  cluster := Cluster.init
  loop := fun _ => { timer := { deadline := some 300 }, heartbeat := { next := 75 } }
  now := 0

/-- At 300, `n1` stands and asks `n2`, which votes for it and puts off its own timeout to 607. At
650 that has passed. -/
theorem timedTrio_run : ∃ s₁ tr s, TimedRun (trio 0) usualTiming tr s ∧
    (s₁, .select "n2" .electionReset 7) ∈ tr ∧ s₁.now = 300 ∧
    (s₁.loop "n2").timer.Settled ∧ s.now = 650 ∧
    (s.cluster.node "n2").log.currentTerm = 1 ∧ (s.loop "n2").place = .select ∧
    (s.step (trio 0) usualTiming (.select "n2" .timeout 0)).isSome := by
  have hx : (timedTrio.exec (trio 0) usualTiming []
      [.elapse 300, .expire "n1", .send "n1", .select "n1" .timeout 0,
        .step (.act "n1" .requestVotes) 0, .step (.deliver 0) 0]).any (fun x =>
      x.1.now = 300 ∧ (x.1.loop "n2").timer.Settled ∧
      (x.1.exec (trio 0) usualTiming x.2 [.select "n2" .electionReset 7, .elapse 350,
        .expire "n2", .send "n2"]).any fun y => y.1.now = 650 ∧
        (y.1.cluster.node "n2").log.currentTerm = 1 ∧ (y.1.loop "n2").place = .select ∧
        (y.1.step (trio 0) usualTiming (.select "n2" .timeout 0)).isSome) = true := by
    decide +kernel
  obtain ⟨⟨s₁, tr₁⟩, hp₁, hx⟩ := (Option.any_eq_true ..).mp hx
  obtain ⟨hnow, hset, hx⟩ := of_decide_eq_true hx
  obtain ⟨⟨s, tr⟩, hp, hx⟩ := (Option.any_eq_true ..).mp hx
  obtain ⟨h₁, -⟩ := (TimedRun.init (fun _ => 0) timedTrio.loop fun _ => rfl).of_exec hp₁
  rw [TimedCluster.exec] at hp
  split at hp
  · next hs =>
    obtain ⟨h, hpre⟩ := (h₁.step hs).of_exec hp
    exact ⟨s₁, tr, s, h, hpre.subset (by simp), hnow, hset, of_decide_eq_true hx⟩
  · cases hp

/-- **No election is early.** A loop handles its `k`-th timeout no sooner than `k` times
`ElectionTimeoutMin` after the start, and `ElectionTimeoutMin` after each signal and each timeout
that it handled while nothing of an earlier expiry was left. -/
theorem election_not_early (h : TimedRun cfg t tr s)
    (hs : s.step cfg t (.select n .timeout r) = some s') :
    (timeouts n tr + 1) * t.electionTimeoutMin ≤ s.now ∧
      ∀ x ∈ tr, (x.1.loop n).Renews n x.2 → x.1.now + t.electionTimeoutMin ≤ s.now := by
  have hf := TimedCluster.timeout_fired hs
  refine ⟨?_, fun x hx ha => ((h.since n x hx).2 ha).value (.inr hf)⟩
  obtain ⟨e, he⟩ := h.tally n
  have hk : timeouts n tr + 1 ≤ e := by
    have := he.values
    rw [hf, Bool.toNat_true] at this
    omega
  exact_mod_cast he.mul_le h.now_nonneg hk

theorem election_not_early_voter : ∃ s₁ tr s s', TimedRun (trio 0) usualTiming tr s ∧
    (s₁, .select "n2" .electionReset 7) ∈ tr ∧ s₁.now = 300 ∧
    s.step (trio 0) usualTiming (.select "n2" .timeout 0) = some s' ∧ s₁.now + 300 ≤ s.now := by
  obtain ⟨s₁, tr, s, h, hx, hnow, hset, -, -, -, hs⟩ := timedTrio_run
  obtain ⟨s', hs⟩ := Option.isSome_iff_exists.mp hs
  exact ⟨s₁, tr, s, s', h, hx, hnow, hs, (election_not_early h hs).2 _ hx ⟨rfl, .inl rfl, hset⟩⟩

-- The value of `n2` is on its way when it handles the signal of its vote, and arrives after that:
-- it stands at 300 as well.
example : (timedTrio.exec (trio 0) usualTiming []
    [.elapse 300, .expire "n1", .send "n1", .select "n1" .timeout 0,
      .step (.act "n1" .requestVotes) 0, .step (.deliver 0) 0, .expire "n2",
      .select "n2" .electionReset 7, .send "n2", .select "n2" .timeout 0]).any
    (fun x => x.1.now = 300 ∧ (x.1.cluster.node "n2").log.currentTerm = 2) = true := by
  decide +kernel

/-! ## One election at a time -/

theorem Cluster.step_election {c c' : Cluster} (hs : c.step cfg a = some (c', evs))
    (ha : a ≠ .act n .startElection) (h : (c.node n).election = none) :
    (c'.node n).election = none := by
  cases hel : (c'.node n).election with
  | none => rfl
  | some el' =>
    cases Cluster.step_changes hs n with
    | same heq => rw [heq, h] at hel; cases hel
    | act hact _ hacts heq =>
      rw [heq] at hel
      rcases hacts.election hel with h' | ⟨rfl, -⟩ | ⟨el, h', -⟩
      · rw [h] at h'; cases h'
      · exact (ha hact).elim
      · rw [h] at h'; cases h'
    | receive _ _ _ hrec heq =>
      rw [heq] at hel
      rcases hrec.election hel with h' | ⟨el, _, _, _, h', -⟩
      · rw [h] at h'; cases h'
      · rw [h] at h'; cases h'

/-- A loop that is not in `startElection` has no election that is being counted. -/
def TimedCluster.Idle (s : TimedCluster) : Prop :=
  ∀ n, (s.loop n).place ≠ .electing → (s.cluster.node n).election = none

namespace TimedCluster

theorem setLoop_idle {l : TimerLoop} (hself : l.place ≠ .electing → (c.node m).election = none)
    (hother : ∀ n ≠ m, (s.loop n).place ≠ .electing → (c.node n).election = none) :
    ({ s with cluster := c }.setLoop m l).Idle := by
  intro n hp
  simp only [setLoop] at hp ⊢
  split at hp
  · next hm => exact hm ▸ hself hp
  · next hm => exact hother n hm hp

theorem step_idle (h : s.Idle) (hs : s.step cfg t a = some s') : s'.Idle := by
  have hother (m n : NodeID) (_ : n ≠ m) := h n
  cases step_inv hs with
  | elapse => exact h
  | expire | send | tick | sendTick => exact setLoop_idle (h _) (hother _)
  | select hp => exact setLoop_idle (fun _ => h _ (by simp [hp])) (hother _)
  | stand _ _ _ he hc =>
    refine setLoop_idle (fun hne => (hne he).elim) fun n hn hp => ?_
    exact Cluster.step_election hc (by simpa using hn.symm) (h n hp)
  | @goOn n _ _ hret =>
    refine setLoop_idle (fun _ => ?_) (hother _)
    rcases Bool.or_eq_true_iff.mp hret with hp | hel
    · exact h n (of_decide_eq_true hp)
    · exact Option.isNone_iff_eq_none.mp hel
  | restart hc =>
    refine setLoop_idle (fun _ => ?_) fun n hn hp => Cluster.step_election hc (by simp) (h n hp)
    obtain ⟨-, hc⟩ := Option.ite_none_right_eq_some.mp hc
    cases hc
    rw [Cluster.after_node_self]
    rfl
  | other hc hne =>
    intro n hp
    refine Cluster.step_election hc (hne n) (h n ?_)
    dsimp only at hp
    split at hp
    · exact hp
    · exact hp

end TimedCluster

theorem TimedRun.idle (h : TimedRun cfg t tr s) : s.Idle := by
  induction h with
  | init => exact fun _ _ => rfl
  | step _ hs ih => exact TimedCluster.step_idle ih hs

/-- A value in the channel of a loop that waits can be taken. -/
theorem TimedCluster.Idle.handles (h : s.Idle) (hn : n ∈ cfg.ids)
    (hp : (s.loop n).place = .select) (hf : (s.loop n).timer.fired = true) (r : ℕ) :
    (s.step cfg t (.select n .timeout r)).isSome := by
  have hel := h n (by simp [hp])
  by_cases hrole : (s.cluster.node n).role = .leader
  · simp [step, hp, TimerLoop.runTimerLoop, hf, hrole]
  · simp [step, hp, TimerLoop.runTimerLoop, hf, hrole, Cluster.step, hn, Node.act, hel]

/-- **No timeout is lost.** While a loop waits, its timer is due within `ElectionTimeoutMax`, or it
has fired and the loop can handle that, at once or when the value has arrived. -/
theorem timeout_not_lost (h : TimedRun cfg t tr s)
    (hvalid : t.electionTimeoutMin < t.electionTimeoutMax) (hn : n ∈ cfg.ids)
    (hp : (s.loop n).place = .select) :
    (∃ d, (s.loop n).timer.deadline = some d ∧ d < s.now + t.electionTimeoutMax) ∨
      ((s.loop n).timer.fired = true ∧ ∀ r, (s.step cfg t (.select n .timeout r)).isSome) ∨
      ∃ s', s.step cfg t (.send n) = some s' ∧
        ∀ r, (s'.step cfg t (.select n .timeout r)).isSome := by
  cases h.awake hvalid n with
  | active hd hlt => exact .inl ⟨_, hd, hlt⟩
  | fired hf => exact .inr (.inl ⟨hf, h.idle.handles hn hp hf⟩)
  | sends hpos =>
    obtain ⟨k, hk⟩ := Nat.exists_eq_add_one_of_ne_zero hpos.ne'
    have hs : s.step cfg t (.send n) = some (s.setLoop n { s.loop n with
        timer := { (s.loop n).timer with sends := k, fired := true } }) := by
      simp [TimedCluster.step, Timer.send, TimeChan.send, hk]
    refine .inr (.inr ⟨_, hs, (h.step hs).idle.handles hn ?_ ?_⟩)
    · simpa [TimedCluster.setLoop] using hp
    · simp [TimedCluster.setLoop]
  | busy hbusy => rw [hp] at hbusy; cases hbusy

theorem timeout_not_lost_voter : ∃ tr s, TimedRun (trio 0) usualTiming tr s ∧ s.now = 650 ∧
    ((∃ d, (s.loop "n2").timer.deadline = some d ∧ d < 1250) ∨
      ((s.loop "n2").timer.fired = true ∧
        ∀ r, (s.step (trio 0) usualTiming (.select "n2" .timeout r)).isSome) ∨
      ∃ s', s.step (trio 0) usualTiming (.send "n2") = some s' ∧
        ∀ r, (s'.step (trio 0) usualTiming (.select "n2" .timeout r)).isSome) := by
  obtain ⟨-, tr, s, h, -, -, -, hnow, -, hp, -⟩ := timedTrio_run
  have hlost := timeout_not_lost h (by decide) (by decide) hp
  rw [hnow] at hlost
  exact ⟨tr, s, h, hnow, hlost⟩

/-! ## Terms -/

/-- The term by which a message can raise that of its receiver. -/
def Envelope.term (env : Envelope) : ℕ :=
  match env.body with
  | .voteReq req => req.term
  | .voteResp _ resp => resp.term
  | .appendReq _ req => req.term
  | .appendResp _ _ resp => resp.term
  | .snapReq req => req.term
  | .snapResp _ resp => resp.term

namespace Node

variable {s : Node} {me : Member}

theorem Acts.term_eq (hd : s.log.Durable) (ha : s.Acts me a ef) (hne : a ≠ .startElection) :
    ef.node.log.currentTerm = s.log.currentTerm := by
  cases ha with
  | startElection => exact (hne rfl).elim
  | lead _ _ _ hs => rw [hs]; exact (PersistentLog.SameBallot.appendEntries ..).currentTerm
  | propose hs =>
    obtain ⟨-, rfl⟩ := propose_ok hs
    exact (PersistentLog.SameBallot.appendEntries ..).currentTerm
  | tryAdvanceCommitIndex => rw [advance, tryAdvanceCommitIndex_eq]
  | linearizableRead hs => obtain ⟨-, rfl⟩ := linearizableRead_ok hs; rfl
  | waitForApplied => rw [waitForApplied_eq]
  | applyNext => exact (applyNext_ballot ..).1.currentTerm
  | restart => exact (PersistentLog.SameBallot.reopen hd).currentTerm
  | _ => rfl

theorem becomeFollower_term (s : Node) (k : ℕ) (l a : String) :
    (s.becomeFollower k l a).log.currentTerm = max s.log.currentTerm k := by
  rw [becomeFollower_eq]
  dsimp only
  split
  · next h => exact (max_eq_right h.le).symm
  · next h => exact (max_eq_left (not_lt.mp h)).symm

/-- A node does not get beyond the terms it hears of, and neither do its answers. -/
theorem Receives.term_le (h : s.Receives me env ef) (hs : s.log.currentTerm ≤ k)
    (henv : env.term ≤ k) : ef.node.log.currentTerm ≤ k ∧ ∀ env' ∈ ef.msgs, env'.term ≤ k := by
  cases h with
  | @voteReq src dst ep req =>
    replace henv : req.term ≤ k := henv
    simp only [List.mem_singleton, forall_eq, Envelope.term]
    by_cases hst : req.term < s.log.currentTerm
    · rw [handleRequestVote_stale hst]; exact ⟨hs, hs⟩
    · obtain ⟨s₁, hm, -, hr | ⟨-, -, hr⟩⟩ := handleRequestVote_spec (not_lt.mp hst) <;> rw [hr]
      · exact ⟨(hm.currentTerm (not_lt.mp hst)).trans_le henv, henv⟩
      · exact ⟨henv, henv⟩
  | @appendReq src dst ep caller req =>
    replace henv : req.term ≤ k := henv
    simp only [List.mem_singleton, forall_eq, Envelope.term]
    by_cases hst : req.term < s.log.currentTerm
    · rw [handleAppendEntries_stale hst]; exact ⟨hs, hs⟩
    · obtain ⟨s₁, hm, -, -, ⟨resp, href, -, hr⟩ | ⟨-, hr⟩⟩ :=
        handleAppendEntries_spec (not_lt.mp hst) <;> rw [hr]
      · exact ⟨(hm.currentTerm (not_lt.mp hst)).trans_le henv, (refusal_some href).2.trans_le henv⟩
      · rw [followCommit_eq]
        exact ⟨((PersistentLog.SameBallot.appendEntries ..).currentTerm.trans
          (hm.currentTerm (not_lt.mp hst))).trans_le henv, henv⟩
  | @snapReq src dst ep req =>
    replace henv : req.term ≤ k := henv
    simp only [List.mem_singleton, forall_eq, Envelope.term]
    by_cases hst : req.term < s.log.currentTerm
    · rw [handleInstallSnapshot_stale hst]; exact ⟨hs, hs⟩
    · obtain ⟨s₁, hm, -, -, ⟨-, hr⟩ | ⟨snap, -, -, hr⟩⟩ :=
        handleInstallSnapshot_spec (not_lt.mp hst) <;> rw [hr]
      · exact ⟨(hm.currentTerm (not_lt.mp hst)).trans_le henv, henv⟩
      · exact ⟨(hm.currentTerm (not_lt.mp hst)).trans_le henv, henv⟩
  | voteResp =>
    refine ⟨?_, by simp⟩
    rw [countVote_eq]
    split
    · exact (becomeFollower_term ..).trans_le (max_le hs henv)
    · split <;> exact hs
  | replicated =>
    refine ⟨?_, by simp⟩
    rw [replicated_eq]
    split
    · exact (becomeFollower_term ..).trans_le (max_le hs henv)
    · exact hs
  | confirmed =>
    refine ⟨?_, by simp⟩
    unfold Node.confirmed
    dsimp only
    split
    · exact (becomeFollower_term ..).trans_le (max_le hs henv)
    · exact hs
  | snapResp =>
    refine ⟨?_, by simp⟩
    rw [snapshotInstalled_eq]
    split
    · exact (becomeFollower_term ..).trans_le (max_le hs henv)
    · exact hs
  | discard => exact ⟨hs, by simp⟩

end Node

/-- No node and no message has gone beyond term `k`. -/
structure Cluster.Within (k : ℕ) (c : Cluster) : Prop where
  node : ∀ n, (c.node n).log.currentTerm ≤ k
  msg : ∀ env ∈ c.network, env.term ≤ k

theorem Cluster.Within.mono {c : Cluster} (h : c.Within k) (hk : k ≤ k') : c.Within k' :=
  ⟨fun n => (h.node n).trans hk, fun env henv => (h.msg env henv).trans hk⟩

/-- The requests of a node are of terms that it has reached. -/
theorem Shadow.emits_term (h : Shadow cfg ok tr c r)
    (he : (c.node n).Emits (cfg.member n) a env) : env.term ≤ (c.node n).log.currentTerm := by
  obtain ⟨B, V⟩ := h.voting
  have hterm := (V.node n).term
  cases he with
  | voteReq hel => exact (B.voted_le ((V.node n).election hel).self).trans hterm.le
  | appendReq _ hreq =>
    have hsends : Node.Sends .. := Node.replicateToPeer_spec hreq
    exact hsends.term.le
  | snapReq _ hreq =>
    have hsends : Node.SendsSnapshot .. := Node.replicateToPeer_spec hreq
    exact hsends.term.le
  | heartbeat hrd => exact (B.leads_le ((h.led.node n).leads hrd)).trans hterm.le

theorem Cluster.Within.step (h : c.Within k) (hsh : Shadow cfg ok tr c r)
    (hs : c.step cfg a = some (c', evs)) (hne : ∀ n, a ≠ .act n .startElection) : c'.Within k where
  node n := by
    cases Cluster.step_changes hs n with
    | same heq => rw [heq]; exact h.node n
    | act hact _ ha heq =>
      rw [heq, ha.term_eq (hsh.voting.2.node n).durable (by rintro rfl; exact hne n hact)]
      exact h.node n
    | receive _ henv _ hrec heq =>
      rw [heq]
      exact (hrec.term_le (h.node n) (h.msg _ (List.mem_of_getElem? henv))).1
  msg env henv := by
    cases Cluster.step_network hs henv with
    | old hmem => exact h.msg env hmem
    | @act n _ _ _ ha hmsg => exact (hsh.emits_term (ha.emits hmsg)).trans (h.node n)
    | reply hmem hrec hmsg => exact (hrec.term_le (h.node _) (h.msg _ hmem)).2 env hmsg

/-- Standing for election takes a node one term further. -/
theorem Cluster.Within.stand {c c' : Cluster} (h : c.Within k)
    (hs : c.step cfg (.act n .startElection) = some (c', evs)) :
    n ∈ cfg.ids ∧ c'.Within (k + 1) := by
  obtain ⟨hn, hs⟩ := Option.ite_none_right_eq_some.mp hs
  split at hs
  · next ef hef =>
    obtain ⟨-, hef⟩ := Option.ite_none_right_eq_some.mp hef
    cases hef
    cases hs
    refine ⟨hn, fun m => ?_, fun env henv => (h.msg env ?_).trans k.le_succ⟩
    · simp only [Cluster.after]
      split
      · exact Nat.succ_le_succ (h.node n)
      · exact (h.node m).trans k.le_succ
    · simpa [Cluster.after] using henv
  · cases hs

theorem TimedRun.run (h : TimedRun cfg t tr s) : ∃ evs, Run cfg unrestricted evs s.cluster := by
  induction h with
  | init => exact ⟨_, .init⟩
  | step _ hs ih =>
    obtain ⟨evs, h⟩ := ih
    cases TimedCluster.step_inv hs with
    | stand _ _ _ _ hc => exact ⟨_, h.step trivial hc⟩
    | restart hc => exact ⟨_, h.step trivial hc⟩
    | other hc => exact ⟨_, h.step trivial hc⟩
    | _ => exact ⟨_, h⟩

/-- Every term is one that a node has stood in. -/
theorem TimedRun.within (h : TimedRun cfg t tr s) :
    s.cluster.Within (∑ n ∈ cfg.ids.toFinset, timeouts n tr) := by
  induction h with
  | init => exact ⟨fun _ => Nat.zero_le _, by simp [Cluster.init]⟩
  | @step tr s a s' h hs ih =>
    obtain ⟨evs, hrun⟩ := h.run
    obtain ⟨r, hsh⟩ := hrun.shadow
    have hmono : ∑ n ∈ cfg.ids.toFinset, timeouts n tr ≤
        ∑ n ∈ cfg.ids.toFinset, timeouts n (tr ++ [(s, a)]) :=
      Finset.sum_le_sum fun n _ => timeouts_snoc ▸ Nat.le_add_right ..
    cases TimedCluster.step_inv hs with
    | @stand m _ _ _ _ _ _ _ _ hc =>
      obtain ⟨hm, hw⟩ := ih.stand hc
      refine hw.mono (Nat.succ_le_of_lt (Finset.sum_lt_sum (fun n _ => ?_) ⟨m, ?_, ?_⟩))
      · exact timeouts_snoc ▸ Nat.le_add_right ..
      · exact List.mem_toFinset.mpr hm
      · rw [timeouts_snoc]
        simp [TimedAction.isTimeout]
    | restart hc => exact (ih.step hsh hc (by simp)).mono hmono
    | other hc hne => exact (ih.step hsh hc hne).mono hmono
    | _ => exact ih.mono hmono

/-- **The clock bounds the terms.** In a cluster whose nodes draw timeouts of at least
`ElectionTimeoutMin`, no term is higher than the number of elections there was time for. -/
theorem term_rate (h : TimedRun cfg t tr s) (hmin : 0 ≤ t.electionTimeoutMin) (n : NodeID) :
    (s.cluster.node n).log.currentTerm * t.electionTimeoutMin ≤ cfg.ids.length * s.now := by
  have hsum : ∑ n ∈ cfg.ids.toFinset, (timeouts n tr : ℤ) * t.electionTimeoutMin ≤
      cfg.ids.toFinset.card • s.now := by
    refine Finset.sum_le_card_nsmul _ _ _ fun n _ => ?_
    obtain ⟨e, he⟩ := h.tally n
    exact he.mul_le h.now_nonneg (by have := he.values; omega)
  rw [← Finset.sum_mul, List.toFinset_card_of_nodup cfg.nodup, nsmul_eq_mul] at hsum
  have hterm : ((s.cluster.node n).log.currentTerm : ℤ) ≤
      ∑ n ∈ cfg.ids.toFinset, (timeouts n tr : ℤ) := mod_cast h.within.node n
  exact (mul_le_mul_of_nonneg_right hterm hmin).trans hsum

theorem term_rate_voter : ∃ tr s, TimedRun (trio 0) usualTiming tr s ∧ s.now = 650 ∧
    (s.cluster.node "n2").log.currentTerm = 1 ∧
    (s.cluster.node "n2").log.currentTerm * 300 ≤ 3 * s.now := by
  obtain ⟨-, tr, s, h, -, -, -, hnow, hterm, -⟩ := timedTrio_run
  exact ⟨tr, s, h, hnow, hterm, term_rate h (by decide) "n2"⟩

end DistributedKV.Raft
