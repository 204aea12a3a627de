import DistributedKV.Theory.Rounds
import DistributedKV.Verify.Matching
import DistributedKV.Verify.Replication

/-!
# Catching up

A leader that replicates to one follower again and again brings its log to that of the leader. The
follower refuses at most once for being too short and once for each term that it has beyond the
common prefix: the hints of a refusal take the leader past the whole term. It never comes back to a
term, because beyond the common prefix the two logs have no term in common.
-/

namespace DistributedKV.Raft

/-! ## Reading a represented log -/

namespace Rep

variable {pl : PersistentLog} {l : List Entry}

theorem termAt_eq (h : Rep pl l) (hi : pl.lastIncludedIndex ≤ i + 1) :
    pl.termAt (i + 1) = l[i]?.map Entry.term := by
  cases he : l[i]? with
  | some e => exact h.termAt_of hi he
  | none =>
    cases ht : pl.termAt (i + 1) with
    | none => rfl
    | some t =>
      have := (h.le_of_termAt ht).2
      rw [List.getElem?_eq_none_iff, h.length] at he
      omega

theorem range_eq (h : Rep pl l) (hlo : pl.lastIncludedIndex ≤ lo) (hhi : hi ≤ pl.lastIndex) :
    pl.range (lo + 1) hi = .ok ((l.drop lo).take (hi - lo)) := by
  have hlen : ((l.drop lo).take (hi - lo)).length = hi + 1 - (lo + 1) := by
    rw [List.length_take, List.length_drop, h.length]
    omega
  rw [PersistentLog.range, ← hlen]
  refine Represents.mapM_ok fun j e he => ?_
  rw [List.getElem?_take] at he
  split at he
  · rw [List.getElem?_drop] at he
    rw [Nat.add_right_comm]
    exact h.get_of (by omega) he
  · cases he

/-- The last entry of a segment tells where it ends. -/
theorem segment (h : Rep pl l) (hm : 0 < m) (hlt : prev < l.length) :
    Consecutive (prev + 1) ((l.drop prev).take m) ∧ ∃ e,
      ((l.drop prev).take m).getLast? = some e ∧
      e.index = prev + ((l.drop prev).take m).length := by
  have hcons : Consecutive (prev + 1) ((l.drop prev).take m) := by
    rw [Nat.add_comm]
    exact (h.index.drop (i := prev)).of_isPrefix (List.take_prefix m _)
  have hpos : 0 < ((l.drop prev).take m).length := by
    rw [List.length_take, List.length_drop]
    omega
  refine ⟨hcons, _, List.getLast?_eq_getLast_of_ne_nil (List.ne_nil_of_length_pos hpos), ?_⟩
  rw [hcons _ _ (List.getLast?_eq_getElem?.symm.trans
    (List.getLast?_eq_getLast_of_ne_nil (List.ne_nil_of_length_pos hpos)))]
  omega

end Rep

/-- A log above a boundary stands for every list that it continues. -/
theorem Represents.rep {pl : PersistentLog} (h : Represents pl s) (hidx : Consecutive 1 l)
    (hlen : l.length = s.lastIncludedIndex)
    (hterm : (l.getLast?.map Entry.term).getD 0 = s.lastIncludedTerm) :
    Rep pl (l ++ s.entries) := by
  have hlast : pl.lastIndex = l.length + s.entries.length := by
    rw [h.lastIndex, LogState.lastIndex, hlen]
  have hat {i : ℕ} (hi : l.length ≤ i) : (l ++ s.entries)[i]? = s.at? (i + 1) := by
    rw [List.getElem?_append_right hi, LogState.at?, if_pos (by omega), ← hlen,
      Nat.add_sub_add_right]
  refine ⟨?_, ?_, ?_, ?_, ?_, ?_, ?_, ?_, ?_, ?_⟩
  · rw [h.engine.1, h.engine.2, h.boundary.1, h.boundary.2]
    exact ⟨rfl, rfl⟩
  · rw [h.firstIndex, h.boundary.1]
  · rw [hlast, h.boundary.1]
    omega
  · rw [List.length_append, hlast]
  · have := h.consecutive
    rw [← hlen, Nat.add_comm] at this
    exact hidx.append this
  · intro i hi _
    rw [h.disk, hat (by rw [hlen, ← h.boundary.1]; exact hi)]
  · intro i e he
    have hs := h.cache he
    rw [hat, hs]
    by_contra hlt
    rw [LogState.at?_of_le (by omega)] at hs
    cases hs
  · intro e he
    obtain ⟨x, hx⟩ := Option.isSome_iff_exists.mp (lookup_isSome he)
    rw [h.disk, LogState.at?] at hx
    split at hx
    · have := (List.getElem?_eq_some_iff.mp hx).1
      omega
    · cases hx
  · intro i hi
    rw [h.boundary.1, ← hlen] at hi
    rw [h.boundary.2, ← hterm, List.getLast?_eq_getElem?, hi, Nat.add_sub_cancel,
      List.getElem?_append_left (by omega), List.getElem?_eq_getElem (by omega)]
    exact ⟨_, rfl, rfl⟩
  · intro h0
    rw [h.boundary.1, ← hlen, List.length_eq_zero_iff] at h0
    rw [h.boundary.2, ← hterm, h0]
    rfl

/-! ## The scans -/

namespace Node

variable {pl : PersistentLog} {l : List Entry}

/-- The follower finds the first index of its term. -/
theorem conflictStart_spec (h : Rep pl l) (hi : pl.lastIncludedIndex < i)
    (ht : pl.termAt i = some t) :
    pl.lastIncludedIndex < conflictStart pl t i ∧ conflictStart pl t i ≤ i ∧
      (∀ k, conflictStart pl t i ≤ k → k ≤ i → pl.termAt k = some t) ∧
      (pl.lastIncludedIndex + 1 < conflictStart pl t i →
        pl.termAt (conflictStart pl t i - 1) ≠ some t) := by
  induction i with
  | zero => omega
  | succ i ih =>
    rw [conflictStart, h.firstIndex]
    split
    · next hg =>
      obtain ⟨h₁, h₂, h₃, h₄⟩ := ih (by omega) hg.2
      refine ⟨h₁, by omega, fun k hk hki => ?_, h₄⟩
      rcases hki.eq_or_lt with rfl | hki
      · exact ht
      · exact h₃ k hk (by omega)
    · next hg =>
      refine ⟨hi, le_rfl, fun k hk hki => ?_, fun hlt hi' => hg ⟨hlt, hi'⟩⟩
      rw [le_antisymm hki hk]
      exact ht

/-- The leader finds the last entry of a term, if it has one above its boundary. -/
theorem backtrack_spec (h : Rep pl l) (hsorted : l.Pairwise fun e e' => e.term ≤ e'.term)
    (newNext : ℕ) (hidx : idx ≤ pl.lastIndex) :
    (∃ i, pl.lastIncludedIndex < i ∧ i ≤ idx ∧ pl.termAt i = some t ∧
        (∀ k, i < k → k ≤ idx → pl.termAt k ≠ some t) ∧ backtrack pl t newNext idx = i + 1) ∨
      backtrack pl t newNext idx = newNext ∧
        ∀ i, pl.lastIncludedIndex < i → i ≤ idx → pl.termAt i ≠ some t := by
  induction idx with
  | zero => exact .inr ⟨rfl, fun i hi hle => by omega⟩
  | succ idx ih =>
    rw [backtrack, h.firstIndex]
    split
    · exact .inr ⟨rfl, fun i hi hle => by omega⟩
    next hlt =>
    obtain ⟨e, he⟩ : ∃ e, l[idx]? = some e :=
      ⟨_, List.getElem?_eq_getElem (by rw [h.length]; omega)⟩
    have hterm : pl.termAt (idx + 1) = some e.term := h.termAt_of (by omega) he
    rw [hterm]
    dsimp only
    split
    · next heq =>
      exact .inl ⟨idx + 1, by omega, le_rfl, heq ▸ hterm, fun k hk hki => by omega, rfl⟩
    next hne =>
    have hlast {k : ℕ} (hk : k ≤ idx + 1) (ht : pl.termAt k = some t) : k ≤ idx := by
      rcases hk.eq_or_lt with rfl | hk
      · rw [hterm] at ht
        exact (hne (Option.some_inj.mp ht)).elim
      · omega
    split
    · next hlt' =>
      refine .inr ⟨rfl, fun i hi hle ht => ?_⟩
      -- the terms before are no higher
      have := hlast hle ht
      obtain ⟨j, rfl⟩ : ∃ j, i = j + 1 := ⟨i - 1, by omega⟩
      obtain ⟨e', he', rfl⟩ := h.termAt_some ht
      have := Theory.pairwise_getElem? hsorted (fun _ => le_rfl) (by omega : j ≤ idx) he' he
      omega
    · rcases ih (by omega) with ⟨i, h₁, h₂, h₃, h₄, h₅⟩ | ⟨h₁, h₂⟩
      · refine .inl ⟨i, h₁, by omega, h₃, fun k hk hki ht => ?_, h₅⟩
        exact h₄ k hk (hlast hki ht) ht
      · exact .inr ⟨h₁, fun i hi hle ht => h₂ i hi (hlast hle ht) ht⟩

/-! ## One call -/

variable {n : Node} {me : Member} {peer : NodeID}

/-- A leader sends a segment of its log, not an empty one if there is more. -/
theorem replicateToPeer_append (me : Member) (h : Rep n.log l) (hrole : n.role = .leader)
    (hlo : n.log.lastIncludedIndex < n.nextIndex peer)
    (hhi : n.nextIndex peer ≤ n.log.lastIndex + 1) :
    ∃ req m, n.replicateToPeer me peer n.log.currentTerm = some (.appendEntries req) ∧
      req.term = n.log.currentTerm ∧ req.prevLogIndex + 1 = n.nextIndex peer ∧
      (∀ i, req.prevLogIndex = i + 1 → l[i]?.map Entry.term = some req.prevLogTerm) ∧
      req.entries = (l.drop req.prevLogIndex).take m ∧
      (req.prevLogIndex < n.log.lastIndex → 0 < m) := by
  obtain ⟨prev, hprev⟩ : ∃ prev, n.nextIndex peer = prev + 1 := ⟨n.nextIndex peer - 1, by omega⟩
  have hterm (i : ℕ) (hi : prev = i + 1) :
      ∃ t, n.log.termAt prev = some t ∧ l[i]?.map Entry.term = some t := by
    subst hi
    have hlen : i < l.length := by rw [h.length]; omega
    exact ⟨_, by rw [h.termAt_eq (by omega), List.getElem?_eq_getElem hlen]; rfl,
      by rw [List.getElem?_eq_getElem hlen]; rfl⟩
  have hsome : ¬((n.log.termAt prev).isNone ∧ prev ≠ 0) := by
    rintro ⟨hnone, hne⟩
    obtain ⟨t, ht, -⟩ := hterm (prev - 1) (by omega)
    simp [ht] at hnone
  have hent : (if prev + 1 ≤ n.log.lastIndex then
      n.log.range (prev + 1) (batchEnd me (prev + 1) n.log.lastIndex) else .ok []) =
      .ok ((l.drop prev).take (batchEnd me (prev + 1) n.log.lastIndex - prev)) := by
    split
    · refine h.range_eq (by omega) ?_
      unfold batchEnd
      dsimp only
      split <;> omega
    · rw [List.drop_eq_nil_of_le (by rw [h.length]; omega), List.take_nil]
  refine ⟨{
    term := n.log.currentTerm
    leaderID := me.id
    prevLogIndex := prev
    prevLogTerm := (n.log.termAt prev).getD 0
    entries := (l.drop prev).take (batchEnd me (prev + 1) n.log.lastIndex - prev)
    leaderCommit := n.commitIndex
    leaderClientAddr := me.selfClientAddr },
    batchEnd me (prev + 1) n.log.lastIndex - prev, ?_, rfl, hprev.symm, fun i hi => ?_, rfl,
    fun hlt => ?_⟩
  · unfold replicateToPeer
    rw [if_neg (by simp [hrole])]
    dsimp only
    rw [if_neg (by rw [h.firstIndex]; omega), hprev, Nat.add_sub_cancel, if_neg hsome, hent]
  · obtain ⟨t, ht, hl⟩ := hterm i hi
    rw [hl, ht]
    rfl
  · dsimp only at hlt
    unfold batchEnd
    dsimp only
    split <;> omega

/-- A leader whose log does not go back far enough sends its snapshot. -/
theorem replicateToPeer_snapshot (me : Member) (hrole : n.role = .leader)
    (hnext : n.nextIndex peer < n.log.firstIndex) (hs : n.snapStore = some (snap, info)) :
    n.replicateToPeer me peer n.log.currentTerm = some (.installSnapshot {
      term := n.log.currentTerm
      leaderID := me.id
      lastIncludedIndex := info.lastIncludedIndex
      lastIncludedTerm := info.lastIncludedTerm
      data := snap.marshal }) := by
  unfold replicateToPeer
  rw [if_neg (by simp [hrole])]
  dsimp only
  rw [if_pos hnext, sendInstallSnapshot, hs]

/-- A request in the node's own term that is refused changes nothing of its storage. -/
theorem handleAppendEntries_refused (hterm : n.log.currentTerm = req.term)
    (href : refusal n.log req = some resp) :
    ∃ n', n.handleAppendEntries req = (n', resp) ∧ n'.log = n.log ∧
      n'.snapStore = n.snapStore := by
  obtain ⟨n₁, hm, -, -, ⟨resp', href', -, hs⟩ | ⟨hno, -⟩⟩ := handleAppendEntries_spec hterm.le
  · rw [href] at href'
    cases href'
    refine ⟨n₁, hs, ?_, by rw [hm.eq]⟩
    rw [hm.log, if_neg hterm.not_lt]
  · rw [href] at hno
    cases hno

theorem handleAppendEntries_accepted (hterm : n.log.currentTerm = req.term)
    (href : refusal n.log req = none) :
    ∃ n', n.handleAppendEntries req = (n', { term := req.term, success := true }) ∧
      n'.log = (n.log.appendEntries true req.entries).1 ∧ n'.snapStore = n.snapStore := by
  obtain ⟨n₁, hm, -, -, ⟨resp, hno, -, -⟩ | ⟨-, hs⟩⟩ := handleAppendEntries_spec hterm.le
  · rw [href] at hno
    cases hno
  · refine ⟨_, hs, ?_, ?_⟩ <;> rw [followCommit_eq]
    · show (n₁.log.appendEntries true req.entries).1 = _
      rw [hm.log, if_neg hterm.not_lt]
    · show n₁.snapStore = _
      rw [hm.eq]

/-- A snapshot beyond the stored one replaces the log. -/
theorem handleInstallSnapshot_installed (req : InstallSnapshotRequest)
    (hterm : n.log.currentTerm = req.term)
    (hstored : ∀ st ∈ n.snapStore, st.2.lastIncludedIndex < req.lastIncludedIndex)
    (hdata : req.data = Snapshot.marshal snap) :
    ∃ n', n.handleInstallSnapshot req = (n', { term := req.term }) ∧
      n'.log = (n.log.restoreSnapshotBoundary true req.lastIncludedIndex
        req.lastIncludedTerm).1 := by
  have hyes : n.installs req = true := by
    unfold installs
    rw [hdata]
    cases hs : n.snapStore with
    | none => simp [hterm, Snapshot.marshal, unmarshalSnapshot]
    | some st => simpa [hterm, Snapshot.marshal, unmarshalSnapshot] using hstored st hs
  obtain ⟨n₁, hm, -, -, ⟨hno, -⟩ | ⟨snap', -, -, hs⟩⟩ := handleInstallSnapshot_spec hterm.le
  · rw [hyes] at hno
    cases hno
  · refine ⟨_, hs, ?_⟩
    dsimp only
    rw [hm.log, if_neg hterm.not_lt]

/-- The check of `HandleAppendEntries` on a represented log. -/
theorem refusal_of_getElem? (h : Rep n.log l) (hb : n.log.lastIncludedIndex ≤ i + 1)
    (hprev : req.prevLogIndex = i + 1) :
    refusal n.log req =
      match l[i]? with
      | none => some { term := req.term, success := false, conflictIndex := n.log.lastIndex + 1 }
      | some e =>
        if e.term ≠ req.prevLogTerm then some {
          term := req.term
          success := false
          conflictTerm := e.term
          conflictIndex := conflictStart n.log e.term (i + 1) }
        else none := by
  unfold refusal
  rw [if_pos (by omega), hprev, h.termAt_eq hb]
  cases l[i]? <;> rfl

theorem refusal_eq_none (h : Rep n.log l) (hb : n.log.lastIncludedIndex ≤ req.prevLogIndex)
    (hprev : ∀ i, req.prevLogIndex = i + 1 → l[i]?.map Entry.term = some req.prevLogTerm) :
    refusal n.log req = none := by
  cases hi : req.prevLogIndex with
  | zero => rw [refusal, if_neg (by omega)]
  | succ i =>
    obtain ⟨e, he, ht⟩ := Option.map_eq_some_iff.mp (hprev i hi)
    rw [refusal_of_getElem? h (by omega) hi, he]
    exact if_neg (not_not.mpr ht)

/-- What an answer does to `nextIndex`. -/
theorem replicated_nextIndex (peer : NodeID) (req : AppendEntriesRequest)
    (resp : AppendEntriesResponse) (hrole : n.role = .leader)
    (hterm : n.log.currentTerm = req.term) (hresp : resp.term = req.term) :
    (n.replicated peer req resp).nextIndex peer =
      if resp.success then
        (req.entries.getLast?.map fun e => e.index + 1).getD (n.nextIndex peer)
      else if resp.conflictTerm ≠ 0 then
        max 1 (backtrack n.log resp.conflictTerm resp.conflictIndex n.log.lastIndex)
      else if 0 < resp.conflictIndex then resp.conflictIndex
      else n.nextIndex peer - (if 1 < n.nextIndex peer then 1 else 0) := by
  unfold replicated
  rw [if_neg hresp.not_gt, if_neg (by simp [hrole, hterm])]
  split
  · cases req.entries.getLast? <;> simp
  · split
    · simp
    · split
      · simp
      · split <;> simp

theorem replicated_matchIndex (peer : NodeID) (req : AppendEntriesRequest)
    (hrole : n.role = .leader) (hterm : n.log.currentTerm = req.term) :
    (n.replicated peer req { term := req.term, success := true }).matchIndex peer =
      (req.entries.getLast?.map Entry.index).getD (n.matchIndex peer) := by
  rw [replicated_eq, if_neg (lt_irrefl _)]
  simp [hrole, hterm]

end Node

/-! ## Two logs -/

/-- The number of terms that entries are of. -/
def distinctTerms (es : List Entry) : ℕ := (es.map Entry.term).toFinset.card

theorem distinctTerms_mono {es es' : List Entry} (hsub : es ⊆ es') :
    distinctTerms es ≤ distinctTerms es' := by
  refine Finset.card_le_card fun t ht => ?_
  rw [List.mem_toFinset] at ht ⊢
  exact List.map_subset _ hsub ht

theorem distinctTerms_lt {es es' : List Entry} (hsub : es ⊆ es') (he : e ∈ es')
    (hne : ∀ x ∈ es, x.term ≠ e.term) : distinctTerms es < distinctTerms es' := by
  refine Finset.card_lt_card (Finset.ssubset_iff_of_subset (fun t ht => ?_) |>.mpr ⟨e.term, ?_, ?_⟩)
  · rw [List.mem_toFinset] at ht ⊢
    exact List.map_subset _ hsub ht
  · exact List.mem_toFinset.mpr (List.mem_map_of_mem he)
  · intro hmem
    obtain ⟨x, hx, hterm⟩ := List.mem_map.mp (List.mem_toFinset.mp hmem)
    exact hne x hx hterm

/-- The log `pl` of a leader and the log of a follower begin with `common`, and go on with entries
of different terms. The leader's boundary may lie beyond what the follower has. -/
structure Forks (pl : PersistentLog) (common ltail ftail : List Entry) : Prop where
  leader : Rep pl (common ++ ltail)
  sorted : (common ++ ltail).Pairwise fun e e' => e.term ≤ e'.term
  sorted' : (common ++ ftail).Pairwise fun e e' => e.term ≤ e'.term
  pos : ∀ e ∈ common ++ ftail, 1 ≤ e.term
  apart : ∀ e ∈ ltail, ∀ e' ∈ ftail, e.term ≠ e'.term

namespace Forks

variable {pl fl : PersistentLog} {common ltail ftail : List Entry}

/-- If the leader finds the follower's term, it does so at the end of the common prefix. -/
theorem eq_of_found (D : Forks pl common ltail ftail) (hf : common.length ≤ i)
    (he : (common ++ ftail)[i]? = some e) (hk : pl.lastIncludedIndex < k)
    (hfound : pl.termAt k = some e.term)
    (hlast : ∀ j, k < j → j ≤ pl.lastIndex → pl.termAt j ≠ some e.term) : k = common.length := by
  obtain ⟨k, rfl⟩ : ∃ k', k = k' + 1 := ⟨k - 1, by omega⟩
  obtain ⟨e', he', ht⟩ := D.leader.termAt_some hfound
  have hlen := D.leader.length
  rw [List.length_append] at hlen
  rcases Nat.lt_trichotomy (k + 1) common.length with hlt | heq | hgt
  · -- the last common entry has a higher term, and so has everything after it in the follower's log
    obtain ⟨x, hx⟩ : ∃ x, common[common.length - 1]? = some x :=
      ⟨_, List.getElem?_eq_getElem (by omega)⟩
    have hxl : (common ++ ltail)[common.length - 1]? = some x := by
      rw [List.getElem?_append_left (by omega), hx]
    have hxf : (common ++ ftail)[common.length - 1]? = some x := by
      rw [List.getElem?_append_left (by omega), hx]
    have h₁ := Theory.pairwise_getElem? D.sorted (fun _ => le_rfl)
      (show k ≤ common.length - 1 by omega) he' hxl
    have h₂ := Theory.pairwise_getElem? D.sorted' (fun _ => le_rfl)
      (show common.length - 1 ≤ i by omega) hxf he
    refine (hlast common.length hlt (by omega) ?_).elim
    have hterm := D.leader.termAt_of (by omega) hxl
    rw [Nat.sub_add_cancel (by omega)] at hterm
    rw [hterm, le_antisymm h₂ (ht ▸ h₁)]
  · exact heq
  · -- beyond it the logs have no term in common
    rw [List.getElem?_append_right (by omega)] at he he'
    exact (D.apart e' (List.mem_of_getElem? he') e (List.mem_of_getElem? he) ht).elim

/-- The index that the leader goes back to after a conflict at `i + 1`. -/
theorem newNext (D : Forks pl common ltail ftail) (hf : Rep fl (common ++ ftail))
    (hb : fl.lastIncludedIndex ≤ common.length) (hi : common.length ≤ i)
    (he : (common ++ ftail)[i]? = some e) (hnext : next = max 1 (Node.backtrack pl e.term
      (Node.conflictStart fl e.term (i + 1)) pl.lastIndex)) :
    fl.lastIncludedIndex < next ∧ next ≤ i + 1 ∧
      distinctTerms (ftail.take (next - 1 - common.length)) <
        distinctTerms (ftail.take (i + 1 - common.length)) := by
  obtain ⟨h₁, h₂, h₃, h₄⟩ := Node.conflictStart_spec hf (by omega) (hf.termAt_of (by omega) he)
  have hmem : e ∈ ftail.take (i + 1 - common.length) := by
    rw [List.getElem?_append_right hi] at he
    refine List.mem_of_getElem? (i := i - common.length) ?_
    rw [List.getElem?_take_of_lt (by omega)]
    exact he
  have hbound : fl.lastIncludedIndex < next ∧ next ≤ i + 1 ∧
      (next ≤ common.length + 1 ∨ next = Node.conflictStart fl e.term (i + 1)) := by
    rcases Node.backtrack_spec D.leader D.sorted (Node.conflictStart fl e.term (i + 1))
      (le_refl pl.lastIndex) (t := e.term) with ⟨k, hk, -, ht, hlast, heq⟩ | ⟨heq, -⟩
    · rw [heq, D.eq_of_found hi he hk ht hlast] at hnext
      omega
    · rw [heq] at hnext
      omega
  obtain ⟨hlo, hhi, hcase⟩ := hbound
  refine ⟨hlo, hhi, distinctTerms_lt (List.take_subset_take_left _ (by omega)) hmem
    fun x hx hterm => ?_⟩
  -- an entry left to try lies before the first one of the term
  obtain ⟨k, hk⟩ := List.mem_iff_getElem?.mp hx
  have hlt : k < next - 1 - common.length := by
    have := (List.getElem?_eq_some_iff.mp hk).1
    rw [List.length_take] at this
    omega
  rw [List.getElem?_take_of_lt hlt] at hk
  have hstart := hcase.resolve_left (by omega)
  obtain ⟨y, hy⟩ : ∃ y, (common ++ ftail)[next - 2]? = some y :=
    ⟨_, List.getElem?_eq_getElem (by have := (List.getElem?_eq_some_iff.mp he).1; omega)⟩
  have hx' : (common ++ ftail)[common.length + k]? = some x := by
    rw [List.getElem?_append_right (by omega), Nat.add_sub_cancel_left, hk]
  have hxy := Theory.pairwise_getElem? D.sorted' (fun _ => le_rfl) (by omega) hx' hy
  have hye := Theory.pairwise_getElem? D.sorted' (fun _ => le_rfl) (by omega) hy he
  have hterm' := hf.termAt_of (by omega) hy
  rw [← hstart] at h₄
  refine h₄ (by omega) ?_
  rw [show next - 1 = next - 2 + 1 by omega, hterm', le_antisymm hye (hterm ▸ hxy)]

end Forks

/-! ## Rounds -/

/-- A leader and one of its followers. -/
structure Link where
  leader : Node
  follower : Node

inductive Exchange where
  | silent
  | rejected
  | accepted
  | installed
  deriving DecidableEq

/-- `replicateToPeer` on the leader, with the call it makes to the follower. -/
def Link.round (me : Member) (peer : NodeID) (x : Link) : Link × Exchange :=
  match x.leader.replicateToPeer me peer x.leader.log.currentTerm with
  | none => (x, .silent)
  | some (.appendEntries req) =>
    let r := x.follower.handleAppendEntries req
    (⟨x.leader.replicated peer req r.2, r.1⟩, if r.2.success then .accepted else .rejected)
  | some (.installSnapshot req) =>
    let r := x.follower.handleInstallSnapshot req
    (⟨x.leader.snapshotInstalled peer req r.2, r.1⟩, .installed)

/-- The leader leads with the log `pl` and a snapshot at its boundary, in the follower's term. -/
structure Link.Leads (pl : PersistentLog) (x : Link) : Prop where
  role : x.leader.role = .leader
  log : x.leader.log = pl
  stored : pl.lastIncludedIndex ≠ 0 → ∃ snap,
    x.leader.snapStore = some (snap, ⟨pl.lastIncludedIndex, pl.lastIncludedTerm⟩)
  term : x.follower.log.currentTerm = pl.currentTerm

/-- The leader looks for the end of the common prefix: at most `b` refusals are to come. -/
structure Link.Searching (peer : NodeID) (pl : PersistentLog) (common ftail : List Entry)
    (b : ℕ) (x : Link) : Prop extends Leads pl x where
  follower : Rep x.follower.log (common ++ ftail)
  covered : x.follower.log.lastIncludedIndex ≤ common.length
  stored' : ∀ st ∈ x.follower.snapStore,
    st.2.lastIncludedIndex ≤ x.follower.log.lastIncludedIndex
  next : x.follower.log.lastIncludedIndex < x.leader.nextIndex peer ∧
    x.leader.nextIndex peer ≤ pl.lastIndex
  budget : (if x.follower.log.lastIndex + 1 < x.leader.nextIndex peer then 1 else 0) +
    distinctTerms (ftail.take (x.leader.nextIndex peer - 1 - common.length)) ≤ b

/-- The follower has the leader's log up to `nextIndex`, and nothing else. -/
structure Link.Synced (peer : NodeID) (pl : PersistentLog) (ls : List Entry) (x : Link) : Prop
    extends Leads pl x where
  follower : Rep x.follower.log (ls.take (x.leader.nextIndex peer - 1))
  next : pl.lastIncludedIndex < x.leader.nextIndex peer ∧
    x.leader.nextIndex peer ≤ pl.lastIndex + 1
  matched : x.leader.matchIndex peer + 1 = x.leader.nextIndex peer

namespace Link

variable {me : Member} {peer : NodeID} {pl : PersistentLog} {ls fs : List Entry} {x y : Link}

theorem Leads.replicated (h : x.Leads pl) (hterm : f.log.currentTerm = pl.currentTerm)
    (hresp : resp.term ≤ req.term) : Leads pl ⟨x.leader.replicated peer req resp, f⟩ := by
  have heq := Node.replicated_eq x.leader peer req resp
  rw [if_neg (not_lt.mpr hresp)] at heq
  rw [heq]
  exact ⟨h.role, h.log, h.stored, hterm⟩

/-- A request that continues a part of the log which the follower has is accepted. -/
theorem Leads.accepted (me : Member) (h : x.Leads pl) (hpl : Rep pl ls)
    (hf : Rep x.follower.log fs) (hnext : x.leader.nextIndex peer = prev + 1)
    (hlo : pl.lastIncludedIndex ≤ prev) (hb : x.follower.log.lastIncludedIndex ≤ prev)
    (hhi : prev ≤ pl.lastIndex) (hagree : ls.take prev = fs.take prev) :
    ∃ m y, x.round me peer = (y, .accepted) ∧ y.Leads pl ∧ (prev < pl.lastIndex → 0 < m) ∧
      y.follower.log = (x.follower.log.appendEntries true ((ls.drop prev).take m)).1 ∧
      y.leader.nextIndex peer =
        (((ls.drop prev).take m).getLast?.map fun e => e.index + 1).getD (prev + 1) ∧
      y.leader.matchIndex peer =
        (((ls.drop prev).take m).getLast?.map Entry.index).getD (x.leader.matchIndex peer) := by
  obtain rfl := h.log
  obtain ⟨req, m, hsend, hterm, hprev, hpt, hent, hm⟩ :=
    Node.replicateToPeer_append me hpl h.role (show _ < x.leader.nextIndex peer by omega) (by omega)
  obtain rfl : req.prevLogIndex = prev := by omega
  have href : Node.refusal x.follower.log req = none := by
    refine Node.refusal_eq_none hf hb fun i hi => ?_
    rw [← List.getElem?_take_of_lt (show i < req.prevLogIndex by omega), ← hagree,
      List.getElem?_take_of_lt (by omega)]
    exact hpt i hi
  obtain ⟨f, hh, hlog, -⟩ := Node.handleAppendEntries_accepted (h.term.trans hterm.symm) href
  have hround : x.round me peer =
      (⟨x.leader.replicated peer req { term := req.term, success := true }, f⟩, .accepted) := by
    simp only [round, hsend, hh, if_true]
  have hfterm : f.log.currentTerm = x.leader.log.currentTerm := by
    rw [hlog, (PersistentLog.SameBallot.appendEntries true ..).currentTerm, h.term]
  have hnext' := Node.replicated_nextIndex peer req { term := req.term, success := true }
    h.role hterm.symm rfl
  rw [if_pos rfl, hnext] at hnext'
  refine ⟨m, _, hround, h.replicated hfterm le_rfl, hm, ?_⟩
  rw [← hent]
  exact ⟨hlog, hnext', Node.replicated_matchIndex peer req h.role hterm.symm⟩

/-- The follower then has what was sent, and nothing after it. -/
theorem Leads.accept (me : Member) (h : x.Leads pl) (hpl : Rep pl ls) (hf : Rep x.follower.log fs)
    (hlo : pl.lastIncludedIndex < x.leader.nextIndex peer)
    (hb : x.follower.log.lastIncludedIndex < x.leader.nextIndex peer)
    (hhi : x.leader.nextIndex peer ≤ pl.lastIndex + 1)
    (hagree : ls.take (x.leader.nextIndex peer - 1) = fs.take (x.leader.nextIndex peer - 1))
    (hlen : x.leader.nextIndex peer - 1 ≤ fs.length)
    (hdone : x.leader.nextIndex peer = pl.lastIndex + 1 →
      fs.length = pl.lastIndex ∧ x.leader.matchIndex peer = pl.lastIndex) :
    (x.round me peer).2 = .accepted ∧ (x.round me peer).1.Synced peer pl ls ∧
      min (x.leader.nextIndex peer) pl.lastIndex < (x.round me peer).1.leader.nextIndex peer := by
  obtain ⟨prev, hprev⟩ : ∃ prev, x.leader.nextIndex peer = prev + 1 :=
    ⟨x.leader.nextIndex peer - 1, by omega⟩
  rw [hprev, Nat.add_sub_cancel] at hagree hlen
  obtain ⟨m, y, hround, hleads, hm, hlog, hnext, hmatch⟩ := h.accepted me hpl hf hprev (by omega)
    (by omega) (by omega) hagree
  have hlast := hpl.length
  rw [hround]
  refine ⟨rfl, ?_⟩
  rcases Nat.lt_or_ge prev pl.lastIndex with hlt | hge
  · -- there is more to send
    obtain ⟨hcons, e, he, hidx⟩ := hpl.segment (hm hlt) (hlast ▸ hlt)
    have hk : ((ls.drop prev).take m).length = min m (ls.length - prev) := by
      rw [List.length_take, List.length_drop]
    have hall : fs.take prev ++ (ls.drop prev).take m =
        ls.take (prev + ((ls.drop prev).take m).length) := by
      rw [← hagree, ← List.take_add, List.take_eq_take_iff]
      omega
    have hrep := hf.appendEntries (List.ne_nil_of_mem (List.mem_of_getLast? he)) hcons
      (hf.length ▸ hlen) (.inl (by omega))
    rw [hall, ← hlog] at hrep
    rw [he] at hnext hmatch
    simp only [Option.map_some, Option.getD_some, hidx] at hnext hmatch
    have := hm hlt
    refine ⟨⟨hleads, ?_, ?_, ?_⟩, ?_⟩ <;> dsimp only <;> rw [hnext]
    · rwa [Nat.add_sub_cancel]
    · omega
    · rw [hmatch]
    · omega
  · -- the follower has everything
    obtain ⟨hfs, hmatched⟩ := hdone (by omega)
    rw [List.drop_eq_nil_of_le (by omega), List.take_nil] at hlog hnext hmatch
    simp only [List.getLast?_nil, Option.map_none, Option.getD_none] at hnext hmatch
    refine ⟨⟨hleads, ?_, ?_, ?_⟩, ?_⟩ <;> dsimp only <;> rw [hnext]
    · rw [Nat.add_sub_cancel, hagree, List.take_of_length_le (by omega), hlog]
      exact hf
    · omega
    · omega
    · omega

theorem Synced.round (me : Member) (h : x.Synced peer pl ls) (hpl : Rep pl ls) :
    (x.round me peer).2 = .accepted ∧ (x.round me peer).1.Synced peer pl ls ∧
      min (x.leader.nextIndex peer) pl.lastIndex < (x.round me peer).1.leader.nextIndex peer := by
  have hlen : (ls.take (x.leader.nextIndex peer - 1)).length = x.leader.nextIndex peer - 1 := by
    rw [List.length_take, hpl.length]
    have := h.next
    omega
  have hlast := h.follower.length
  have hle := h.follower.le
  refine h.toLeads.accept me hpl h.follower h.next.1 ?_ h.next.2 ?_ hlen.ge fun heq => ?_
  · have := h.next
    omega
  · rw [List.take_take, Nat.min_self]
  · have := h.matched
    omega

/-- The snapshot of the leader replaces the follower's log. -/
theorem Searching.install (me : Member) (h : x.Searching peer pl common ftail b)
    (hpl : Rep pl ls) (hnext : x.leader.nextIndex peer ≤ pl.lastIncludedIndex) :
    (x.round me peer).2 = .installed ∧ (x.round me peer).1.Synced peer pl ls := by
  obtain ⟨i, hi⟩ : ∃ i, pl.lastIncludedIndex = i + 1 :=
    ⟨pl.lastIncludedIndex - 1, by have := h.next; omega⟩
  obtain ⟨snap, hsnap⟩ := h.stored (by omega)
  obtain ⟨e, he, hterm⟩ := hpl.term hi
  have hsend := Node.replicateToPeer_snapshot me h.role
    (show x.leader.nextIndex peer < _ by rw [h.log, hpl.firstIndex]; omega) hsnap
  rw [h.log] at hsend
  obtain ⟨f, hh, hflog⟩ := Node.handleInstallSnapshot_installed
    ⟨pl.currentTerm, me.id, pl.lastIncludedIndex, pl.lastIncludedTerm, snap.marshal⟩
    h.term (fun st hst => by have := h.stored' st hst; have := h.next; dsimp only; omega) rfl
  have hround : x.round me peer = (⟨x.leader.snapshotInstalled peer
      ⟨pl.currentTerm, me.id, pl.lastIncludedIndex, pl.lastIncludedTerm, snap.marshal⟩
      ⟨pl.currentTerm⟩, f⟩, .installed) := by
    simp only [round, h.log, hsend, hh]
  have hle := hpl.le
  have hnext' := h.next
  rw [hround, Node.snapshotInstalled, if_neg (lt_irrefl _), if_pos ⟨h.role, by rw [h.log]⟩]
  refine ⟨rfl, ⟨h.role, h.log, h.stored, ?_⟩, ?_, ?_, ?_⟩
  · rw [hflog, (PersistentLog.SameBallot.restoreSnapshotBoundary true ..).currentTerm, h.term]
  · rw [hflog]
    simp only [if_true, Nat.add_sub_cancel, hi, ← hterm]
    refine h.follower.restoreSnapshotBoundary (by omega) ?_ ?_ ?_
    · rw [List.length_take, hpl.length]
      omega
    · exact hpl.index.of_isPrefix (List.take_prefix _ _)
    · rw [List.getElem?_take_of_lt (by omega), he]
  · simp only [if_true]
    omega
  · simp only [if_true]

/-- After a refusal the leader goes on from the index it computes. -/
theorem Searching.refused {next : ℕ} (h : x.Searching peer pl common ftail b)
    (hsend : x.leader.replicateToPeer me peer pl.currentTerm = some (.appendEntries req))
    (hterm : req.term = pl.currentTerm)
    (href : Node.refusal x.follower.log req = some ⟨req.term, false, t, i⟩)
    (hnext : next = if t ≠ 0 then max 1 (Node.backtrack pl t i pl.lastIndex) else i)
    (hlo : x.follower.log.lastIncludedIndex < next) (hhi : next ≤ pl.lastIndex)
    (hle : next ≤ x.follower.log.lastIndex + 1) :
    (x.round me peer).2 = .rejected ∧ (x.round me peer).1.Searching peer pl common ftail
      (distinctTerms (ftail.take (next - 1 - common.length))) := by
  obtain ⟨f, hh, hlog, hsnap⟩ := Node.handleAppendEntries_refused (h.term.trans hterm.symm) href
  have hround : x.round me peer =
      (⟨x.leader.replicated peer req ⟨req.term, false, t, i⟩, f⟩, .rejected) := by
    simp [Link.round, h.log, hsend, hh]
  have hpos : t = 0 → 0 < i := by
    intro ht
    rw [if_neg (not_not.mpr ht)] at hnext
    omega
  have hnext' :
      (x.leader.replicated peer req ⟨req.term, false, t, i⟩).nextIndex peer = next := by
    rw [Node.replicated_nextIndex peer req _ h.role (by rw [h.log, hterm]) rfl, hnext, h.log,
      if_neg Bool.false_ne_true]
    dsimp only
    split
    · rfl
    · next ht => rw [if_pos (hpos (not_not.mp ht))]
  rw [hround]
  refine ⟨rfl, h.toLeads.replicated (by rw [hlog, h.term]) le_rfl, ?_, ?_, ?_, ?_, ?_⟩
  · dsimp only
    rw [hlog]
    exact h.follower
  · dsimp only
    rw [hlog]
    exact h.covered
  · dsimp only
    rw [hlog, hsnap]
    exact h.stored'
  · dsimp only
    rw [hlog, hnext']
    exact ⟨hlo, hhi⟩
  · dsimp only
    rw [hlog, hnext', if_neg (by omega), Nat.zero_add]

/-- A request past the common prefix is refused. -/
theorem Searching.reject (me : Member) (h : x.Searching peer pl common ftail b)
    (D : Forks pl common ltail ftail) (hlo : pl.lastIncludedIndex < x.leader.nextIndex peer)
    (hpast : common.length + 1 < x.leader.nextIndex peer) :
    (x.round me peer).2 = .rejected ∧ ∃ b' < b,
      (x.round me peer).1.Searching peer pl common ftail b' := by
  have hlog := h.log
  have hnext := h.next
  have hhi : x.leader.nextIndex peer ≤ x.leader.log.lastIndex + 1 := by rw [hlog]; omega
  obtain ⟨req, m, hsend, hterm, hprev, hpt, -⟩ :=
    Node.replicateToPeer_append me (hlog ▸ D.leader) h.role (hlog ▸ hlo) hhi
  rw [hlog] at hsend hterm
  obtain ⟨i, hi⟩ : ∃ i, req.prevLogIndex = i + 1 := ⟨req.prevLogIndex - 1, by omega⟩
  have href := Node.refusal_of_getElem? h.follower (by have := h.covered; omega) hi
  have hlen := h.follower.length
  have hb := h.budget
  cases he : (common ++ ftail)[i]? with
  | none =>
    -- the log is too short
    rw [he] at href
    have hshort := List.getElem?_eq_none_iff.mp he
    obtain ⟨hkind, hsearch⟩ := h.refused hsend hterm href (if_neg (not_not.mpr rfl)).symm
      (Nat.lt_succ_of_le h.follower.le) (by omega) le_rfl
    refine ⟨hkind, _, ?_, hsearch⟩
    rw [if_pos (by omega)] at hb
    have hsub := List.take_subset_take_left ftail (show x.follower.log.lastIndex + 1 - 1 -
      common.length ≤ x.leader.nextIndex peer - 1 - common.length by omega)
    have := distinctTerms_mono hsub
    omega
  | some e =>
    -- an entry of another term stands there
    obtain ⟨e', he', ht⟩ := Option.map_eq_some_iff.mp (hpt i hi)
    have hne : e.term ≠ req.prevLogTerm := by
      rw [List.getElem?_append_right (by omega)] at he he'
      rw [← ht]
      exact (D.apart e' (List.mem_of_getElem? he') e (List.mem_of_getElem? he)).symm
    have hpos := D.pos e (List.mem_of_getElem? he)
    simp only [he, if_pos hne] at href
    obtain ⟨h₁, h₂, h₃⟩ := D.newNext h.follower h.covered (by omega) he rfl
    have hi' := (List.getElem?_eq_some_iff.mp he).1
    obtain ⟨hkind, hsearch⟩ := h.refused hsend hterm href (if_pos (by omega)).symm h₁
      (by omega) (by omega)
    refine ⟨hkind, _, lt_of_lt_of_le h₃ ?_, hsearch⟩
    rw [show i + 1 - common.length = x.leader.nextIndex peer - 1 - common.length by omega]
    omega

/-- A round of the search ends it or uses up a refusal. -/
theorem Searching.round (me : Member) (h : x.Searching peer pl common ftail b)
    (D : Forks pl common ltail ftail) :
    ((x.round me peer).2 ≠ .rejected ∧ (x.round me peer).1.Synced peer pl (common ++ ltail)) ∨
      (x.round me peer).2 = .rejected ∧ ∃ b' < b,
        (x.round me peer).1.Searching peer pl common ftail b' := by
  have hnext := h.next
  rcases Nat.lt_or_ge pl.lastIncludedIndex (x.leader.nextIndex peer) with hlo | hle
  · rcases Nat.lt_or_ge (common.length + 1) (x.leader.nextIndex peer) with hpast | hle
    · exact .inr (h.reject me D hlo hpast)
    · have hagree : (common ++ ltail).take (x.leader.nextIndex peer - 1) =
          (common ++ ftail).take (x.leader.nextIndex peer - 1) := by
        rw [List.take_append_of_le_length (by omega), List.take_append_of_le_length (by omega)]
      obtain ⟨hkind, hsync, -⟩ := h.toLeads.accept me D.leader h.follower hlo hnext.1 (by omega)
        hagree (by rw [List.length_append]; omega) (by omega)
      exact .inl ⟨by rw [hkind]; decide, hsync⟩
  · obtain ⟨hkind, hsync⟩ := h.install me D.leader hle
    exact .inl ⟨by rw [hkind]; decide, hsync⟩

end Link

/-! ## Catching up -/

/-- The stored snapshot is the one at the log's boundary. -/
def Node.StoredAtBoundary (n : Node) : Prop :=
  match n.snapStore with
  | none => n.log.lastIncludedIndex = 0
  | some (_, info) => info = ⟨n.log.lastIncludedIndex, n.log.lastIncludedTerm⟩

/-- Terms that start at 1 and do not decrease. -/
def Ascending (l : List Entry) : Prop :=
  (l.Pairwise fun e e' => e.term ≤ e'.term) ∧ ∀ e ∈ l, 1 ≤ e.term

instance : Decidable (Ascending l) := inferInstanceAs (Decidable (_ ∧ _))

/-- A leader and a follower of its term whose logs agree on `common`, and differ after it. -/
structure Link.Lags (peer : NodeID) (common ltail ftail : List Entry) (x : Link) : Prop where
  role : x.leader.role = .leader
  term : x.follower.log.currentTerm = x.leader.log.currentTerm
  leader : Rep x.leader.log (common ++ ltail)
  follower : Rep x.follower.log (common ++ ftail)
  covered : x.leader.log.lastIncludedIndex ≤ common.length ∧
    x.follower.log.lastIncludedIndex ≤ common.length
  ascending : Ascending (common ++ ltail) ∧ Ascending (common ++ ftail)
  stored : x.leader.StoredAtBoundary ∧ x.follower.StoredAtBoundary
  next : x.follower.log.lastIncludedIndex < x.leader.nextIndex peer ∧
    x.leader.nextIndex peer ≤ x.leader.log.lastIndex

namespace Link

variable {peer : NodeID} {common ltail ftail : List Entry} {x : Link}

theorem Lags.forks (h : x.Lags peer common ltail ftail)
    (hapart : ∀ e ∈ ltail, ∀ e' ∈ ftail, e.term ≠ e'.term) :
    Forks x.leader.log common ltail ftail :=
  ⟨h.leader, h.ascending.1.1, h.ascending.2.1, h.ascending.2.2, hapart⟩

theorem Lags.searching (h : x.Lags peer common ltail ftail) :
    x.Searching peer x.leader.log common ftail (1 + distinctTerms ftail) := by
  obtain ⟨hs, hs'⟩ := h.stored
  unfold Node.StoredAtBoundary at hs hs'
  refine ⟨⟨h.role, rfl, fun hb => ?_, h.term⟩, h.follower, h.covered.2, fun st hst => ?_, h.next,
    ?_⟩
  · split at hs
    · exact (hb hs).elim
    · next snap info heq => exact ⟨snap, by rw [heq, hs]⟩
  · rw [Option.mem_def.mp hst] at hs'
    rw [hs']
  · have := distinctTerms_mono (List.take_subset
      (x.leader.nextIndex peer - 1 - common.length) ftail)
    split <;> omega

theorem Searching.refusals (me : Member) (D : Forks pl common ltail ftail)
    (h : x.Searching peer pl common ftail b) (k : ℕ) :
    (Theory.rounds (Link.round me peer) k x).2.count .rejected ≤ b := by
  refine Theory.count_rounds_le (P := fun x b => x.Searching peer pl common ftail b ∨
    x.Synced peer pl (common ++ ltail)) (fun {x b} h => ?_) (.inl h) k
  rcases h with h | h
  · rcases h.round me D with ⟨hkind, hs⟩ | ⟨hkind, b', hlt, hs⟩
    · exact ⟨b, .inr hs, by rw [if_neg hkind, Nat.add_zero]⟩
    · exact ⟨b', .inl hs, by rw [if_pos hkind]; exact hlt⟩
  · obtain ⟨hkind, hs, -⟩ := h.round me D.leader
    exact ⟨b, .inr hs, by rw [hkind]; exact le_rfl⟩

theorem Searching.installs (me : Member) (D : Forks pl common ltail ftail)
    (h : x.Searching peer pl common ftail b) (k : ℕ) :
    (Theory.rounds (Link.round me peer) k x).2.count .installed ≤ 1 := by
  refine Theory.count_rounds_le (P := fun x m => (∃ b, x.Searching peer pl common ftail b) ∧ 1 ≤ m ∨
    x.Synced peer pl (common ++ ltail)) (fun {x m} h => ?_) (.inl ⟨⟨b, h⟩, le_rfl⟩) k
  rcases h with ⟨⟨b, h⟩, hm⟩ | h
  · rcases h.round me D with ⟨-, hs⟩ | ⟨hkind, b', -, hs⟩
    · exact ⟨0, .inr hs, by split <;> omega⟩
    · exact ⟨m, .inl ⟨⟨b', hs⟩, hm⟩, by rw [hkind]; exact le_rfl⟩
  · obtain ⟨hkind, hs, -⟩ := h.round me D.leader
    exact ⟨m, .inr hs, by rw [hkind]; exact le_rfl⟩

/-- When the refusals and the entries are used up, the follower has the whole log. -/
theorem Searching.caughtUp (me : Member) (D : Forks pl common ltail ftail)
    (h : x.Searching peer pl common ftail b) (hk : b + pl.lastIndex + 2 ≤ k) :
    (Theory.rounds (Link.round me peer) k x).1.Synced peer pl (common ++ ltail) ∧
      (Theory.rounds (Link.round me peer) k x).1.leader.nextIndex peer = pl.lastIndex + 1 := by
  have hend := Theory.rank_rounds (f := Link.round me peer) (P := fun x m =>
    (∃ b, x.Searching peer pl common ftail b ∧ b + pl.lastIndex + 2 ≤ m) ∨
      x.Synced peer pl (common ++ ltail) ∧ pl.lastIndex + 1 ≤ x.leader.nextIndex peer + m)
    (fun {x m} h => ?_) (.inl ⟨b, h, le_rfl⟩) hk
  · rcases hend with ⟨b', -, hb'⟩ | ⟨hs, hge⟩
    · omega
    · exact ⟨hs, le_antisymm hs.next.2 hge⟩
  · rcases h with ⟨b, h, hm⟩ | ⟨h, hm⟩
    · rcases h.round me D with ⟨-, hs⟩ | ⟨-, b', hlt, hs⟩
      · exact .inr ⟨hs, by omega⟩
      · exact .inl ⟨b', hs, by omega⟩
    · obtain ⟨-, hs, hgrow⟩ := h.round me D.leader
      exact .inr ⟨hs, by omega⟩

end Link

/-- **Catching up**, if no term has entries beyond the common prefix in both logs: a refusal for
each term and one more, one snapshot, and then the follower has the leader's log. -/
theorem catch_up (me : Member) (peer : NodeID) {x : Link} {common ltail ftail : List Entry}
    (h : x.Lags peer common ltail ftail)
    (hapart : ∀ e ∈ ltail, ∀ e' ∈ ftail, e.term ≠ e'.term) :
    (∀ k, (Theory.rounds (Link.round me peer) k x).2.count .rejected ≤ 1 + distinctTerms ftail ∧
      (Theory.rounds (Link.round me peer) k x).2.count .installed ≤ 1) ∧
    ∃ N, ∀ k ≥ N, let y := (Theory.rounds (Link.round me peer) k x).1
      y.leader.log = x.leader.log ∧ y.follower.log.lastIndex = x.leader.log.lastIndex ∧
      (∀ i, y.leader.log.lastIncludedIndex < i → y.follower.log.lastIncludedIndex < i →
        i ≤ x.leader.log.lastIndex →
          ∃ e, y.leader.log.get i = .ok e ∧ y.follower.log.get i = .ok e) ∧
      y.leader.matchIndex peer = x.leader.log.lastIndex := by
  have D := h.forks hapart
  refine ⟨fun k => ⟨h.searching.refusals me D k, h.searching.installs me D k⟩,
    1 + distinctTerms ftail + x.leader.log.lastIndex + 2, fun k hk => ?_⟩
  intro y
  obtain ⟨hs, hnext⟩ : y.Synced peer x.leader.log (common ++ ltail) ∧
    y.leader.nextIndex peer = x.leader.log.lastIndex + 1 := h.searching.caughtUp me D hk
  have hmatch := hs.matched
  have hf := hs.follower
  rw [hnext, Nat.add_sub_cancel, List.take_of_length_le h.leader.length.le] at hf
  refine ⟨hs.log, ?_, fun i hl hfi hle => ?_, by omega⟩
  · rw [← hf.length, h.leader.length]
  · obtain ⟨j, rfl⟩ : ∃ j, i = j + 1 := ⟨i - 1, by omega⟩
    obtain ⟨e, he⟩ : ∃ e, (common ++ ltail)[j]? = some e :=
      ⟨_, List.getElem?_eq_getElem (by rw [h.leader.length]; omega)⟩
    have hl' := hs.log ▸ h.leader
    exact ⟨e, hl'.get_of (by omega) he, hf.get_of (by omega) he⟩

theorem Ascending.of_logInv {r : Abs} (L : Theory.LogInv Entry.term r) (n : NodeID) :
    Ascending (r.log n) := by
  refine ⟨(L.log n).sorted, fun e he => ?_⟩
  obtain ⟨i, hi⟩ := List.mem_iff_getElem?.mp he
  obtain ⟨l, hl⟩ := L.leads (t := e.term) fun hnil => by
    have := (L.log n).getElem?_llog hi le_rfl
    rw [hnil, hi] at this
    cases this
  exact L.pos hl

/-- The logs of a run are such logs: those of any two nodes have no term in common after their
common prefix. -/
theorem Run.parted (h : Run cfg (OnAppend Node.ChecksBoundary) tr c) (n m : NodeID) :
    ∃ common ltail ftail, Rep (c.node n).log (common ++ ltail) ∧
      Rep (c.node m).log (common ++ ftail) ∧
      Ascending (common ++ ltail) ∧ Ascending (common ++ ftail) ∧
      ∀ e ∈ ltail, ∀ e' ∈ ftail, e.term ≠ e'.term := by
  obtain ⟨r, h⟩ := h.shadow
  obtain ⟨L, -, H⟩ := h.logged id
  obtain ⟨common, ltail, ftail, hn, hm, hapart⟩ := (L.log n).parted (L.log m)
  refine ⟨common, ltail, ftail, ?_⟩
  rw [← hn, ← hm]
  exact ⟨(H.node n).rep, (H.node m).rep, .of_logInv L n, .of_logInv L m, hapart⟩

/-- A node in term 3 with a snapshot of entries of term 1 and no-ops after it. -/
def compactedNode (lastIncludedIndex : ℕ) (terms : List ℕ) : Node :=
  newNode ⟨noops (lastIncludedIndex + 1) terms, 3, "", lastIncludedIndex, 1⟩ (fun _ => none)
    (some (⟨fun _ => none⟩, ⟨lastIncludedIndex, 1⟩)) 0

theorem compactedNode_represents (b : ℕ) (terms : List ℕ) :
    Represents (compactedNode b terms).log ⟨3, "", b, 1, noops (b + 1) terms⟩ :=
  .of_entries ⟨3, "", b, 1, noops (b + 1) terms⟩ (.noops _ terms)

/-- The leader has entries of the terms 1, 1, 3, 3 and the follower of 1, 1, 2, with snapshots of
two and of one. -/
def laggingLink : Link where
  leader := { compactedNode 2 [3, 3] with role := .leader, nextIndex := fun _ => 4 }
  follower := compactedNode 1 [1, 2]

theorem laggingLink_lags :
    laggingLink.Lags "n2" (noops 1 [1, 1]) (noops 3 [3, 3]) (noops 3 [2]) where
  role := rfl
  term := rfl
  leader := (compactedNode_represents 2 [3, 3]).rep (.noops 1 [1, 1]) rfl rfl
  follower := (compactedNode_represents 1 [1, 2]).rep (.noops 1 [1]) rfl rfl
  covered := by decide
  ascending := by decide
  stored := ⟨rfl, rfl⟩
  next := by decide

/-- The follower's entry of term 2 is replaced after one refusal. -/
theorem catch_up_lagging :
    (Theory.rounds (Link.round ((trio 1).member "n1") "n2") 3 laggingLink).2 =
        [.rejected, .accepted, .accepted] ∧
      ∃ N, ∀ k ≥ N, let y :=
          (Theory.rounds (Link.round ((trio 1).member "n1") "n2") k laggingLink).1
        y.follower.log.lastIndex = 4 ∧ y.leader.matchIndex "n2" = 4 := by
  obtain ⟨-, N, hN⟩ := catch_up ((trio 1).member "n1") "n2" laggingLink_lags (by decide)
  refine ⟨by decide, N, fun k hk => ?_⟩
  obtain ⟨-, hlast, -, hmatch⟩ := hN k hk
  exact ⟨hlast, hmatch⟩

/-- The leader has entries of the terms 1, 1, 2 and the follower of 1, 2. -/
def bouncingLink : Link where
  leader := { followerWith 2 [1, 1, 2] with role := .leader, nextIndex := fun _ => 3 }
  follower := followerWith 2 [1, 2]

theorem bouncingLink_lags :
    bouncingLink.Lags "n2" (noops 1 [1]) (noops 2 [1, 2]) (noops 2 [2]) where
  role := rfl
  term := rfl
  leader := (followerWith_represents 2 [1, 1, 2]).rep (l := []) (.noops 1 []) rfl rfl
  follower := (followerWith_represents 2 [1, 2]).rep (l := []) (.noops 1 []) rfl rfl
  covered := by decide
  ascending := by decide
  stored := ⟨rfl, rfl⟩
  next := by decide

theorem bouncingLink_matches : bouncingLink.leader.log.Matches bouncingLink.follower.log := by
  intro i e e' he he' ht j hj f f' hf hf'
  replace he := (bouncingLink_lags.leader.retained he).2
  replace he' := (bouncingLink_lags.follower.retained he').2
  have hi : i - 1 = 0 := by
    match i - 1, he, he' with
    | 0, _, _ => rfl
    | 1, he, he' =>
      cases he
      cases he'
      cases ht
  replace hf := (bouncingLink_lags.leader.retained hf).2
  replace hf' := (bouncingLink_lags.follower.retained hf').2
  rw [show j - 1 = 0 by omega] at hf hf'
  cases hf
  cases hf'
  rfl

/-- The hint of the follower is a term that the leader has after the conflict: it goes back and
forth between the indices 3 and 4. -/
theorem catch_up_fails : ∃ (x : Link) (common ltail ftail : List Entry),
    x.Lags "n2" common ltail ftail ∧ x.leader.log.Matches x.follower.log ∧
      1 + distinctTerms ftail <
        (Theory.rounds (Link.round ((trio 1).member "n1") "n2") 3 x).2.count .rejected :=
  ⟨bouncingLink, _, _, _, bouncingLink_lags, bouncingLink_matches, by decide⟩

end DistributedKV.Raft
