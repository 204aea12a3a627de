import DistributedKV.Verify.StoredLog
import Mathlib.Logic.Equiv.List

/-!
# Power failures

The log on its disk over whole runs, in which commits fail, the process ends and power fails. What
the log answers is specified by a journal of log states: the one that is durable, and those that
operations which did not wait for the disk have led to (`journalAfter`). The log refines it
(`stored_log_refines`), so what a power failure can take away is read off the specification
(`power_failure_undoes`).
-/

namespace DistributedKV.Raft

open Storage Theory

/-! ## Events -/

/-- What happens to a log on a disk. -/
inductive DiskEvent where
  | perform (op : LogOp) (ok : Bool)
  /-- The process ends, and the log is opened again. -/
  | reopen
  /-- Power fails when `k` commits that nobody waited for have reached the disk, and the log is
  opened again. -/
  | powerFailure (k : ℕ)

namespace DiskEvent

variable (codec : EntryCodec) (fsyncOnAppend : Bool)

def exec (sl : StoredLog) : DiskEvent → Option StoredLog
  | .perform op ok => some (sl.perform codec fsyncOnAppend ok op).1
  | .reopen => openStoredLog sl.engine
  | .powerFailure k => openStoredLog (sl.engine.fail k)

/-- An operation is performed where there is a log for it, on numbers that fit. -/
def Allowed (sl : StoredLog) : DiskEvent → Prop
  | .perform op _ => op.Fits ∧ op.InPlace sl.firstIndex sl.lastIndex
  | _ => True

/-- What the event does to the specification. -/
def act (j : Journal LogState) : DiskEvent → Journal LogState
  | .perform op ok =>
    if ok && op.writes j.current.lastIncludedIndex j.current.lastIndex then
      j.write (op.syncs fsyncOnAppend) (op.act j.current)
    else j
  | .reopen => j
  | .powerFailure k => j.fail k

end DiskEvent

/-- The logs that can come of an empty disk. -/
inductive DiskRuns (codec : EntryCodec) (fsyncOnAppend : Bool) :
    List DiskEvent → StoredLog → Prop where
  | init : openStoredLog ⟨{}, []⟩ = some sl → DiskRuns codec fsyncOnAppend [] sl
  | step {ev : DiskEvent} : DiskRuns codec fsyncOnAppend evs sl → ev.Allowed sl →
    ev.exec codec fsyncOnAppend sl = some sl' →
    DiskRuns codec fsyncOnAppend (evs ++ [ev]) sl'

/-- The specification after some events. -/
def journalAfter (fsyncOnAppend : Bool) (evs : List DiskEvent) : Journal LogState :=
  evs.foldl (DiskEvent.act fsyncOnAppend) ⟨{}, []⟩

namespace LogOp

variable {op : LogOp} {s : LogState}

theorem act_of_not_writes (h : op.writes s.lastIncludedIndex s.lastIndex = false) :
    op.act s = s := by
  cases op with
  | setTermAndVote | restoreSnapshotBoundary => cases h
  | appendEntries first es hes =>
    cases es with
    | nil => rfl
    | cons => cases h
  | truncateSuffix start =>
    have hlt : s.lastIndex < start := not_le.mp (of_decide_eq_false h)
    have hlen : s.entries.length ≤ start - (s.lastIncludedIndex + 1) := by
      rw [LogState.lastIndex] at hlt
      omega
    rw [act, LogState.truncate, List.take_of_length_le hlen]
  | compactPrefix index term => exact if_pos (not_lt.mp (of_decide_eq_false h))

end LogOp

/-- The engine holds the bytes of `s`. -/
def ImageOf (codec : EntryCodec) (e : Storage.Engine) (s : LogState) : Prop :=
  s.lastIndex + 1 < 2 ^ 64 ∧ ∃ t, Stores codec e t ∧ Represents (openPersistentLog t) s

/-- The log `sl` and what there is on its disk are described by `j`. -/
structure Describes (codec : EntryCodec) (j : Journal LogState) (sl : StoredLog) : Prop where
  disk : Journal.Related (ImageOf codec) sl.engine j
  log : ∃ pl, sl = pl.on sl.engine ∧ Stores codec sl.engine.current pl.engine ∧
    Represents pl j.current

namespace Describes

variable {codec : EntryCodec} {sync : Bool} {j : Journal LogState} {sl : StoredLog}

/-- A log can be opened on whatever the disk holds. -/
theorem opens (h : Journal.Related (ImageOf codec) d j) :
    ∃ sl, openStoredLog d = some sl ∧ Describes codec j sl := by
  obtain ⟨-, t, hst, hrep⟩ := h.current
  exact ⟨_, hst.openStoredLog, h, _, rfl, hst, hrep⟩

theorem perform (h : Describes codec j sl) (hok : (DiskEvent.perform op ok).Allowed sl) :
    Describes codec ((DiskEvent.perform op ok).act sync j)
      (sl.perform codec sync ok op).1 := by
  obtain ⟨hdisk, pl, hsl, hst, hrep⟩ := h
  obtain ⟨d, hd⟩ : ∃ d, d = sl.engine := ⟨_, rfl⟩
  rw [← hd] at hdisk hsl hst
  subst hsl
  have hlegal : op.Legal pl := by
    cases op with
    | appendEntries | truncateSuffix => exact hok.2
    | _ => trivial
  have hbound := hdisk.current.1
  have hnext := hrep.perform hlegal ok
  rw [DiskEvent.act, ← hrep.boundary.1, ← hrep.lastIndex]
  split
  · next hw =>
    obtain ⟨rfl, hw⟩ := Bool.and_eq_true_iff.mp hw
    obtain ⟨e, heq, hst'⟩ := perform_on hst (by rw [hrep.lastIndex]; omega) hok.1 hw sync
    rw [heq]
    refine ⟨hdisk.write ⟨hok.1.lastIndex_act hbound hrep hlegal, _, hst', hnext.reopen⟩ _, _, rfl,
      ?_, ?_⟩
    · rwa [PersistentLog.on, Journal.current_write]
    · rwa [Journal.current_write]
  · next hw =>
    have hidle : ok = false ∨ op.writes pl.lastIncludedIndex pl.lastIndex = false := by
      simpa [Decidable.imp_iff_not_or] using hw
    obtain ⟨heq, hengine⟩ := perform_on_idle codec d hidle sync
    rw [heq]
    refine ⟨hdisk, _, rfl, ?_, ?_⟩
    · rw [hengine]
      exact hst
    · cases ok with
      | false => exact hnext
      | true =>
        rw [hrep.boundary.1, hrep.lastIndex] at hidle
        rwa [if_pos rfl, LogOp.act_of_not_writes (hidle.resolve_left (by decide))] at hnext

theorem init : Describes codec ⟨{}, []⟩ ((openPersistentLog {}).on ⟨{}, []⟩) :=
  ⟨⟨⟨by decide, _, .init, .init⟩, .nil⟩, _, rfl, .init, .init⟩

end Describes

theorem DiskRuns.describes (h : DiskRuns codec sync evs sl) :
    Describes codec (journalAfter sync evs) sl := by
  induction h with
  | init hopen =>
    obtain ⟨sl', hsl', hd⟩ := Describes.opens Describes.init.disk
    cases hsl'.symm.trans hopen
    exact hd
  | @step evs sl sl' ev _ hok hex ih =>
    rw [journalAfter, List.foldl_append]
    cases ev with
    | perform op ok =>
      cases hex
      exact ih.perform hok
    | reopen =>
      obtain ⟨sl', hsl', hd⟩ := Describes.opens ih.disk
      cases hsl'.symm.trans hex
      exact hd
    | powerFailure k =>
      obtain ⟨sl', hsl', hd⟩ := Describes.opens (ih.disk.fail k)
      cases hsl'.symm.trans hex
      exact hd

/-- Every allowed event can happen: the log can always be opened again. -/
theorem DiskRuns.extend (h : DiskRuns codec sync evs sl) (ev : DiskEvent) (hok : ev.Allowed sl) :
    ∃ sl', ev.exec codec sync sl = some sl' ∧ DiskRuns codec sync (evs ++ [ev]) sl' := by
  have hex : ∃ sl', ev.exec codec sync sl = some sl' := by
    cases ev with
    | perform op ok => exact ⟨_, rfl⟩
    | reopen =>
      obtain ⟨sl', hsl', -⟩ := Describes.opens h.describes.disk
      exact ⟨sl', hsl'⟩
    | powerFailure k =>
      obtain ⟨sl', hsl', -⟩ := Describes.opens (h.describes.disk.fail k)
      exact ⟨sl', hsl'⟩
  obtain ⟨sl', hsl'⟩ := hex
  exact ⟨sl', hsl', h.step hok hsl'⟩

/-- Everything that can be read off `sl` is read off `s`. -/
structure StoredAnswers (codec : EntryCodec) (sl : StoredLog) (s : LogState) : Prop where
  currentTerm : sl.currentTerm = s.currentTerm
  votedFor : sl.votedFor = bytesOf s.votedFor
  boundary : sl.lastIncludedIndex = s.lastIncludedIndex ∧ sl.lastIncludedTerm = s.lastIncludedTerm
  firstIndex : sl.firstIndex = s.lastIncludedIndex + 1
  lastIndex : sl.lastIndex = s.lastIndex
  lastTerm : sl.lastTerm codec = s.lastTerm
  termAt : ∀ i, sl.termAt codec i = s.termAt i
  get : ∀ i < 2 ^ 64, sl.get codec i = (s.get i).mapError .log
  range : ∀ lo, ∀ hi < 2 ^ 64, sl.range codec lo hi = (s.range lo hi).mapError .log

theorem Describes.answers (h : Describes codec j sl) : StoredAnswers codec sl j.current := by
  obtain ⟨hdisk, pl, hsl, hst, hrep⟩ := h
  have hlast : pl.lastIndex < 2 ^ 64 := by
    rw [hrep.lastIndex]
    exact Nat.lt_of_succ_lt hdisk.current.1
  rw [hsl]
  exact ⟨hrep.ballot.1, congrArg bytesOf hrep.ballot.2, hrep.boundary, hrep.firstIndex,
    hrep.lastIndex, (lastTerm_on hst hlast).trans hrep.lastTerm,
    fun i => (termAt_on hst hlast i).trans (hrep.termAt i),
    fun i hi => (get_on hst hi).trans (by rw [hrep.get i]),
    fun lo hi hhi => (range_on hst hhi).trans (by rw [hrep.range lo hi])⟩

theorem exists_entryCodec : Nonempty EntryCodec := by
  let numbers (v : Value) : List ℕ := v.map UInt8.toNat
  have hnum : Function.Injective numbers := List.map_injective_iff.mpr fun _ _ => UInt8.toNat_inj.mp
  let f (e : Entry) : List (List ℕ) :=
    [[e.index, e.term, match e.type with | .noop => 0 | .put => 1 | .delete => 2],
      numbers (bytesOf e.key), numbers e.value, numbers (bytesOf e.clientRequestID)]
  have hf : Function.Injective f := by
    rintro ⟨i, t, ty, k, v, c⟩ ⟨i', t', ty', k', v', c'⟩ heq
    simp only [f, List.cons.injEq, hnum.eq_iff, bytesOf_inj] at heq
    cases ty <;> cases ty' <;> simp_all
  have := hf.countable
  obtain ⟨g, hg⟩ := exists_injective_nat Entry
  exact ⟨fun e => List.replicate (g e) 0, fun b => Function.partialInv g b.length, fun _ => by
    rw [List.length_replicate, Function.partialInv_left hg]⟩

/-- A vote in term 3, and then two entries of that term. -/
def votedAndAppended : List DiskEvent :=
  [.perform (.setTermAndVote 3 "n2") true,
    .perform (.appendEntries 1 (noops 1 [3, 3]) (.noops 1 [3, 3])) true]

theorem votedAndAppended_runs (codec : EntryCodec) (sync : Bool) :
    ∃ sl, DiskRuns codec sync votedAndAppended sl := by
  have hinit : Stores codec {} {} := .init
  have h₀ : DiskRuns codec sync [] _ := .init hinit.openStoredLog
  obtain ⟨sl₁, -, h₁⟩ := h₀.extend (.perform (.setTermAndVote 3 "n2") true) ⟨by decide, trivial⟩
  obtain ⟨sl₂, -, h₂⟩ := h₁.extend
    (.perform (.appendEntries 1 (noops 1 [3, 3]) (.noops 1 [3, 3])) true) ⟨by decide, by
      rw [h₁.describes.answers.firstIndex, h₁.describes.answers.lastIndex]
      cases sync <;> exact ⟨by decide, by decide⟩⟩
  exact ⟨sl₂, h₂⟩

/-- **The log on its disk refines its specification**, over all operations with successful and
failed commits, restarts and power failures; and it can always be opened again. -/
theorem stored_log_refines (h : DiskRuns codec fsyncOnAppend evs sl) :
    StoredAnswers codec sl (journalAfter fsyncOnAppend evs).current ∧
      ∀ ev : DiskEvent, ev.Allowed sl → ∃ sl', ev.exec codec fsyncOnAppend sl = some sl' := by
  refine ⟨h.describes.answers, fun ev hok => ?_⟩
  obtain ⟨sl', hsl', -⟩ := h.extend ev hok
  exact ⟨sl', hsl'⟩

/-- Without `FsyncOnAppend`, the two entries are lost when power fails. -/
theorem stored_log_refines_lost : ∃ codec evs sl, DiskRuns codec false evs sl ∧
    sl.lastIndex = 0 ∧ sl.currentTerm = 3 ∧
    StoredAnswers codec sl (journalAfter false evs).current ∧
      ∀ ev : DiskEvent, ev.Allowed sl → ∃ sl', ev.exec codec false sl = some sl' := by
  obtain ⟨codec⟩ := exists_entryCodec
  obtain ⟨sl₂, h₂⟩ := votedAndAppended_runs codec false
  obtain ⟨sl₃, -, h₃⟩ := h₂.extend (.powerFailure 0) trivial
  obtain ⟨hans, hext⟩ := stored_log_refines h₃
  exact ⟨codec, _, sl₃, h₃, hans.lastIndex, hans.currentTerm, hans, hext⟩

/-! ## Power failures -/

theorem journalAfter_concat (sync : Bool) (evs : List DiskEvent) (ev : DiskEvent) :
    journalAfter sync (evs ++ [ev]) = ev.act sync (journalAfter sync evs) := by
  rw [journalAfter, List.foldl_append]
  rfl

/-- A power failure can undo the event, which was not a power failure itself: its commit did not
wait for the disk, or it changed nothing. -/
def DiskEvent.Undoable (sync : Bool) (s : LogState) : DiskEvent → Prop
  | .perform op ok => ok = true → op.syncs sync = false ∨ op.act s = s
  | .reopen => True
  | .powerFailure _ => False

/-- `s` is the state after the first of the events, and the later ones can be undone. -/
inductive Undone (sync : Bool) : List DiskEvent → LogState → Prop where
  | none (evs : List DiskEvent) : Undone sync evs (journalAfter sync evs).current
  | event {ev : DiskEvent} : Undone sync evs s → ev.Undoable sync (journalAfter sync evs).current →
    Undone sync (evs ++ [ev]) s

/-- Every state on the disk comes of undoing events. -/
theorem journal_undone (sync : Bool) (evs : List DiskEvent) :
    (journalAfter sync evs).All (Undone sync evs) := by
  induction evs using List.reverseRecOn with
  | nil => exact ⟨.none [], by simp [journalAfter]⟩
  | append_singleton evs ev ih =>
    have hnew : Undone sync (evs ++ [ev]) _ := .none _
    rw [journalAfter_concat] at hnew ⊢
    cases ev with
    | perform op ok =>
      rw [DiskEvent.act] at hnew ⊢
      split at hnew
      · next hw =>
        rw [if_pos hw]
        rw [Journal.current_write] at hnew
        cases hsync : op.syncs sync with
        | true => exact ⟨hnew, by simp [Journal.write]⟩
        | false =>
          have hun : (DiskEvent.perform op ok).Undoable sync (journalAfter sync evs).current :=
            fun _ => .inl hsync
          refine ⟨ih.1.event hun, fun s hs => ?_⟩
          rcases List.mem_append.mp hs with hs | hs
          · exact (ih.2 s hs).event hun
          · rw [List.mem_singleton.mp hs]
            exact hnew
      · next hw =>
        rw [if_neg hw]
        have hun : (DiskEvent.perform op ok).Undoable sync (journalAfter sync evs).current := by
          rintro rfl
          exact .inr (LogOp.act_of_not_writes (by simpa using hw))
        exact ⟨ih.1.event hun, fun s hs => (ih.2 s hs).event hun⟩
    | reopen => exact ⟨ih.1.event trivial, fun s hs => (ih.2 s hs).event trivial⟩
    | powerFailure k => exact ⟨hnew, by simp [DiskEvent.act, Journal.fail]⟩

/-- Two states that differ in their entries at most. -/
structure LogState.SameMeta (s s' : LogState) : Prop where
  currentTerm : s.currentTerm = s'.currentTerm
  votedFor : s.votedFor = s'.votedFor
  lastIncludedIndex : s.lastIncludedIndex = s'.lastIncludedIndex
  lastIncludedTerm : s.lastIncludedTerm = s'.lastIncludedTerm

theorem LogOp.sameMeta_act {op : LogOp} (h : op.syncs sync = false) (s : LogState) :
    sync = false ∧ s.SameMeta (op.act s) := by
  cases op with
  | appendEntries first es hes => cases es <;> exact ⟨h, rfl, rfl, rfl, rfl⟩
  | _ => cases h

/-- Only entries are undone, and only those that were not synced. -/
theorem Undone.same (h : Undone sync evs s) :
    s.SameMeta (journalAfter sync evs).current ∧
      (sync = true → s = (journalAfter sync evs).current) := by
  induction h with
  | none => exact ⟨⟨rfl, rfl, rfl, rfl⟩, fun _ => rfl⟩
  | @event evs s ev h hun ih =>
    obtain ⟨hm, hall⟩ := ih
    rw [journalAfter_concat]
    cases ev with
    | perform op ok =>
      rw [DiskEvent.act]
      split
      · next hw =>
        rw [Journal.current_write]
        rcases hun (Bool.and_eq_true_iff.mp hw).1 with hsync | heq
        · obtain ⟨rfl, hm'⟩ := LogOp.sameMeta_act hsync (journalAfter sync evs).current
          exact ⟨⟨hm.1.trans hm'.1, hm.2.trans hm'.2, hm.3.trans hm'.3, hm.4.trans hm'.4⟩,
            fun h => by cases h⟩
        · rw [heq]
          exact ⟨hm, hall⟩
      · exact ⟨hm, hall⟩
    | reopen => exact ⟨hm, hall⟩
    | powerFailure k => exact hun.elim

/-- **A power failure** keeps the term, the vote and the snapshot boundary, and with
`FsyncOnAppend` all entries. Without it, operations are undone from the last one back, none of which
was a synced one that had changed the log. -/
theorem power_failure_undoes (h : DiskRuns codec fsyncOnAppend evs sl)
    (hf : (DiskEvent.powerFailure k).exec codec fsyncOnAppend sl = some sl') :
    (sl'.currentTerm = sl.currentTerm ∧ sl'.votedFor = sl.votedFor ∧
      sl'.lastIncludedIndex = sl.lastIncludedIndex ∧
      sl'.lastIncludedTerm = sl.lastIncludedTerm) ∧
    (fsyncOnAppend = true → StoredAnswers codec sl' (journalAfter fsyncOnAppend evs).current) ∧
    ∃ s, StoredAnswers codec sl' s ∧ Undone fsyncOnAppend evs s := by
  obtain ⟨sl'', hsl'', hd⟩ := Describes.opens (h.describes.disk.fail k)
  cases hsl''.symm.trans hf
  have hans := h.describes.answers
  have hans' := hd.answers
  have hun := Journal.All.fail (journal_undone fsyncOnAppend evs) k
  obtain ⟨hm, hall⟩ := hun.same
  refine ⟨⟨?_, ?_, ?_, ?_⟩, fun hsync => hall hsync ▸ hans', _, hans', hun⟩
  · rw [hans'.currentTerm, hans.currentTerm, hm.currentTerm]
  · rw [hans'.votedFor, hans.votedFor, hm.votedFor]
  · rw [hans'.boundary.1, hans.boundary.1, hm.lastIncludedIndex]
  · rw [hans'.boundary.2, hans.boundary.2, hm.lastIncludedTerm]

/-- The two entries are undone, the vote is not. -/
theorem power_failure_undoes_entries : ∃ codec sl sl', DiskRuns codec false votedAndAppended sl ∧
    (DiskEvent.powerFailure 0).exec codec false sl = some sl' ∧ sl.lastIndex = 2 ∧
    sl'.lastIndex = 0 ∧
    (sl'.currentTerm = sl.currentTerm ∧ sl'.votedFor = sl.votedFor ∧
      sl'.lastIncludedIndex = sl.lastIncludedIndex ∧
      sl'.lastIncludedTerm = sl.lastIncludedTerm) ∧
    (false = true → StoredAnswers codec sl' (journalAfter false votedAndAppended).current) ∧
    ∃ s, StoredAnswers codec sl' s ∧ Undone false votedAndAppended s := by
  obtain ⟨codec⟩ := exists_entryCodec
  obtain ⟨sl, h⟩ := votedAndAppended_runs codec false
  obtain ⟨sl', hex, h'⟩ := h.extend (.powerFailure 0) trivial
  exact ⟨codec, sl, sl', h, hex, h.describes.answers.lastIndex, h'.describes.answers.lastIndex,
    power_failure_undoes h hex⟩

/-! ## The layout -/

theorem LogState.mem_entries {s : LogState} (hs : Consecutive (s.lastIncludedIndex + 1) s.entries) :
    e ∈ s.entries ↔ s.at? e.index = some e := by
  constructor
  · intro he
    obtain ⟨k, hk⟩ := List.mem_iff_getElem?.mp he
    have hidx := hs k e hk
    rw [at?, if_pos (by omega), hidx, Nat.add_sub_cancel_left, hk]
  · intro he
    exact List.mem_of_getElem? (Option.ite_none_right_eq_some.mp he).2

theorem Consecutive.sorted (h : Consecutive lo es) : es.Pairwise fun a b => a.index < b.index := by
  rw [List.pairwise_iff_getElem]
  intro i j hi hj hij
  rw [h i _ (List.getElem?_eq_getElem hi), h j _ (List.getElem?_eq_getElem hj)]
  omega

/-- **The entries are on the disk in the order of the log**, each under its key, and nothing else is
among them. -/
theorem stored_layout (h : DiskRuns codec fsyncOnAppend evs sl) :
    sl.engine.newIterator logPrefix (KV.prefixUpperBound logPrefix) =
      (journalAfter fsyncOnAppend evs).current.entries.map fun e =>
        (logKey e.index, codec.encode e) := by
  obtain ⟨hdisk, pl, -, hst, hrep⟩ := h.describes
  have hbound := hdisk.current.1
  have hin {e} (he : e ∈ (journalAfter fsyncOnAppend evs).current.entries) : e.index < 2 ^ 64 := by
    have hsome := (LogState.mem_entries hrep.consecutive).mp he
    have := (LogState.at?_isSome.mp (Option.isSome_of_eq_some hsome)).2
    omega
  -- both sides are in the order of the keys
  let r : Bytes × Bytes → Bytes × Bytes → Prop := fun a b => a.1 < b.1
  have : Std.Irrefl r := ⟨fun a => List.lt_irrefl a.1⟩
  have : Std.Antisymm r := ⟨fun a b hab hba => (List.lt_asymm hab hba).elim⟩
  refine List.Pairwise.eq_of_mem_iff (r := r) ?_ ?_ fun ⟨key, value⟩ => ?_
  · refine (Std.ExtTreeMap.ordered_keys_toList.imp fun hlt => ?_).filter _
    exact compare_eq_lt_iff.mp hlt
  · rw [List.pairwise_map]
    exact hrep.consecutive.sorted.imp_of_mem fun _ hb hlt => logKey_lt hlt (hin hb)
  · rw [Disk.newIterator, KV.mem_newIterator, List.mem_map]
    constructor
    · rintro ⟨hpre, hget⟩
      obtain ⟨i, hi, rfl⟩ := hst.log.key hget hpre
      rw [hst.log.entry hi, Option.map_eq_some_iff] at hget
      obtain ⟨e, he, rfl⟩ := hget
      obtain ⟨rfl, -⟩ := lookup_some he
      rw [hrep.disk] at he
      exact ⟨e, (LogState.mem_entries hrep.consecutive).mpr he, rfl⟩
    · rintro ⟨e, he, heq⟩
      cases heq
      refine ⟨logPrefix_logKey _, ?_⟩
      rw [hst.log.entry (hin he), hrep.disk, (LogState.mem_entries hrep.consecutive).mp he]
      rfl

theorem stored_layout_two : ∃ codec sl, DiskRuns codec true votedAndAppended sl ∧
    sl.engine.newIterator logPrefix (KV.prefixUpperBound logPrefix) =
      [(logKey 1, codec.encode ⟨1, 3, .noop, "", [], ""⟩),
        (logKey 2, codec.encode ⟨2, 3, .noop, "", [], ""⟩)] := by
  obtain ⟨codec⟩ := exists_entryCodec
  obtain ⟨sl, h⟩ := votedAndAppended_runs codec true
  exact ⟨codec, sl, h, stored_layout h⟩

end DistributedKV.Raft
