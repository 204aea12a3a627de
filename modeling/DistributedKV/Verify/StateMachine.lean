import DistributedKV.KV.StateMachine
import DistributedKV.Theory.Lex
import DistributedKV.Raft.Node

/-!
# The state machine refines a map

The keys that begin with `d/` are those that an iterator up to `prefixUpperBound` finds, so `Dump`
reads all data and nothing else, and `Restore` clears just that. What other components keep in the
engine is never touched. At the end the map is identified with the one that `Raft.Node` works on.
-/

namespace DistributedKV

/-! ## Bytes and prefixes -/

namespace KV

open Storage Theory

/-- The next byte; `0xff` wraps around. -/
def nextByte (b : UInt8) : Option UInt8 := if b + 1 = 0 then none else some (b + 1)

theorem nextByte_successor : Successor nextByte where
  lt_iff := by
    intro a b hb c
    unfold nextByte at hb
    split at hb <;> cases hb
    rw [Std.compare_eq_lt, Std.LawfulOrderOrd.isLE_compare]
    grind
  greatest := by
    intro a ha c
    unfold nextByte at ha
    split at ha <;> cases ha
    rw [Std.LawfulOrderOrd.isLE_compare]
    grind

theorem prefixUpperBoundFrom_eq (upper : Bytes) (hi : i ≤ upper.length) :
    prefixUpperBoundFrom upper i = upperBound nextByte (upper.take i) := by
  induction i generalizing upper with
  | zero => rfl
  | succ i ih =>
    have hlt : i < upper.length := hi
    have hget : (upper.modify i (· + 1))[i]? = some (upper[i] + 1) := by
      simp [hlt]
    have hkeep : (upper.modify i (· + 1)).take i = upper.take i := by
      rw [List.take_modify, List.modify_eq_self (List.length_take_le ..)]
    have htake : (upper.modify i (· + 1)).take (i + 1) = upper.take i ++ [upper[i] + 1] := by
      rw [List.take_add_one, hkeep, hget]
      rfl
    rw [prefixUpperBoundFrom, ← List.take_append_getElem hlt, upperBound_concat, nextByte, hget,
      htake]
    split
    · next hne => rw [if_neg fun h0 => hne (congrArg some h0)]
    · next heq =>
      rw [if_pos (Option.some.inj (not_not.mp heq)), ih _ (by simpa using hlt.le), hkeep]

theorem prefixUpperBound_eq (pre : Bytes) : prefixUpperBound pre = upperBound nextByte pre := by
  rw [prefixUpperBound, prefixUpperBoundFrom_eq _ le_rfl, List.take_length]

/-- **The keys that begin with `p` are those from `p` up to its upper bound**, or up to the last key
if there is no bound. The log has a copy of the function to find its own keys. -/
theorem prefixUpperBound_delimits (p k : Bytes) :
    p <+: k ↔
      p ≤ k ∧ (prefixUpperBound p = none ∨ ∃ u, prefixUpperBound p = some u ∧ k < u) := by
  rw [nextByte_successor.isPrefix_iff, ← prefixUpperBound_eq, isLE_compare_iff]
  simp only [compare_eq_lt_iff]
  refine and_congr_right fun _ => ?_
  cases prefixUpperBound p <;> simp

example : prefixUpperBound [1, 0xff, 0xff] = some [2] ∧ prefixUpperBound [0xff, 0xff] = none ∧
    prefixUpperBound [] = none := by
  decide

/-- An iterator from `pre` to `prefixUpperBound pre` finds the keys that begin with `pre`. -/
theorem mem_newIterator {e : Engine} {pre key value : Bytes} :
    (key, value) ∈ e.newIterator pre (prefixUpperBound pre) ↔
      pre <+: key ∧ e.get key = some value := by
  rw [Engine.newIterator, List.mem_filter, Std.ExtTreeMap.mem_toList_iff_getElem?_eq_some,
    nextByte_successor.isPrefix_iff, ← prefixUpperBound_eq, and_comm]
  simp [Engine.get, Option.all_eq_true]

/-! ## Batches -/

end KV

namespace Storage.Engine

@[simp] theorem write_set_get (e : Engine) (k v key : Bytes) :
    (e.write (.set k v)).get key = if k = key then some v else e.get key := by
  simp [write, get, Std.ExtTreeMap.getElem?_insert]

@[simp] theorem write_delete_get (e : Engine) (k key : Bytes) :
    (e.write (.delete k)).get key = if k = key then none else e.get key := by
  simp [write, get, Std.ExtTreeMap.getElem?_erase]

theorem deletes_get (e : Engine) (l : List (Bytes × Bytes)) (key : Bytes) :
    ((l.map fun kv => Write.delete kv.1).foldl write e).get key =
      if key ∈ l.map Prod.fst then none else e.get key := by
  induction l generalizing e with
  | nil => rfl
  | cons kv l ih =>
    rw [List.map_cons, List.foldl_cons, ih, write_delete_get, List.map_cons]
    by_cases hk : kv.1 = key
    · simp [hk]
    · simp only [hk, if_false, List.mem_cons, Ne.symm hk, false_or]

theorem sets_content (f : Bytes → Bytes) (e : Engine) (l : List (Bytes × Bytes)) :
    ((l.map fun kv => Write.set (f kv.1) kv.2).foldl write e).content =
      l.foldl (fun t kv => t.insert (f kv.1) kv.2) e.content := by
  rw [List.foldl_map]
  exact (List.foldl_hom content fun _ _ => rfl).symm

end Storage.Engine

namespace KV

open Storage Theory

/-- No key occurs twice. -/
def Distinct (l : List (Bytes × Bytes)) : Prop := l.Pairwise fun a b => a.1 ≠ b.1

theorem distinct_toList (t : Std.ExtTreeMap Bytes Bytes compare) : Distinct t.toList :=
  t.distinct_keys_toList.imp fun h heq => h (Std.compare_eq_iff_eq.mpr heq)

/-- A map after the pairs of `l` have been put into it. -/
theorem getElem?_insertMany {t : Std.ExtTreeMap Bytes Bytes compare} {l : List (Bytes × Bytes)}
    (hd : Distinct l) {o : Option Bytes} (ho : ∀ v, (k, v) ∈ l ↔ o = some v) :
    (t.insertMany l)[k]? = o.or t[k]? := by
  cases o with
  | some v =>
    refine Std.ExtTreeMap.getElem?_insertMany_list_of_mem Std.ReflCmp.compare_self ?_
      ((ho v).mpr rfl)
    exact hd.imp fun hne heq => hne (Std.compare_eq_iff_eq.mp heq)
  | none =>
    refine Std.ExtTreeMap.getElem?_insertMany_list_of_contains_eq_false ?_
    simpa using fun v => (ho v).not.mpr (by simp)

theorem foldl_insert (f : Bytes → Bytes) (l : List (Bytes × Bytes))
    (t : Std.ExtTreeMap Bytes Bytes compare) :
    l.foldl (fun t kv => t.insert (f kv.1) kv.2) t =
      t.insertMany (l.map fun kv => (f kv.1, kv.2)) := by
  induction l generalizing t with
  | nil => exact Std.ExtTreeMap.insertMany_nil.symm
  | cons kv l ih => exact (ih _).trans Std.ExtTreeMap.insertMany_cons.symm

/-! ## Operations -/

theorem dataKey_inj {k k' : Bytes} : dataKey k = dataKey k' ↔ k = k' := List.append_right_inj _

theorem dataPrefix_dataKey (k : Bytes) : dataPrefix <+: dataKey k := List.prefix_append ..

namespace StateMachine

variable {s : StateMachine}

theorem mem_data : (key, value) ∈ s.data ↔ dataPrefix <+: key ∧ s.engine.get key = some value :=
  mem_newIterator

/-- The data of the state machine under its own keys. -/
theorem mem_data_drop :
    (k, v) ∈ s.data.map (fun kv => (kv.1.drop dataPrefix.length, kv.2)) ↔ s.get k = some v := by
  rw [List.mem_map]
  constructor
  · rintro ⟨⟨key, value⟩, hmem, heq⟩
    obtain ⟨⟨k', rfl⟩, hget⟩ := mem_data.mp hmem
    rw [List.drop_left] at heq
    cases heq
    exact hget
  · intro hget
    exact ⟨(dataKey k, v), mem_data.mpr ⟨dataPrefix_dataKey k, hget⟩, by
      rw [dataKey, List.drop_left]⟩

theorem distinct_data_drop :
    Distinct (s.data.map fun kv => (kv.1.drop dataPrefix.length, kv.2)) := by
  have hd : Distinct s.data := (distinct_toList _).filter _
  refine List.pairwise_map.mpr (hd.imp_of_mem fun {a b} ha hb hne heq => hne ?_)
  obtain ⟨⟨k, hk⟩, -⟩ := mem_data.mp ha
  obtain ⟨⟨k', hk'⟩, -⟩ := mem_data.mp hb
  rw [← hk, ← hk', List.drop_left, List.drop_left] at heq
  rw [← hk, ← hk']
  exact congrArg _ heq

/-- `Dump` returns all data. -/
theorem dump_pairs (s : StateMachine) (k : Bytes) : s.dump.pairs[k]? = s.get k := by
  rw [dump, foldl_insert, getElem?_insertMany distinct_data_drop fun v => mem_data_drop]
  simp

-- `d` and `d0` are not data, the empty key and `0xff` may be
example : (newStateMachine ⟨.ofList [([0x64], [1]), ([0x64, 0x2f], [2]), ([0x64, 0x2f, 0xff], [3]),
    ([0x64, 0x30], [4])] compare⟩).dump.pairs.toList = [([], [2]), ([0xff], [3])] := by
  decide +kernel

theorem written_commit (s : StateMachine) (ok : Bool) (b : Batch) (index : ℕ) :
    (s.written index (s.engine.commit ok b)).1 =
      if ok then ⟨b.foldl Engine.write s.engine, index⟩ else s := by
  cases ok <;> rfl

/-- The deletes of `Restore` clear all data and nothing else. -/
theorem cleared_get (s : StateMachine) (key : Bytes) :
    ((s.data.map fun kv => Write.delete kv.1).foldl Engine.write s.engine).get key =
      if dataPrefix <+: key then none else s.engine.get key := by
  rw [Engine.deletes_get]
  by_cases hp : dataPrefix <+: key
  · rw [if_pos hp]
    split
    · rfl
    · next hno =>
      cases hget : s.engine.get key with
      | none => rfl
      | some v => exact absurd (List.mem_map.mpr ⟨_, mem_data.mpr ⟨hp, hget⟩, rfl⟩) hno
  · rw [if_neg hp, if_neg fun hmem => ?_]
    obtain ⟨kv, hkv, rfl⟩ := List.mem_map.mp hmem
    exact hp (mem_data.mp hkv).1

section
variable {snap : Snapshot} (order : snap.Order)

theorem mem_order : (k, v) ∈ order.visited ↔ snap.pairs[k]? = some v := by
  rw [order.perm.mem_iff, Std.ExtTreeMap.mem_toList_iff_getElem?_eq_some]

theorem distinct_order : Distinct (order.visited.map fun kv => (dataKey kv.1, kv.2)) := by
  have hd : Distinct order.visited := (order.perm.pairwise_iff Ne.symm).mpr (distinct_toList _)
  exact List.pairwise_map.mpr (hd.imp fun hne heq => hne (dataKey_inj.mp heq))

/-- What the engine holds after `Restore`. -/
theorem restore_engine (s : StateMachine) (index : ℕ) (key : Bytes) {o : Option Bytes}
    (ho : ∀ v, (key, v) ∈ order.visited.map (fun kv => (dataKey kv.1, kv.2)) ↔ o = some v) :
    (s.restore true snap order index).1.engine.get key =
      o.or (if dataPrefix <+: key then none else s.engine.get key) := by
  rw [restore, written_commit, if_pos rfl, List.foldl_append, Engine.get, Engine.sets_content,
    foldl_insert, getElem?_insertMany (distinct_order order) ho]
  exact congrArg _ (s.cleared_get key)

theorem restore_get (s : StateMachine) (index : ℕ) (k : Bytes) :
    (s.restore true snap order index).1.get k = snap.pairs[k]? := by
  refine (restore_engine (o := snap.pairs[k]?) order s index (dataKey k) fun v => ?_).trans ?_
  · rw [← mem_order order, List.mem_map]
    constructor
    · rintro ⟨⟨k', v'⟩, hmem, heq⟩
      obtain ⟨hk, rfl⟩ := Prod.mk.inj heq
      obtain rfl := dataKey_inj.mp hk
      exact hmem
    · intro hmem
      exact ⟨(k, v), hmem, rfl⟩
  · rw [if_pos (dataPrefix_dataKey k), Option.or_none]

theorem restore_foreign (s : StateMachine) (index : ℕ) (hkey : ¬dataPrefix <+: key) :
    (s.restore true snap order index).1.engine.get key = s.engine.get key := by
  refine (restore_engine (o := none) order s index key fun v => ?_).trans ?_
  · simp only [List.mem_map, reduceCtorEq, iff_false, not_exists, not_and]
    rintro kv - heq
    obtain ⟨rfl, -⟩ := Prod.mk.inj heq
    exact hkey (dataPrefix_dataKey _)
  · rw [if_neg hkey, Option.none_or]

end

end StateMachine

/-! ## Sequences of calls -/

/-- What the state machine stands for. -/
abbrev Contents := Bytes → Option Bytes

inductive Call where
  | applyPut (index : ℕ) (key value : Bytes)
  | applyDelete (index : ℕ) (key : Bytes)
  | applyNoop (index : ℕ)
  | restore (snap : Snapshot) (order : snap.Order) (appliedIndex : ℕ)
  | dump

namespace Call

def exec (ok : Bool) (s : StateMachine) : Call → StateMachine
  | .applyPut index key value => (s.applyPut ok index key value).1
  | .applyDelete index key => (s.applyDelete ok index key).1
  | .applyNoop index => s.applyNoop index
  | .restore snap order appliedIndex => (s.restore ok snap order appliedIndex).1
  | .dump => s

/-- The operation on the map. -/
def act (m : Contents) : Call → Contents
  | .applyPut _ key value => Function.update m key (some value)
  | .applyDelete _ key => Function.update m key none
  | .applyNoop _ | .dump => m
  | .restore snap _ _ => fun k => snap.pairs[k]?

variable {s : StateMachine}

/-- A call that fails changes nothing. -/
theorem exec_get (c : Call) (ok : Bool) (s : StateMachine) :
    (c.exec ok s).get = if ok then c.act s.get else s.get := by
  cases ok with
  | false => cases c <;> rfl
  | true =>
    funext k
    cases c with
    | applyPut index key value =>
      refine (Engine.write_set_get ..).trans ?_
      simp only [dataKey_inj, eq_comm (a := key), act, Function.update_apply, if_true]
      rfl
    | applyDelete index key =>
      refine (Engine.write_delete_get ..).trans ?_
      simp only [dataKey_inj, eq_comm (a := key), act, Function.update_apply, if_true]
      rfl
    | applyNoop | dump => rfl
    | restore snap order index => exact StateMachine.restore_get order s index k

theorem exec_foreign (c : Call) (ok : Bool) (s : StateMachine) (hkey : ¬dataPrefix <+: key) :
    (c.exec ok s).engine.get key = s.engine.get key := by
  have hne (k : Bytes) : dataKey k ≠ key := fun heq => hkey (heq ▸ dataPrefix_dataKey k)
  cases ok with
  | false => cases c <;> rfl
  | true =>
    cases c with
    | applyPut index k value => exact (Engine.write_set_get ..).trans (if_neg (hne k))
    | applyDelete index k => exact (Engine.write_delete_get ..).trans (if_neg (hne k))
    | applyNoop | dump => rfl
    | restore snap order index => exact StateMachine.restore_foreign order s index hkey

end Call

/-- The state machine after calls that succeed or fail. -/
def StateMachine.run (s : StateMachine) (calls : List (Call × Bool)) : StateMachine :=
  calls.foldl (fun s c => c.1.exec c.2 s) s

def Contents.after (m : Contents) (calls : List (Call × Bool)) : Contents :=
  calls.foldl (fun m c => if c.2 then c.1.act m else m) m

namespace StateMachine

theorem run_get (s : StateMachine) (calls : List (Call × Bool)) :
    (s.run calls).get = Contents.after s.get calls := by
  induction calls generalizing s with
  | nil => rfl
  | cons c calls ih =>
    refine (ih (c.1.exec c.2 s)).trans ?_
    rw [c.1.exec_get]
    rfl

theorem run_foreign (s : StateMachine) (calls : List (Call × Bool)) (hkey : ¬dataPrefix <+: key) :
    (s.run calls).engine.get key = s.engine.get key := by
  induction calls generalizing s with
  | nil => rfl
  | cons c calls ih => exact (ih (c.1.exec c.2 s)).trans (c.1.exec_foreign c.2 s hkey)

end StateMachine

/-- **The state machine refines a map**, on an engine with any content. -/
theorem state_machine_refines (e : Engine) (calls : List (Call × Bool)) :
    let s := (newStateMachine e).run calls
    let m := Contents.after (fun k => e.get (dataKey k)) calls
    (∀ k, s.get k = m k) ∧
    (∀ k, s.dump.pairs[k]? = m k) ∧
    (∀ s' order index k, (StateMachine.restore true s' s.dump order index).1.get k = m k) ∧
    (∀ snap order index, (s.restore false snap order index).1 = s) ∧
    ∀ key, ¬dataPrefix <+: key → s.engine.get key = e.get key := by
  intro s m
  have hget (k : Bytes) : s.get k = m k := congrFun ((newStateMachine e).run_get calls) k
  have hdump (k : Bytes) : s.dump.pairs[k]? = m k := (s.dump_pairs k).trans (hget k)
  refine ⟨hget, hdump, fun s' order index k => ?_, fun _ _ _ => rfl, fun key hkey => ?_⟩
  · exact (StateMachine.restore_get order s' index k).trans (hdump k)
  · exact (newStateMachine e).run_foreign calls hkey

/-! ## The map of a Raft node -/

def utf8 (key : String) : Bytes := key.toByteArray.data.toList

theorem utf8_inj {k k' : String} : utf8 k = utf8 k' ↔ k = k' := by
  refine ⟨fun h => String.toByteArray_inj.mp (ByteArray.ext (Array.toList_inj.mp h)), congrArg _⟩

/-- The state machine holds what the node takes it to hold. -/
def Holds (s : StateMachine) (sm : String → Option Raft.Value) : Prop := ∀ k, s.get (utf8 k) = sm k

/-- The call that `applyCommitted` makes for an entry. -/
def callFor (e : Raft.Entry) : Call :=
  match e.type with
  | .put => .applyPut e.index (utf8 e.key) e.value
  | .delete => .applyDelete e.index (utf8 e.key)
  | .noop => .applyNoop e.index

namespace Holds

variable {s : StateMachine} {sm : String → Option Raft.Value}

theorem applyEntry (h : Holds s sm) (e : Raft.Entry) :
    Holds ((callFor e).exec true s) (Raft.Node.applyEntry sm e) := by
  intro k
  rw [Call.exec_get, if_pos rfl]
  unfold callFor Raft.Node.applyEntry
  cases e.type <;> simp [Call.act, Function.update_apply, utf8_inj, h k]

theorem dump (h : Holds s sm) (k : String) : s.dump.pairs[utf8 k]? = sm k :=
  (s.dump_pairs _).trans (h k)

theorem restore {snap : Snapshot} (hsnap : ∀ k, snap.pairs[utf8 k]? = sm k) (s : StateMachine)
    (order : snap.Order) (index : ℕ) : Holds (s.restore true snap order index).1 sm :=
  fun k => (StateMachine.restore_get order s index _).trans (hsnap k)

end Holds

end KV

end DistributedKV
