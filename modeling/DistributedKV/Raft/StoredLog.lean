import DistributedKV.KV.StateMachine
import DistributedKV.Raft.Log
import DistributedKV.Theory.BigEndian

/-!
# The persistent log on its disk

`PersistentLog` of `internal/raft/log.go` down to the bytes: the keys and values that it keeps in
its engine, the batches that it commits and which of them it waits for. Numbers are `uint64` in Go;
they are written as eight bytes, with what does not fit cut off.

`AppendEntries` is told whether to sync (`Options.FsyncOnAppend`), the other mutators always do. As
in the typed log, `ok` is the outcome of `Batch.Commit` and the Boolean result says whether the Go
method returns a nil error.
-/

namespace DistributedKV.Raft

open Storage Theory

/-! ## Keys and values -/

/-- `[]byte(s)` -/
def bytesOf (s : String) : Bytes := s.toByteArray.data.toList

def logPrefix : Bytes := bytesOf "l/"

def keyTerm : Bytes := bytesOf "m/currentTerm"

def keyVotedFor : Bytes := bytesOf "m/votedFor"

def keyLastIncludedIndex : Bytes := bytesOf "m/lastIncludedIndex"

def keyLastIncludedTerm : Bytes := bytesOf "m/lastIncludedTerm"

/-- `binary.BigEndian.PutUint64` into a new slice. -/
def putUint64 (n : ℕ) : Bytes := BigEndian.put 8 n

/-- `binary.BigEndian.Uint64`, which panics on fewer than eight bytes and reads no further ones. -/
def uint64 (v : Bytes) : Option ℕ := if v.length < 8 then none else some (BigEndian.get (v.take 8))

def logKey (index : ℕ) : Bytes := logPrefix ++ putUint64 index

def indexFromLogKey (k : Bytes) : Option ℕ := uint64 (k.drop logPrefix.length)

/-- The numbers of the entry are `uint64`. -/
def Entry.Fits (e : Entry) : Prop := e.index < 2 ^ 64 ∧ e.term < 2 ^ 64

/-- `encoding/gob` on entries, of which only this is used: an entry that has been encoded can be
decoded. -/
structure EntryCodec where
  encode : Entry → Bytes
  decode : Bytes → Option Entry
  decode_encode : ∀ {e : Entry}, e.Fits → decode (encode e) = some e

/-! ## The log -/

/-- `PersistentLog`. The vote is a Go string, which is a string of bytes. -/
structure StoredLog where
  engine : Disk
  firstIndex : ℕ
  lastIndex : ℕ
  lastIncludedIndex : ℕ
  lastIncludedTerm : ℕ
  currentTerm : ℕ
  votedFor : Bytes
  tailCache : List Entry

/-- A number of the metadata; zero if there is none. -/
def metaUint64 (engine : Disk) (key : Bytes) : Option ℕ :=
  match engine.get key with
  | some v => uint64 v
  | none => some 0

/-- `OpenPersistentLog`, `none` where it panics. Its `prefixUpperBound` is the one of the state
machine. -/
def openStoredLog (engine : Disk) : Option StoredLog := do
  let currentTerm ← metaUint64 engine keyTerm
  let votedFor := (engine.get keyVotedFor).getD []
  let lastIncludedIndex ← metaUint64 engine keyLastIncludedIndex
  let lastIncludedTerm ← metaUint64 engine keyLastIncludedTerm
  let keys := engine.newIterator logPrefix (KV.prefixUpperBound logPrefix)
  let indices ← keys.mapM fun kv => indexFromLogKey kv.1
  return {
    engine
    firstIndex := lastIncludedIndex + 1
    lastIndex := indices.foldl max lastIncludedIndex
    lastIncludedIndex
    lastIncludedTerm
    currentTerm
    votedFor
    tailCache := [] }

inductive StoreError where
  | log (e : LogError)
  /-- The error of the decoder. -/
  | decode
  deriving DecidableEq

namespace StoredLog

variable (codec : EntryCodec)

/-! ### Accessors -/

def getLocked (sl : StoredLog) (index : ℕ) : Except StoreError Entry :=
  if index ≤ sl.lastIncludedIndex then .error (.log (.compacted index sl.lastIncludedIndex))
  else match sl.engine.get (logKey index) with
    | none => .error (.log .notFound)
    | some v => match codec.decode v with
      | some e => .ok e
      | none => .error .decode

def get (sl : StoredLog) (index : ℕ) : Except StoreError Entry :=
  match lookup sl.tailCache index with
  | some e => .ok e
  | none => sl.getLocked codec index

def lastTerm (sl : StoredLog) : ℕ :=
  if sl.lastIndex = sl.lastIncludedIndex then sl.lastIncludedTerm
  else match sl.get codec sl.lastIndex with
    | .ok e => e.term
    | .error _ => 0

def termAt (sl : StoredLog) (index : ℕ) : Option ℕ :=
  if index = sl.lastIncludedIndex then some sl.lastIncludedTerm
  else if index < sl.firstIndex ∨ sl.lastIndex < index then none
  else match sl.get codec index with
    | .ok e => some e.term
    | .error _ => none

def range (sl : StoredLog) (lo hi : ℕ) : Except StoreError (List Entry) :=
  (List.range' lo (hi + 1 - lo)).mapM (sl.get codec)

/-! ### Mutators -/

/-- Delete the keys of the indices `lo`, ..., `hi`. -/
def deletes (lo hi : ℕ) : Batch :=
  (List.range' lo (hi + 1 - lo)).map fun i => .delete (logKey i)

/-- The snapshot boundary. -/
def boundary (index term : ℕ) : Batch :=
  [.set keyLastIncludedIndex (putUint64 index), .set keyLastIncludedTerm (putUint64 term)]

def setTermAndVote (ok : Bool) (sl : StoredLog) (term : ℕ) (votedFor : Bytes) : StoredLog × Bool :=
  let (engine, ok) := sl.engine.commit ok true
    [.set keyTerm (putUint64 term), .set keyVotedFor votedFor]
  if ok then ({ sl with engine, currentTerm := term, votedFor }, true)
  else ({ sl with engine }, false)

def appendEntries (ok sync : Bool) (sl : StoredLog) : List Entry → StoredLog × Bool
  | [] => (sl, true)
  | first :: rest =>
    let entries := first :: rest
    let cache := deleteRange first.index sl.lastIndex sl.tailCache
    let (engine, ok) := sl.engine.commit ok sync
      (deletes first.index sl.lastIndex ++
        entries.map fun e => .set (logKey e.index) (codec.encode e))
    if ok then
      let firstIndex :=
        if sl.lastIncludedIndex + 1 < sl.firstIndex then sl.lastIncludedIndex + 1
        else sl.firstIndex
      ({ sl with
          engine
          tailCache := PersistentLog.evictTailCache sl.lastIndex (entries.foldl insertEntry cache)
          lastIndex := (rest.getLastD first).index
          firstIndex := if firstIndex = 0 then first.index else firstIndex }, true)
    else ({ sl with engine, tailCache := cache }, false)

def truncateSuffix (ok : Bool) (sl : StoredLog) (start : ℕ) : StoredLog × Bool :=
  if sl.lastIndex < start then (sl, true)
  else
    let cache := deleteRange start sl.lastIndex sl.tailCache
    let (engine, ok) := sl.engine.commit ok true (deletes start sl.lastIndex)
    if ok then
      ({ sl with
          engine
          tailCache := cache
          lastIndex := if start = sl.firstIndex then sl.lastIncludedIndex else start - 1 }, true)
    else ({ sl with engine, tailCache := cache }, false)

def compactPrefix (ok : Bool) (sl : StoredLog) (index term : ℕ) : StoredLog × Bool :=
  if index ≤ sl.lastIncludedIndex then (sl, true)
  else
    let stop := min index sl.lastIndex
    let cache := deleteRange sl.firstIndex stop sl.tailCache
    let (engine, ok) := sl.engine.commit ok true
      (deletes sl.firstIndex stop ++ boundary index term)
    if ok then
      ({ sl with
          engine
          tailCache := cache
          lastIncludedIndex := index
          lastIncludedTerm := term
          firstIndex := index + 1
          lastIndex := max sl.lastIndex index }, true)
    else ({ sl with engine, tailCache := cache }, false)

def restoreSnapshotBoundary (ok : Bool) (sl : StoredLog) (index term : ℕ) : StoredLog × Bool :=
  let (engine, ok) := sl.engine.commit ok true
    (deletes sl.firstIndex sl.lastIndex ++ boundary index term)
  if ok then
    ({ sl with
        engine
        tailCache := []
        lastIncludedIndex := index
        lastIncludedTerm := term
        firstIndex := index + 1
        lastIndex := index }, true)
  else ({ sl with engine, tailCache := [] }, false)

end StoredLog

end DistributedKV.Raft
