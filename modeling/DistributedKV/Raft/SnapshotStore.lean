import DistributedKV.Raft.Node
import DistributedKV.Theory.Interleave

/-!
# The snapshot store

`SnapshotStore` of `internal/raft/snapshot.go` at two levels. `Files` is the snapshot directory,
and `saver` runs `Save` on it one system call at a time; each call may fail, and a crash leaves the
files as they are between two calls. Nothing but `Save` and `LoadLatest` looks at the directory, and
both hold the store's mutex, so the rest of the node sees of a `Save` only what it leaves for
`LoadLatest` and for the next `Save`. `SaveOutcome` lists these ends of a `Save`, on the content of
the store as `Node` has it: the pair that `LoadLatest` returns, or the meta file that is left when
`LoadLatest` fails because the data file is gone.

A file is given by what it decodes to. A file that is opened for writing is not decodable before it
has been written.
-/

namespace DistributedKV.Raft

open Theory (Program)

/-- The content of a meta file, by what it decodes to. -/
inductive MetaData where
  | encoded (info : SnapshotMeta)
  | malformed

/-- The snapshot directory: `snapshot.data`, `snapshot.meta.json` and the two `.tmp` files. -/
structure Files where
  data : Option SnapshotData := none
  info : Option MetaData := none
  tmpData : Option SnapshotData := none
  tmpMeta : Option MetaData := none

inductive LoadError where
  | metaMalformed
  | dataMissing
  | dataMalformed
  deriving DecidableEq

/-- `LoadLatest`; a file that exists can be read. -/
def Files.loadLatest (fs : Files) : Except LoadError (Option (Snapshot × SnapshotMeta)) :=
  match fs.info with
  | none => .ok none
  | some .malformed => .error .metaMalformed
  | some (.encoded info) =>
    match fs.data with
    | none => .error .dataMissing
    | some data =>
      match unmarshalSnapshot data with
      | none => .error .dataMalformed
      | some snap => .ok (some (snap, info))

/-! ## Saving -/

/-- The two files that `Save` replaces, in this order. -/
inductive Target where
  | data
  | info
  deriving DecidableEq

/-- The system calls that replace a file: `writeFileSync` on its `.tmp` file, then `replaceFile`
with its fallback. -/
inductive SysCall where
  | openFile
  | write
  | sync
  | close
  | rename
  | remove
  | renameAgain
  deriving DecidableEq

/-- Which call of `Save` comes next, or failed last. -/
structure SavePoint where
  target : Target
  call : SysCall
  deriving DecidableEq

/-- A `Save` in progress. -/
structure Saving where
  snap : Snapshot
  info : SnapshotMeta
  point : SavePoint

namespace Files

/-- Give a `.tmp` file the content `Save` writes to it, or one that cannot be decoded. -/
def writeTmp (fs : Files) (sv : Saving) (complete : Bool) : Files :=
  match sv.point.target with
  | .data => { fs with tmpData := some (if complete then sv.snap.marshal else .malformed) }
  | .info => { fs with tmpMeta := some (if complete then .encoded sv.info else .malformed) }

def rename (fs : Files) : Target → Files
  | .data => { fs with data := fs.tmpData, tmpData := none }
  | .info => { fs with info := fs.tmpMeta, tmpMeta := none }

def remove (fs : Files) : Target → Files
  | .data => { fs with data := none }
  | .info => { fs with info := none }

end Files

namespace Saving

/-- After the `.tmp` file has been renamed. -/
def renamed (sv : Saving) : Saving ⊕ Except SavePoint Unit :=
  match sv.point.target with
  | .data => .inl { sv with point := ⟨.info, .openFile⟩ }
  | .info => .inr (.ok ())

/-- One system call. `ok` says whether it succeeds; a `Remove` of a file that does not exist counts
as a success. -/
def exec (fs : Files) (sv : Saving) (ok : Bool) : Files × (Saving ⊕ Except SavePoint Unit) :=
  let goOn (call : SysCall) : Saving ⊕ Except SavePoint Unit :=
    .inl { sv with point := ⟨sv.point.target, call⟩ }
  let failed : Saving ⊕ Except SavePoint Unit := .inr (.error sv.point)
  match sv.point.call, ok with
  | .openFile, true => (fs.writeTmp sv false, goOn .write)
  | .write, true => (fs.writeTmp sv true, goOn .sync)
  | .sync, true => (fs, goOn .close)
  | .close, true => (fs, goOn .rename)
  | .rename, true => (fs.rename sv.point.target, sv.renamed)
  | .rename, false => (fs, goOn .remove)
  | .remove, true => (fs.remove sv.point.target, goOn .renameAgain)
  | .renameAgain, true => (fs.rename sv.point.target, sv.renamed)
  | _, false => (fs, failed)

/-- `Save`, from its first system call. -/
def start (snap : Snapshot) (info : SnapshotMeta) : Saving := ⟨snap, info, ⟨.data, .openFile⟩⟩

end Saving

def saver : Program Files Saving Bool (Except SavePoint Unit) Unit where
  exec := Saving.exec
  recover fs _ := some fs

/-! ## What the node sees of a `Save` -/

/-- How far a `Save` got, as `LoadLatest` can tell. -/
inductive SaveOutcome where
  /-- Neither file has been replaced. -/
  | before
  /-- The fallback of `replaceFile` has removed the data file and not put the new one in its
  place. -/
  | dataRemoved
  /-- The data file has been replaced, the meta file has not. -/
  | dataOnly
  /-- The fallback of `replaceFile` has removed the meta file and not put the new one in its
  place. -/
  | metaRemoved
  | done
  deriving DecidableEq

/-- The meta file of a store that loads `prev`, or has lost the data file of `orphan`. -/
def metaFile (prev : Option (Snapshot × SnapshotMeta)) (orphan : Option SnapshotMeta) :
    Option SnapshotMeta :=
  (prev.map Prod.snd).or orphan

namespace SaveOutcome

/-- What the store loads after a `Save`. -/
def store (o : SaveOutcome) (prev : Option (Snapshot × SnapshotMeta))
    (orphan : Option SnapshotMeta) (snap : Snapshot) (info : SnapshotMeta) :
    Option (Snapshot × SnapshotMeta) :=
  match o with
  | .before => prev
  | .dataRemoved => none
  | .dataOnly => (metaFile prev orphan).map fun info₀ => (snap, info₀)
  | .metaRemoved => none
  | .done => some (snap, info)

/-- The meta file that a `Save` leaves without its data file. -/
def orphan (o : SaveOutcome) (prev : Option (Snapshot × SnapshotMeta))
    (orphan : Option SnapshotMeta) : Option SnapshotMeta :=
  match o with
  | .before => orphan
  | .dataRemoved => metaFile prev orphan
  | .dataOnly | .metaRemoved | .done => none

end SaveOutcome

end DistributedKV.Raft
