import FileSync.Model.FileStore
import FileSync.Model.MetaDir
import FileSync.Model.Opfs
/-!
# The desktop client's stores together

The metadata directory is private to the client and is not in the synced one.
Both are written by way of temporary files, which are numbered together.
-/

namespace FileSync

structure DiskStores where
  keys : FsMetaStore
  disk : Disk

namespace DiskStores

/-- Two empty directories. -/
def opened (pid : ℕ) : DiskStores := ⟨.opened pid, .empty⟩

/-- A put that gets as far as naming its temporary file. -/
def takesNumber (s : DiskStores) (path : Path) : Bool :=
  match FsFileStore.pathFor path with
  | .error _ => false
  | .ok l => decide (l.place = []) || (s.disk.createParents l.place).1.isOk

/-- The engine's calls on them, `clock` being the time each number is taken at;
the hubs answer as they like. -/
def exec (E : UrlEncoding) (clock : ℕ → ℤ) ⦃β : Type⦄ :
    EngineReq β → HubAnswers → DiskStores → β × DiskStores
  | .metaGet key, _, s => (s.keys.get E key, s)
  | .metaPut key value, _, s =>
    let r := s.keys.put E key value
    (r.1, { s with keys := r.2 })
  | .metaDelete key, _, s =>
    let r := s.keys.delete E key
    (r.1, { s with keys := r.2 })
  | .metaListKeys start, _, s => (s.keys.listKeys E start, s)
  | .fileGet path, _, s => (FsFileStore.get s.disk path, s)
  | .filePut path data mtime, _, s =>
    let r := FsFileStore.putVia ⟨s.keys.pid, s.keys.counter, clock s.keys.counter⟩ s.disk path
      data mtime
    -- one that fails before has no temporary file to name
    let taken := if s.takesNumber path then 1 else 0
    (r.1, ⟨{ s.keys with counter := s.keys.counter + taken }, r.2⟩)
  | .fileDelete path, _, s =>
    let r := FsFileStore.delete s.disk path
    (r.1, { s with disk := r.2 })
  | .hubChanges _ _, o, s => (o.changes, s)
  | .hubGetFile _ _, o, s => (o.file, s)
  | .hubPush _ _, o, s => (o.push, s)
  | .notifyError _, _, s => ((), s)

end DiskStores

/-! ## The engine's methods -/

/-- A method of the engine; the listing of paths is the pass's own. -/
inductive EngineCall
  | sync
  | pull
  | push
  | recordUpsert (path : Path) (mtime : ℤ) (contentType : String) (content : Bytes)
  | recordDelete (path : Path) (mtime : ℤ)
  | readFile (path : Path)
  | readFileMeta (path : Path)
  | checkpoint (hub : HubId)
  | pending
deriving DecidableEq, Repr

inductive EngineAnswer
  | synced (report : SyncReport)
  | pulled (report : PullReport)
  | pushed (report : PushReport)
  | recorded
  | content (data : Option Bytes)
  | fileMeta (m : Option FileMeta)
  | token (checkpoint : Option Checkpoint)
  | queued (pending : List PendingChange)
deriving DecidableEq, Repr

namespace EngineCall

/-- The path it names. -/
def path? : EngineCall → Option Path
  | recordUpsert path _ _ _ => some path
  | recordDelete path _ => some path
  | readFile path => some path
  | readFileMeta path => some path
  | _ => none

def prog (eng : SyncEngine) : EngineCall → Engine EngineAnswer
  | sync => return .synced (← eng.sync)
  | pull => return .pulled (← eng.pull)
  | push => return .pushed (← eng.push)
  | recordUpsert path mtime contentType content => do
    eng.recordUpsert path mtime contentType content
    return .recorded
  | recordDelete path mtime => do
    eng.recordDelete path mtime
    return .recorded
  | readFile path => return .content (← SyncEngine.readFile path)
  | readFileMeta path => return .fileMeta (← SyncEngine.readFileMeta path)
  | checkpoint hub => return .token (← SyncEngine.checkpoint hub)
  | pending => return .queued (← SyncEngine.loadPending)

/-- What a put that has been begun leaves. -/
inductive Begun
  | nothing
  /-- A temporary file among the metadata. -/
  | blob (value : Blob)
  /-- Some of the directories a file is in, from the root on. -/
  | parents (path : Path) (depth : ℕ)
  /-- A temporary file beside a file. -/
  | file (path : Path) (content : Bytes) (mtime : ℤ)
deriving DecidableEq

/-- Where a process is killed: after so many operations of a call, with a
put perhaps begun; and the next process. -/
structure Kill where
  operations : ℕ
  begun : Begun
  pid : ℕ
deriving DecidableEq

/-- **Calls one after another**, each run to its end or killed. -/
def run {σ : Type} (exec : ∀ ⦃β : Type⦄, EngineReq β → HubAnswers → σ → β × σ)
    (killed : Kill → σ → σ) (eng : SyncEngine) :
    List (EngineCall × Option Kill) → σ × Stream' HubAnswers →
      List (Option (Except SyncError EngineAnswer))
  | [], _ => []
  | (call, none) :: calls, s =>
    let r := (call.prog eng).exec (online exec) s
    some r.1 :: run exec killed eng calls r.2
  | (call, some k) :: calls, s =>
    let r := (call.prog eng).run.after (online exec) k.operations s
    r.1.result? :: run exec killed eng calls (killed k r.2.1, r.2.2)

end EngineCall

namespace EngineCall.Begun

def blob? : Begun → Option Blob
  | blob value => some value
  | _ => none

/-- The path whose file is being put. -/
def path? : Begun → Option Path
  | parents path _ | file path _ _ => some path
  | _ => none

/-- What is left of a file's put, `tmp` being the name of its temporary file. -/
def inTree (tmp : String) (d : Disk) : Begun → Disk
  | parents path depth =>
    match FsFileStore.pathFor path with
    | .ok l => (d.createParents (l.place.take depth)).2
    | .error _ => d
  | file path content mtime =>
    match FsFileStore.pathFor path with
    | .ok l => d.putBegun tmp l.place content mtime
    | .error _ => d
  | _ => d

end EngineCall.Begun

/-- What a killed process leaves is what has been begun of one put. -/
def DiskStores.killed (k : EngineCall.Kill) (s : DiskStores) : DiskStores :=
  ⟨s.keys.killed k.begun.blob? k.pid,
    k.begun.inTree (FsFileStore.tmpName s.keys.pid s.keys.counter) s.disk⟩

end FileSync
