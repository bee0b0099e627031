import FileSync.Model.Store
/-!
# The client's sync engine

Pull hub changes into the local store with a durable checkpoint, push
locally recorded changes back up. Every store operation and every request
to a hub is a call; between two calls anything else that uses the stores
may run.
-/

namespace FileSync

inductive HubError
  | transport (message : String)
  | api (status : ℕ) (body : String)
  | decode (message : String)
deriving DecidableEq, Repr

inductive SyncError
  | store (error : StoreError)
  | hub (error : HubError)
  /-- An `unwrap` on `None` or `Err`. No arm of the source sees it. -/
  | panic
deriving DecidableEq, Repr

/-- What the engine does to its stores, its hubs and its notifier. -/
inductive EngineReq : Type → Type
  | metaGet (key : String) : EngineReq (Except StoreError (Option Blob))
  | metaPut (key : String) (value : Blob) : EngineReq (Except StoreError Unit)
  | metaDelete (key : String) : EngineReq (Except StoreError Unit)
  | metaListKeys (pre : String) : EngineReq (Except StoreError (List String))
  | fileGet (path : Path) : EngineReq (Except StoreError (Option Bytes))
  | filePut (path : Path) (data : Bytes) (mtime : ℤ) : EngineReq (Except StoreError Unit)
  | fileDelete (path : Path) : EngineReq (Except StoreError Unit)
  | hubChanges (hub : HubId) (since : Option Checkpoint) :
      EngineReq (Except HubError ChangesResponse)
  | hubGetFile (hub : HubId) (path : Path) : EngineReq (Except HubError (Option FileContent))
  | hubPush (hub : HubId) (changes : List PushChange) :
      EngineReq (Except HubError (List PushResult))
  | notifyError (error : SyncError) : EngineReq Unit

structure PullReport where
  hub : HubId
  pulled : ℕ
  deleted : ℕ
  localConflicts : List Path
  checkpoint : Option Checkpoint
deriving DecidableEq, Repr

structure PushReport where
  hub : HubId
  pushed : ℕ
deriving DecidableEq, Repr

structure SyncReport where
  pull : PullReport
  push : PushReport
deriving DecidableEq, Repr

abbrev Engine (α : Type) := Fallible EngineReq SyncError α

structure SyncEngine where
  hubs : List HubId
  notifier : Bool

namespace SyncEngine

def store {α : Type} (e : EngineReq (Except StoreError α)) : Engine α := .ask .store e

def ask {α : Type} (e : EngineReq (Except HubError α)) : Engine α := .ask .hub e

variable (eng : SyncEngine)

/-- Hand an error to the notifier, and fail with it. -/
def notify {α : Type} (error : SyncError) : Engine α :=
  .mk <| if eng.notifier && error ≠ .panic
    then .call (.notifyError error) fun _ => .done (.error error)
    else .done (.error error)

/-- Run a program and report its failure. -/
def report {α : Type} (x : Engine α) : Engine α := do
  match ← Fallible.attempt x with
  | .ok a => return a
  | .error e => eng.notify e

def noHubs : SyncError := .hub (.api 0 "no hubs configured")

/-- Try the hubs in order. A store failure is fatal to every hub and ends
the search. -/
def failover {α : Type} (attempt : HubId → Engine α) : List HubId → Option SyncError → Engine α
  | [], last => eng.notify (last.getD noHubs)
  | hub :: hubs, _ => do
    match ← Fallible.attempt (attempt hub) with
    | .ok a => return a
    | .error (.store e) => eng.notify (.store e)
    | .error .panic => throw .panic
    | .error e => failover attempt hubs (some e)

/-! ## The queue -/

def loadPending : Engine (List PendingChange) := do
  match ← store (.metaGet keyPending) with
  | none => return []
  | some bytes => return bytes.toQueue?.getD []

def pendingContains (path : Path) : Engine Bool := do
  return (← loadPending).any fun p => p.path = path

/-- A queue with a change in place of any other one for its path. -/
def enqueue (pending : List PendingChange) (change : PendingChange) : List PendingChange :=
  pending.filter (fun p => p.path ≠ change.path) ++ [change]

def upsertPending (change : PendingChange) : Engine Unit := do
  let pending ← loadPending
  store (.metaPut keyPending (.queue (enqueue pending change)))

/-- Adopt the revision the hub answered as the base of the next edit. -/
def bumpRev (path : Path) (rev : Option Rev) : Engine Unit := do
  match ← store (.metaGet (fileKey path)) with
  | none => return ()
  | some bytes =>
    match bytes.toFileMeta? with
    | none => throw .panic
    | some stored => store (.metaPut (fileKey path) (.fileMeta { stored with rev := rev }))

/-! ## Pulling -/

def missingFile (path : Path) : SyncError :=
  .hub (.decode s!"change listed {path} but file fetch returned 404")

/-- Apply one remote change, unless an unpushed local one would be lost. -/
def applyRemote (hub : HubId) (entry : ChangeEntry) (rep : PullReport) : Engine PullReport := do
  if ← pendingContains entry.path then
    return { rep with localConflicts := rep.localConflicts ++ [entry.path] }
  if entry.deleted then
    store (.fileDelete entry.path)
    store (.metaDelete (fileKey entry.path))
    return { rep with deleted := rep.deleted + 1 }
  match ← ask (.hubGetFile hub entry.path) with
  | none => throw (missingFile entry.path)
  | some file =>
    store (.filePut entry.path file.content file.mtime)
    store (.metaPut (fileKey entry.path) (.fileMeta ⟨file.rev, file.mtime, file.contentType⟩))
    return { rep with pulled := rep.pulled + 1 }

def applyAll (hub : HubId) : List ChangeEntry → PullReport → Engine PullReport
  | [], rep => pure rep
  | entry :: entries, rep => do applyAll hub entries (← applyRemote hub entry rep)

def pullFrom (hub : HubId) : Engine PullReport := do
  let since := (← store (.metaGet (checkpointKey hub))).bind Blob.toCheckpoint?
  let resp ← ask (.hubChanges hub since)
  let rep ← applyAll hub resp.changes ⟨hub, 0, 0, [], some resp.checkpoint⟩
  -- only once the batch is durable
  store (.metaPut (checkpointKey hub) (.checkpoint resp.checkpoint))
  return rep

def pull : Engine PullReport := eng.failover pullFrom eng.hubs none

/-! ## Pushing -/

/-- What a queued change is sent as. -/
def buildPushChange (p : PendingChange) : Engine PushChange := do
  if p.deleted then
    return ⟨p.path, true, p.baseRev, p.mtime, none, none⟩
  let content := (← store (.fileGet p.path)).getD []
  let stored := (← store (.metaGet (fileKey p.path))).bind Blob.toFileMeta?
  let contentType := (((stored.map FileMeta.contentType).filter (· ≠ "")).or p.contentType).getD
    octetStream
  return ⟨p.path, false, p.baseRev, p.mtime, some contentType, some (.encode content)⟩

def buildPushChanges : List PendingChange → Engine (List PushChange)
  | [] => pure []
  | p :: ps => do
    let change ← buildPushChange p
    return change :: (← buildPushChanges ps)

/-- Go through the changes that were sent and their answers. A delete has
nothing to record. -/
def bumpRevs : List (PendingChange × PushResult) → ℕ → Engine ℕ
  | [], pushed => pure pushed
  | (change, result) :: rest, pushed => do
    if !change.deleted then bumpRev change.path result.rev
    bumpRevs rest (pushed + 1)

def pushTo (pending : List PendingChange) (changes : List PushChange) (hub : HubId) :
    Engine PushReport := do
  let results ← ask (.hubPush hub changes)
  let pushed ← bumpRevs (pending.zip results) 0
  -- fewer results than sent is a protocol violation: keep everything queued
  if results.length = changes.length then store (.metaPut keyPending (.queue []))
  return ⟨hub, pushed⟩

def push : Engine PushReport := do
  let pending ← eng.report loadPending
  if pending.isEmpty then return ⟨"", 0⟩
  let changes ← eng.report (buildPushChanges pending)
  eng.failover (pushTo pending changes) eng.hubs none

/-- Push then pull: what a push made the hub merge is only known after
it. -/
def sync : Engine SyncReport := do
  let push ← eng.push
  let pull ← eng.pull
  return ⟨pull, push⟩

/-! ## Recording local changes -/

/-- The revision the next push of a path is based on. -/
def knownRev (path : Path) : Engine (Option Rev) := do
  return ((← store (.metaGet (fileKey path))).bind Blob.toFileMeta?).bind FileMeta.rev

def recordUpsertInner (path : Path) (mtime : ℤ) (contentType : String) (content : Bytes) :
    Engine Unit := do
  let baseRev ← knownRev path
  store (.filePut path content mtime)
  store (.metaPut (fileKey path) (.fileMeta ⟨baseRev, mtime, contentType⟩))
  upsertPending ⟨path, false, baseRev, mtime, some contentType⟩

def recordUpsert (path : Path) (mtime : ℤ) (contentType : String) (content : Bytes) :
    Engine Unit :=
  eng.report (recordUpsertInner path mtime contentType content)

def recordDeleteInner (path : Path) (mtime : ℤ) : Engine Unit := do
  let baseRev ← knownRev path
  store (.fileDelete path)
  store (.metaDelete (fileKey path))
  upsertPending ⟨path, true, baseRev, mtime, none⟩

def recordDelete (path : Path) (mtime : ℤ) : Engine Unit :=
  eng.report (recordDeleteInner path mtime)

/-! ## Reading -/

def readFileMeta (path : Path) : Engine (Option FileMeta) := do
  return (← store (.metaGet (fileKey path))).bind Blob.toFileMeta?

/-- `strip_prefix("file/")`. -/
def stripFile (key : String) : Option Path :=
  if startsWith "file/" key then some (String.ofList (key.toList.drop 5)) else none

/-- Every path with stored metadata. -/
def listFilePaths : Engine (List Path) := do
  return (← store (.metaListKeys "file/")).filterMap stripFile

end SyncEngine

/-! ## The engine on the in-memory store -/

/-- What the hubs answer, whichever of the three is asked for. -/
structure HubAnswers where
  changes : Except HubError ChangesResponse
  file : Except HubError (Option FileContent)
  push : Except HubError (List PushResult)

/-- A hub that is not there. -/
def HubAnswers.unreachable : HubAnswers :=
  ⟨.error (.transport ""), .error (.transport ""), .error (.transport "")⟩

/-- No store operation fails; the hubs answer as they like. -/
def MemStore.exec ⦃β : Type⦄ : EngineReq β → HubAnswers → MemStore → β × MemStore
  | .metaGet key, _, s => (.ok (s.blobs.lookup key), s)
  | .metaPut key value, _, s => (.ok (), { s with blobs := s.blobs.insert key value })
  | .metaDelete key, _, s => (.ok (), { s with blobs := s.blobs.erase key })
  | .metaListKeys pre, _, s => (.ok (s.blobs.keys.filter (startsWith pre)), s)
  | .fileGet path, _, s => (.ok (s.files.lookup path), s)
  | .filePut path data _, _, s => (.ok (), { s with files := s.files.insert path data })
  | .fileDelete path, _, s => (.ok (), { s with files := s.files.erase path })
  | .hubChanges _ _, o, s => (o.changes, s)
  | .hubGetFile _ _, o, s => (o.file, s)
  | .hubPush _ _, o, s => (o.push, s)
  | .notifyError _, _, s => ((), s)

end FileSync
