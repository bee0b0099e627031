import FileSync.Model.Protocol
import FileSync.Common.Program
/-!
# The client's stores

Small bookkeeping blobs under string keys, and file bytes under paths. A
blob is named by what was serialised into it; reading it as anything else
fails the way parsing does, and `garbage` stands for bytes that parse as
nothing.
-/

namespace FileSync

/-- Local per-file metadata: the revision to use as `base_rev` on the next
push, `none` for the empty string, and what to push the file back with. -/
structure FileMeta where
  rev : Option Rev
  mtime : ℤ
  contentType : String
deriving DecidableEq, Repr

/-- A queued local change; content is read from the file store at push
time. -/
structure PendingChange where
  path : Path
  deleted : Bool
  baseRev : Option Rev
  mtime : ℤ
  contentType : Option String
deriving DecidableEq, Repr

/-- The bytes of a bookkeeping entry. -/
inductive Blob
  | queue (pending : List PendingChange)
  | fileMeta (m : FileMeta)
  | checkpoint (token : Checkpoint)
  | garbage (bytes : Bytes)
deriving DecidableEq, Repr

namespace Blob

def toQueue? : Blob → Option (List PendingChange)
  | queue pending => some pending
  | _ => none

def toFileMeta? : Blob → Option FileMeta
  | fileMeta m => some m
  | _ => none

def toCheckpoint? : Blob → Option Checkpoint
  | checkpoint token => some token
  | _ => none

end Blob

inductive StoreError
  | io (message : String)
deriving DecidableEq, Repr

def keyPending : String := "pending"

def fileKey (path : Path) : String := "file/" ++ path

def checkpointKey (hub : HubId) : String := "checkpoint/" ++ hub

@[simp] theorem fileKey_inj {p q : Path} : fileKey p = fileKey q ↔ p = q := by
  simp [fileKey]

@[simp] theorem checkpointKey_inj {h k : HubId} : checkpointKey h = checkpointKey k ↔ h = k := by
  simp [checkpointKey]

/-- The first letter tells the three kinds of key apart. -/
theorem ne_of_head {s t : String} (h : s.toList.head? ≠ t.toList.head?) : s ≠ t :=
  fun hst => h (congrArg _ (congrArg _ hst))

@[simp] theorem fileKey_ne_pending (p : Path) : fileKey p ≠ keyPending :=
  ne_of_head (by simp [fileKey, keyPending])

@[simp] theorem pending_ne_fileKey (p : Path) : keyPending ≠ fileKey p :=
  (fileKey_ne_pending p).symm

@[simp] theorem checkpointKey_ne_pending (h : HubId) : checkpointKey h ≠ keyPending :=
  ne_of_head (by simp [checkpointKey, keyPending])

@[simp] theorem pending_ne_checkpointKey (h : HubId) : keyPending ≠ checkpointKey h :=
  (checkpointKey_ne_pending h).symm

@[simp] theorem fileKey_ne_checkpointKey (p : Path) (h : HubId) : fileKey p ≠ checkpointKey h :=
  ne_of_head (by simp [fileKey, checkpointKey])

@[simp] theorem checkpointKey_ne_fileKey (h : HubId) (p : Path) : checkpointKey h ≠ fileKey p :=
  (fileKey_ne_checkpointKey p h).symm

/-! ## In memory -/

/-- Bookkeeping blobs by key. -/
abbrev MetaMap := AList fun _ : String => Blob

/-- The in-memory store: both kinds, their key spaces apart. -/
structure MemStore where
  blobs : MetaMap
  files : AList fun _ : Path => Bytes

namespace MemStore

def empty : MemStore := ⟨∅, ∅⟩

/-- The queue the `pending` key holds. -/
def pending (s : MemStore) : List PendingChange :=
  ((s.blobs.lookup keyPending).bind Blob.toQueue?).getD []

/-- The metadata of a path, where it parses. -/
def fileMeta? (s : MemStore) (path : Path) : Option FileMeta :=
  (s.blobs.lookup (fileKey path)).bind Blob.toFileMeta?

end MemStore

end FileSync
