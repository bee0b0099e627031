import FileSync.Model.Engine
/-!
# The desktop client

The synced directory as the file store, and the pass that looks for local
changes in it. A change is detected by comparing a file's modification time
with the one in its metadata, so the store sets the time of every file it
writes to the one it is given.

The directory is a map from lists of names to files and directories, with
symbolic links between its places. A sync path names a place in it after `.`
and empty names are dropped and links are followed, so two paths may name one
place; the walk follows no link, and names each file by the shortest path.
-/

namespace FileSync

/-! ## The directory -/

/-- Why a system call fails. -/
inductive IoError
  | notFound
  | other (message : String)
deriving DecidableEq, Repr

namespace IoError

protected def toString : IoError → String
  | notFound => "entity not found"
  | other message => message

instance : ToString IoError := ⟨IoError.toString⟩

end IoError

/-- A name a directory entry can have. -/
def ValidName (name : String) : Prop :=
  name ≠ "" ∧ name ≠ "." ∧ name ≠ ".." ∧ '/' ∉ name.toList ∧ Char.ofNat 0 ∉ name.toList

instance (name : String) : Decidable (ValidName name) :=
  inferInstanceAs (Decidable (_ ∧ _ ∧ _ ∧ _ ∧ _))

/-- A place under the root, as a list of names, or one outside, which begins
with `..`. -/
abbrev Place := List String

/-- What a sync path comes to: a place, and whether the path insists that a
directory is there (it ends in `/` or `/.`). -/
structure Location where
  place : Place
  dirOnly : Bool
deriving DecidableEq, Repr

inductive Entry
  | dir
  | file (content : Bytes) (mtime : ℤ)
deriving DecidableEq, Repr

/-- The synced directory, and what its links lead to outside it. -/
structure Disk where
  entries : AList fun _ : Place => Entry
  /-- The symbolic links, and where they lead. What is neither a file nor a
  directory nor a link is here too, and leads to itself. -/
  links : AList fun _ : Place => Place
  /-- What the walk does not come to: a directory that cannot be read, or an
  entry whose type cannot. -/
  hidden : Place → Bool
  /-- The time a file has once it is set to one, if it can be. -/
  keeps : ℤ → Option ℤ

namespace Disk

/-- Nothing is there, nothing hidden, and every time kept. -/
def empty : Disk := ⟨∅, ∅, fun _ => false, some⟩

variable (d : Disk)

/-- What is at a place; the root is always there. -/
def entry (p : Place) : Option Entry := if p = [] then some .dir else d.entries.lookup p

/-- The directories a place is under, the root excepted. -/
def parents (p : Place) : List Place := p.inits.filter fun q => q ≠ [] ∧ q ≠ p

def isFile (p : Place) : Bool :=
  match d.entry p with
  | some (.file _ _) => true
  | _ => false

/-- No name of an entry holds it. -/
def hasNul (name : String) : Bool := name.toList.contains (Char.ofNat 0)

def invalidInput : IoError := .other "file name contained an unexpected NUL byte"

def notADirectory : IoError := .other "Not a directory"

def isADirectory : IoError := .other "Is a directory"

def fileExists : IoError := .other "File exists"

def tooManyLinks : IoError := .other "Too many levels of symbolic links"

/-- Go through names from a directory on. `jump` is where a link leads, of
those it is still allowed; what is not there yet is gone through as well. -/
def walk (jump : ℕ → Place → Except IoError (Place × ℕ)) :
    ℕ → Place → List String → Except IoError (Place × ℕ)
  | links, here, [] => .ok (here, links)
  | links, here, name :: names =>
    match d.links.lookup (here ++ [name]) with
    | some target =>
      match links with
      | 0 => .error tooManyLinks
      | links + 1 =>
        match jump links target with
        | .error e => .error e
        | .ok (there, links) =>
          if names = [] then .ok (there, links)
          else
            match d.entry there with
            | some .dir => walk jump links there names
            | some (.file _ _) => .error notADirectory
            | none => .error .notFound
    | none =>
      if names ≠ [] ∧ d.isFile (here ++ [name]) = true then .error notADirectory
      else walk jump links (here ++ [name]) names

/-- From the root, through so many links one inside another. -/
def walkFrom : ℕ → ℕ → Place → Except IoError (Place × ℕ)
  | 0, links, p => d.walk (fun _ _ => .error tooManyLinks) links [] p
  | depth + 1, links, p => d.walk (walkFrom depth) links [] p

/-- How many links the kernel follows. -/
def maxLinks : ℕ := 40

/-- Where a place is, all links followed. -/
def follow (p : Place) : Except IoError Place :=
  if p.any hasNul then .error invalidInput
  else (d.walkFrom maxLinks maxLinks p).map Prod.fst

/-- Where an entry is, all links above it followed. -/
def followAbove (p : Place) : Except IoError Place :=
  match p.getLast? with
  | none => .ok []
  | some name =>
    if p.any hasNul then .error invalidInput
    else
      match d.follow p.dropLast with
      | .error e => .error e
      | .ok above => if d.isFile above then .error notADirectory else .ok (above ++ [name])

/-- `read`. -/
def read (l : Location) : Except IoError Bytes :=
  match d.follow l.place with
  | .error e => .error e
  | .ok p =>
    match d.entry p with
    | some (.file content _) => if l.dirOnly then .error notADirectory else .ok content
    | some .dir => .error isADirectory
    | none => .error .notFound

/-- `create_dir_all` of the parent of an entry. -/
def makeParents (p : Place) : Disk :=
  let missing (es : AList fun _ : Place => Entry) (q : Place) :=
    if (es.lookup q).isSome then es else es.insert q .dir
  { d with entries := (parents p).foldl missing d.entries }

/-- Put a file at an entry's place, in the directories there are. -/
def insert (p : Place) (content : Bytes) (mtime : ℤ) : Disk :=
  { d with entries := d.entries.insert p (.file content mtime), links := d.links.erase p }

/-- Write a temporary file beside the place and rename it there. A link there
is replaced. -/
def put (l : Location) (content : Bytes) (mtime : ℤ) : Except IoError Unit × Disk :=
  match d.followAbove l.place with
  -- a link above it leads to nothing
  | .error .notFound => (.error fileExists, d)
  | .error e => (.error e, d)
  | .ok p =>
    let d' := d.makeParents p
    match d'.entry p with
    | some .dir => (.error isADirectory, d')
    | _ => if l.dirOnly then (.error notADirectory, d') else (.ok (), d'.insert p content mtime)

/-- Take a file or a link away. -/
def erase (p : Place) : Disk :=
  { d with entries := d.entries.erase p, links := d.links.erase p }

/-- `remove_file`; that nothing is there is left to the caller. -/
def remove (l : Location) : Except IoError Unit × Disk :=
  match d.followAbove l.place with
  | .error e => (.error e, d)
  | .ok p =>
    match d.entry p with
    | some .dir => (.error isADirectory, d)
    | e =>
      if e = none ∧ d.links.lookup p = none then (.error .notFound, d)
      else if l.dirOnly then (.error notADirectory, d)
      else (.ok (), d.erase p)

/-- The path the scan names a place by. -/
def relPath (p : Place) : Path := String.ofList (['/'].intercalate (p.map String.toList))

/-- The walk comes to what is at the place: it is under the root, and no part
of its path is skipped or cannot be read. -/
def shows (p : Place) : Bool :=
  !p.any endsInTmp && !p.contains ".." && !p.inits.any d.hidden

/-- `scan`: every file the walk comes to, with its modification time; one
before the epoch reads as 0. -/
def scan : List (Path × ℤ) :=
  d.entries.entries.filterMap fun ⟨p, e⟩ =>
    match e with
    | .file _ mtime => if d.shows p then some (relPath p, max 0 mtime) else none
    | .dir => none

/-- The time a file has that is set to `mtime` as it is written. One that is
not positive is not set. -/
def stamp (now mtime : ℤ) : ℤ := if 0 < mtime then (d.keeps mtime).getD now else now

end Disk

/-! ## Sync paths -/

namespace FsFileStore

/-- Resolve a sync path under the root, refusing anything that escapes
it. -/
def pathFor (path : Path) : Except StoreError Location :=
  let names := (path.toList.splitOn '/').map String.ofList
  if path.toList.head? = some '/' ∨ ".." ∈ names then .error (.io s!"unsafe path: {path}")
  else .ok ⟨names.filter fun name => name ≠ "" ∧ name ≠ ".",
    decide (names.getLast? = some "" ∨ names.getLast? = some ".")⟩

def ioErr (e : IoError) : StoreError := .io (toString e)

def get (d : Disk) (path : Path) : Except StoreError (Option Bytes) := do
  let l ← pathFor path
  match d.read l with
  | .ok bytes => return some bytes
  | .error .notFound => return none
  | .error e => .error (ioErr e)

/-- The file's time is set to `mtime` before it is renamed. -/
def put (d : Disk) (now : ℤ) (path : Path) (data : Bytes) (mtime : ℤ) :
    Except StoreError Unit × Disk :=
  match pathFor path with
  | .error e => (.error e, d)
  | .ok l =>
    let r := d.put l data (d.stamp now mtime)
    (r.1.mapError ioErr, r.2)

def delete (d : Disk) (path : Path) : Except StoreError Unit × Disk :=
  match pathFor path with
  | .error e => (.error e, d)
  | .ok l =>
    match d.remove l with
    | (.error .notFound, d') => (.ok (), d')
    | (r, d') => (r.mapError ioErr, d')

end FsFileStore

/-! ## The pass -/

/-- What the desktop client does besides what its engine does. -/
inductive OsReq : Type → Type
  | scan : OsReq (List (Path × ℤ))
  | readFile (path : Path) : OsReq (Except IoError Bytes)
  | nowSecs : OsReq ℤ

/-- Everything the desktop client does. -/
abbrev DesktopReq := Prog.Either EngineReq OsReq

inductive DesktopError
  | sync (error : SyncError)
  | io (error : IoError)
deriving DecidableEq, Repr

abbrev DesktopM (α : Type) := Fallible DesktopReq DesktopError α

namespace Desktop

/-- An operation of the engine. -/
def engine {α : Type} (x : Engine α) : DesktopM α :=
  ExceptT.adapt DesktopError.sync (.mk (x.run.expand fun _ e => .perform (.inl e)))

/-- A call that does not fail. -/
def os {α : Type} (e : OsReq α) : DesktopM α := .mk (.call (.inr e) fun a => .done (.ok a))

variable (eng : SyncEngine) (mimeOf : Path → String)

/-- Record a scanned file whose time is not the known one. -/
def recordFile (path : Path) (mtime : ℤ) : DesktopM Unit := do
  let known ← engine (SyncEngine.readFileMeta path)
  if known.map FileMeta.mtime = some mtime then return
  match ← os (.readFile path) with
  | .ok content => engine (eng.recordUpsert path mtime (mimeOf path) content)
  -- vanished between scan and read: the next pass sees the deletion
  | .error .notFound => return
  | .error e => throw (.io e)

def recordFiles : List (Path × ℤ) → DesktopM Unit
  | [] => pure ()
  | (path, mtime) :: files => do
    recordFile eng mimeOf path mtime
    recordFiles files

/-- Record the deletion of every known path the scan did not see. -/
def recordMissing (seen : List (Path × ℤ)) : List Path → DesktopM Unit
  | [] => pure ()
  | path :: paths => do
    if path ∉ seen.map Prod.fst then
      let now ← os .nowSecs
      engine (eng.recordDelete path now)
    recordMissing seen paths

/-- The recording half of a pass. -/
def recordChanges : DesktopM Unit := do
  let seen ← os .scan
  recordFiles eng mimeOf seen
  let known ← engine SyncEngine.listFilePaths
  recordMissing eng seen known

/-- Scan the directory, record local changes, then push and pull. -/
def reconcileAndSync : DesktopM Unit := do
  recordChanges eng mimeOf
  let _ ← engine eng.sync

/-- The same, with the report whose counts are logged. -/
def reconcileAndReport : DesktopM SyncReport := do
  recordChanges eng mimeOf
  engine eng.sync

end Desktop

/-! ## The client's state -/

/-- The stores, the directory, and the clock. -/
structure Desktop where
  blobs : MetaMap
  disk : Disk
  now : ℤ

namespace Desktop

def pending (s : Desktop) : List PendingChange :=
  ((s.blobs.lookup keyPending).bind Blob.toQueue?).getD []

def fileMeta? (s : Desktop) (path : Path) : Option FileMeta :=
  (s.blobs.lookup (fileKey path)).bind Blob.toFileMeta?

/-- The keys a listing of the metadata directory gives: a blob's file is named
after its key, and what ends like a temporary file is passed over. -/
def listKeys (blobs : MetaMap) (start : String) : List String :=
  blobs.keys.filter fun key => startsWith start key && !endsInTmp key

/-- The engine on the directory: no metadata operation fails, a file
operation does what the directory lets it, the hubs answer as they like. -/
def engineExec ⦃β : Type⦄ : EngineReq β → HubAnswers → Desktop → β × Desktop
  | .metaGet key, _, s => (.ok (s.blobs.lookup key), s)
  | .metaPut key value, _, s => (.ok (), { s with blobs := s.blobs.insert key value })
  | .metaDelete key, _, s => (.ok (), { s with blobs := s.blobs.erase key })
  | .metaListKeys pre, _, s => (.ok (listKeys s.blobs pre), s)
  | .fileGet path, _, s => (FsFileStore.get s.disk path, s)
  | .filePut path data mtime, _, s =>
    let r := FsFileStore.put s.disk s.now path data mtime
    (r.1, { s with disk := r.2 })
  | .fileDelete path, _, s =>
    let r := FsFileStore.delete s.disk path
    (r.1, { s with disk := r.2 })
  | .hubChanges _ _, o, s => (o.changes, s)
  | .hubGetFile _ _, o, s => (o.file, s)
  | .hubPush _ _, o, s => (o.push, s)
  | .notifyError _, _, s => ((), s)

/-- The place a scanned path names, as the pass joins it to the root. -/
def osExec ⦃β : Type⦄ : OsReq β → Desktop → β × Desktop
  | .scan, s => (s.disk.scan, s)
  | .readFile path, s =>
    match FsFileStore.pathFor path with
    | .ok l => (s.disk.read l, s)
    | .error _ => (.error .notFound, s)
  | .nowSecs, s => (s.now, s)

def exec ⦃β : Type⦄ : DesktopReq β → HubAnswers → Desktop → β × Desktop
  | .inl e, o, s => engineExec e o s
  | .inr e, _, s => osExec e s

end Desktop

end FileSync
