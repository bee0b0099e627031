import FileSync.Model.Desktop
/-!
# The walk of the synced directory

The pass infers deletions from what a recursive walk does not list, so here
the directory is a tree with everything the walk passes over, and every
system call of the walk may fail: reading a directory, one of its entries,
an entry's type, a file's metadata. The pass itself is written once more,
one call for each operation of the engine.
-/

namespace FileSync

/-- A directory entry's name; one that is not UTF-8 is kept as its bytes. -/
inductive OsName
  | utf8 (name : String)
  | raw (bytes : Bytes)
deriving DecidableEq, Repr

mutual

/-- What a name in a directory stands for. -/
inductive FsNode
  | file (mtime : ℤ)
  | dir (entries : Listing)
  /-- A symbolic link, and what following it comes to. -/
  | link (target : FsNode)
  /-- A device, a socket, a link that leads nowhere. -/
  | other

/-- The entries of a directory, in the order they are read. -/
inductive Listing
  | nil
  | cons (name : OsName) (node : FsNode) (rest : Listing)

end

namespace OsName

/-- `ends_with(".tmp")`, where the name is UTF-8. -/
def isTemp : OsName → Bool
  | utf8 name => endsInTmp name
  | raw _ => false

/-- A name a directory entry can have. -/
def valid : OsName → Bool
  | utf8 name => decide (ValidName name)
  | raw _ => true

def utf8? : OsName → Option String
  | utf8 name => some name
  | raw _ => none

end OsName

/-! ## The directory -/

def Listing.names : Listing → List OsName
  | .nil => []
  | .cons name _ rest => name :: rest.names

mutual

/-- **Every name is one**, and no directory has a name twice. -/
def FsNode.wellFormed : FsNode → Bool
  | .dir entries => entries.wellFormed
  | .link target => target.wellFormed
  | _ => true

def Listing.wellFormed : Listing → Bool
  | .nil => true
  | .cons name node rest =>
    name.valid && decide (name ∉ rest.names) && node.wellFormed && rest.wellFormed

end

mutual

/-- A regular file is there. `follow` says whether links on the way are
followed; one at the end is not. -/
def FsNode.hasFile (follow : Bool) : FsNode → List OsName → Bool
  | .file _, [] => true
  | .dir entries, name :: names => entries.hasFile follow name names
  | .link target, name :: names => follow && target.hasFile follow (name :: names)
  | _, _ => false

def Listing.hasFile (follow : Bool) : Listing → OsName → List OsName → Bool
  | .nil, _, _ => false
  | .cons entry node rest, name, names =>
    if entry = name then node.hasFile follow names else rest.hasFile follow name names

end

/-- The synced directory, as a file system has it. -/
structure SyncDir where
  listing : Listing
  ok : listing.wellFormed = true

namespace SyncDir

/-- A place's names, as the directory has them. -/
def names (p : Place) : List OsName := p.map .utf8

/-- A regular file exists at the path. A path the store refuses names nothing
in the directory. -/
def hasFile (d : SyncDir) (path : Path) : Bool :=
  match FsFileStore.pathFor path with
  | .ok l => !l.dirOnly && (FsNode.dir d.listing).hasFile true (names l.place)
  | .error _ => false

end SyncDir

/-! ## The walk -/

/-- Which of the walk's system calls fail, by the names from the root to what
they are about. -/
structure ScanErrors where
  readDir : List OsName → Bool
  entry : List OsName → Bool
  fileType : List OsName → Bool
  metadata : List OsName → Bool

namespace ScanErrors

def none : ScanErrors := ⟨fun _ => false, fun _ => false, fun _ => false, fun _ => false⟩

end ScanErrors

/-- `strip_prefix(root)` and `to_str`. -/
def relPath? (path : List OsName) : Option Path := (path.mapM OsName.utf8?).map Disk.relPath

mutual

/-- What the walk makes of an entry whose type it has: it goes into
directories and lists files. -/
def FsNode.scan (io : ScanErrors) (path : List OsName) : FsNode → List (Path × ℤ)
  | .dir entries => if io.readDir path then [] else entries.scan io path
  | .file mtime =>
    match relPath? path with
    | none => []
    -- a time that cannot be read is the epoch
    | some rel => [(rel, if io.metadata path then 0 else max 0 mtime)]
  | .link _ => []
  | .other => []

/-- The loop over a directory's entries. -/
def Listing.scan (io : ScanErrors) (dir : List OsName) : Listing → List (Path × ℤ)
  | .nil => []
  | .cons name node rest =>
    (if io.entry (dir ++ [name]) then []
      else if name.isTemp then []
      else if io.fileType (dir ++ [name]) then []
      else node.scan io (dir ++ [name])) ++ rest.scan io dir

end

/-- `scan`: the walk from the root. -/
def SyncDir.scan (io : ScanErrors) (d : SyncDir) : List (Path × ℤ) :=
  (FsNode.dir d.listing).scan io []

/-! ## The pass, one call for each operation of the engine -/

inductive PassReq : Type → Type
  | scan : PassReq (List (Path × ℤ))
  | readFileMeta (path : Path) : PassReq (Except SyncError (Option FileMeta))
  | readFile (path : Path) : PassReq (Except IoError Bytes)
  | recordUpsert (path : Path) (mtime : ℤ) (contentType : String) (content : Bytes) :
      PassReq (Except SyncError Unit)
  | listFilePaths : PassReq (Except SyncError (List Path))
  | nowSecs : PassReq ℤ
  | recordDelete (path : Path) (mtime : ℤ) : PassReq (Except SyncError Unit)
  | sync : PassReq (Except SyncError SyncReport)

abbrev PassM (α : Type) := Fallible PassReq DesktopError α

namespace Pass

def engine {α : Type} (e : PassReq (Except SyncError α)) : PassM α := .ask .sync e

def os {α : Type} (e : PassReq α) : PassM α := .mk (.call e fun a => .done (.ok a))

variable (eng : SyncEngine) (mimeOf : Path → String)

def recordFile (path : Path) (mtime : ℤ) : PassM Unit := do
  let known ← engine (.readFileMeta path)
  if known.map FileMeta.mtime = some mtime then return
  match ← os (.readFile path) with
  | .ok content => engine (.recordUpsert path mtime (mimeOf path) content)
  | .error .notFound => return
  | .error e => throw (.io e)

def recordFiles : List (Path × ℤ) → PassM Unit
  | [] => pure ()
  | (path, mtime) :: files => do
    recordFile mimeOf path mtime
    recordFiles files

def recordMissing (seen : List (Path × ℤ)) : List Path → PassM Unit
  | [] => pure ()
  | path :: paths => do
    if path ∉ seen.map Prod.fst then
      let now ← os .nowSecs
      engine (.recordDelete path now)
    recordMissing seen paths

def reconcileAndSync : PassM Unit := do
  let seen ← os .scan
  recordFiles mimeOf seen
  let known ← engine .listFilePaths
  recordMissing seen known
  let _ ← engine .sync

/-- An operation of the engine is its program. -/
def opened ⦃β : Type⦄ : PassReq β → Prog DesktopReq β
  | .scan => .perform (.inr .scan)
  | .readFileMeta path => (SyncEngine.readFileMeta path).run.expand fun _ e => .perform (.inl e)
  | .readFile path => .perform (.inr (.readFile path))
  | .recordUpsert path mtime contentType content =>
    (eng.recordUpsert path mtime contentType content).run.expand fun _ e => .perform (.inl e)
  | .listFilePaths => SyncEngine.listFilePaths.run.expand fun _ e => .perform (.inl e)
  | .nowSecs => .perform (.inr .nowSecs)
  | .recordDelete path mtime =>
    (eng.recordDelete path mtime).run.expand fun _ e => .perform (.inl e)
  | .sync => eng.sync.run.expand fun _ e => .perform (.inl e)

end Pass

end FileSync
