import FileSync.Model.Desktop
/-!
# The file store, one system call after another

A put makes the directory a file is in, writes a temporary file there and
renames it. `Disk.put` is all of it at once, the temporary file left out;
here it is there, with the name the client gives it, and stays behind where
the renaming fails. The directory here is one the client made, with no link
in it.
-/

namespace FileSync

namespace Disk

variable (d : Disk)

/-- The kernel does not get as far as the place: a file is in the way, or a
name is none. -/
def unreachable (p : Place) : Bool := (parents p).any d.isFile || p.any hasNul

/-- `create_dir_all` of the directory a place is in. -/
def createParents (p : Place) : Except IoError Unit × Disk :=
  if (parents p).any d.isFile || p.dropLast.any hasNul then (.error notADirectory, d)
  else (.ok (), d.makeParents p)

/-- `write`, in a directory that is there. -/
def write (p : Place) (content : Bytes) (mtime : ℤ) : Except IoError Unit × Disk :=
  match d.entry p with
  | some .dir => (.error isADirectory, d)
  | _ => (.ok (), { d with entries := d.entries.insert p (.file content mtime) })

/-- `rename` of a file. -/
def rename (p : Place) (l : Location) : Except IoError Unit × Disk :=
  match d.entries.lookup p with
  | none => (.error .notFound, d)
  | some e =>
    if d.unreachable l.place then (.error notADirectory, d)
    else
      match d.entry l.place with
      | some .dir => (.error isADirectory, d)
      | _ =>
        if l.dirOnly then (.error notADirectory, d)
        -- both are one file: nothing to do
        else if p = l.place then (.ok (), d)
        else (.ok (), { d with entries := (d.entries.erase p).insert l.place e })

/-- Where the temporary file of a put is. -/
def tmpPlace (tmp : String) (p : Place) : Place := p.dropLast ++ [tmp]

/-- A put, with the name of its temporary file. -/
def putVia (tmp : String) (l : Location) (content : Bytes) (mtime : ℤ) :
    Except IoError Unit × Disk :=
  -- the root itself: the temporary file is left beside it
  if l.place = [] then (.error isADirectory, d)
  else
    match d.createParents l.place with
    | (.error e, d) => (.error e, d)
    | (.ok (), d) =>
      match d.write (tmpPlace tmp l.place) content mtime with
      | (.error e, d) => (.error e, d)
      | (.ok (), d) => d.rename (tmpPlace tmp l.place) l

/-- A put that is killed with its temporary file written. -/
def putBegun (tmp : String) (p : Place) (content : Bytes) (mtime : ℤ) : Disk :=
  match d.createParents p with
  | (.error _, d) => d
  | (.ok (), d) => (d.write (tmpPlace tmp p) content mtime).2

end Disk

namespace FsFileStore

/-- `.{pid}-{n}.tmp`. -/
def tmpName (pid n : ℕ) : String := s!".{pid}-{n}.tmp"

/-- The process a put is made by, its counter, and the time. -/
structure Occasion where
  pid : ℕ
  n : ℕ
  now : ℤ
deriving DecidableEq, Repr

def putVia (o : Occasion) (d : Disk) (path : Path) (data : Bytes) (mtime : ℤ) :
    Except StoreError Unit × Disk :=
  match pathFor path with
  | .error e => (.error e, d)
  | .ok l =>
    let r := d.putVia (tmpName o.pid o.n) l data (d.stamp o.now mtime)
    (r.1.mapError ioErr, r.2)

end FsFileStore

/-! ## The store's calls -/

/-- A call of a file store. -/
inductive FileCall
  | get (path : Path)
  | put (path : Path) (data : Bytes) (mtime : ℤ)
  | delete (path : Path)
deriving DecidableEq, Repr

inductive FileAnswer
  | content (data : Option Bytes)
  | done
deriving DecidableEq, Repr

namespace FileCall

def path : FileCall → Path
  | get path => path
  | put path _ _ => path
  | delete path => path

/-- The call on `FsFileStore`. -/
def onDisk (o : FsFileStore.Occasion) (d : Disk) :
    FileCall → Except StoreError FileAnswer × Disk
  | get path => ((FsFileStore.get d path).map .content, d)
  | put path data mtime =>
    let r := FsFileStore.putVia o d path data mtime
    (r.1.map fun _ => .done, r.2)
  | delete path =>
    let r := FsFileStore.delete d path
    (r.1.map fun _ => .done, r.2)

/-- The call on `MemStore`. -/
def inMemory (s : MemStore) : FileCall → Except StoreError FileAnswer × MemStore
  | get path => (.ok (.content (s.files.lookup path)), s)
  | put path data _ => (.ok .done, { s with files := s.files.insert path data })
  | delete path => (.ok .done, { s with files := s.files.erase path })

/-- What a sequence of calls is answered by `FsFileStore`. -/
def diskAnswers : Disk → List (FileCall × FsFileStore.Occasion) →
    List (Except StoreError FileAnswer)
  | _, [] => []
  | d, (c, o) :: calls => (c.onDisk o d).1 :: diskAnswers (c.onDisk o d).2 calls

/-- What it is answered by `MemStore`, asked only about the paths that are
accepted. -/
def memAnswers : MemStore → List FileCall → List (Except StoreError FileAnswer)
  | _, [] => []
  | s, c :: calls =>
    match FsFileStore.pathFor c.path with
    | .error e => .error e :: memAnswers s calls
    | .ok _ => (c.inMemory s).1 :: memAnswers (c.inMemory s).2 calls

end FileCall

end FileSync
