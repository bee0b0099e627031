import FileSync.Model.Engine
import FileSync.Common.Percent
import Mathlib.Data.Finset.Dedup
/-!
# The metadata directory

The desktop client keeps each bookkeeping blob in a file of its own, in a
private directory, under the name its key is URL-encoded to. A blob is
written to a temporary file in the same directory, which is then renamed. A
process that is killed in between leaves the temporary file, and the next
one has another number and counts its temporary files from 0 again.
-/

namespace FileSync

/-- The directory and the process that has it open. -/
structure FsMetaStore where
  files : AList fun _ : String => Blob
  /-- `std::process::id`. -/
  pid : ℕ
  /-- `TMP_COUNTER`. -/
  counter : ℕ

namespace FsMetaStore

/-- `FsMetaStore::open` on a directory that is not there yet. -/
def opened (pid : ℕ) : FsMetaStore := ⟨∅, pid, 0⟩

variable (E : UrlEncoding) (d : FsMetaStore)

/-- `tmp_name`. -/
def tmpName : String := s!".{d.pid}-{d.counter}.tmp"

/-- The file of a key. -/
def pathFor (key : String) : String := E.encode key

def get (key : String) : Except StoreError (Option Blob) :=
  .ok (d.files.lookup (pathFor E key))

/-- `atomic_write` as far as the rename. -/
def writeTmp (content : Blob) : FsMetaStore :=
  { d with files := d.files.insert d.tmpName content, counter := d.counter + 1 }

def put (key : String) (value : Blob) : Except StoreError Unit × FsMetaStore :=
  let written := d.writeTmp value
  (.ok (), { written with
    files := (written.files.erase d.tmpName).insert (pathFor E key) value })

/-- A file that is not there is deleted. -/
def delete (key : String) : Except StoreError Unit × FsMetaStore :=
  (.ok (), { d with files := d.files.erase (pathFor E key) })

def listKeys (start : String) : Except StoreError (List String) :=
  .ok (d.files.keys.filterMap fun name =>
    -- skip our own temporary files
    if endsInTmp name then none
    else (E.decode name).filter (startsWith start))

/-- The process is killed inside `put`: before its temporary file was there,
or when it held what it holds now. -/
def killed (left : Option Blob) (pid : ℕ) : FsMetaStore :=
  let stopped := left.elim d d.writeTmp
  ⟨stopped.files, pid, 0⟩

end FsMetaStore

/-! ## Calls -/

/-- A call of a metadata store, or a crash inside one of `put`. -/
inductive MetaOp
  | get (key : String)
  | put (key : String) (value : Blob)
  | delete (key : String)
  | listKeys (start : String)
  | crash (left : Option Blob) (pid : ℕ)
deriving DecidableEq

/-- What a call returns. -/
inductive MetaReply
  | value (r : Except StoreError (Option Blob))
  | unit (r : Except StoreError Unit)
  | keys (r : Except StoreError (List String))
  /-- The process was killed. -/
  | killed

namespace MetaOp

/-- The key a call names. -/
def key? : MetaOp → Option String
  | get key => some key
  | put key _ => some key
  | delete key => some key
  | listKeys _ => none
  | crash _ _ => none

/-- A call of the desktop client's store. -/
def onDisk (E : UrlEncoding) : MetaOp → FsMetaStore → MetaReply × FsMetaStore
  | get key, d => (.value (d.get E key), d)
  | put key value, d => let r := d.put E key value; (.unit r.1, r.2)
  | delete key, d => let r := d.delete E key; (.unit r.1, r.2)
  | listKeys start, d => (.keys (d.listKeys E start), d)
  | crash left pid, d => (.killed, d.killed left pid)

/-- The same call of the store in memory, which a put that does not complete
is no call of. -/
def inMemory : MetaOp → MemStore → MetaReply × MemStore
  | get key, s => let r := MemStore.exec (.metaGet key) .unreachable s; (.value r.1, r.2)
  | put key value, s =>
    let r := MemStore.exec (.metaPut key value) .unreachable s; (.unit r.1, r.2)
  | delete key, s => let r := MemStore.exec (.metaDelete key) .unreachable s; (.unit r.1, r.2)
  | listKeys start, s => let r := MemStore.exec (.metaListKeys start) .unreachable s; (.keys r.1, r.2)
  | crash _ _, s => (.killed, s)

/-- Calls one after another. -/
def run {σ : Type*} (step : MetaOp → σ → MetaReply × σ) : List MetaOp → σ → List MetaReply × σ
  | [], s => ([], s)
  | op :: ops, s =>
    let r := step op s
    let rest := run step ops r.2
    (r.1 :: rest.1, rest.2)

end MetaOp

/-- Two stores return the same: the same value, or the same set of keys. -/
def MetaReply.Same : MetaReply → MetaReply → Prop
  | value r, value r' => r = r'
  | unit r, unit r' => r = r'
  | keys r, keys r' => r.map List.toFinset = r'.map List.toFinset
  | killed, killed => True
  | _, _ => False

instance : DecidableRel MetaReply.Same := fun r r' => by
  cases r <;> cases r' <;> unfold MetaReply.Same <;> infer_instance

end FileSync
