import FileSync.Common.Percent
import FileSync.Model.FileStore
import FileSync.Model.Tasks
import FileSync.Model.Urls
import Mathlib.Data.Stream.Init
/-!
# The browser client

Both stores are kept in the origin private file system, which hands out a
handle for each directory and file: content under `content/`, and a
bookkeeping blob per key in one flat directory `meta/`, under the name the
key is URL-encoded to. Both walk from one root, a name at a time, and no name
leads upwards; so what is under `content` and what is under `meta` stay
apart, and are two trees here.
-/

namespace FileSync

/-- Which characters but the slash the platform separates names by. What
URLs are written with is not among them. -/
structure Platform where
  isSeparator : Char → Bool
  plain : ∀ c, Percent.isUnreserved c = true ∨ Percent.isEscape c = true → isSeparator c = false

/-- A name a handle takes. -/
def Platform.validName (P : Platform) (name : String) : Bool :=
  name ≠ "" && name ≠ "." && name ≠ ".." &&
    !name.toList.any fun c => c = '/' || P.isSeparator c

/-- Why the browser refuses. -/
inductive DomError
  | typeError
  | notFoundError
  | typeMismatchError
  | invalidModificationError
deriving DecidableEq, Repr

namespace DomError

protected def toString : DomError → String
  | typeError => "TypeError"
  | notFoundError => "NotFoundError"
  | typeMismatchError => "TypeMismatchError"
  | invalidModificationError => "InvalidModificationError"

instance : ToString DomError := ⟨DomError.toString⟩

end DomError

/-- `js_err`. -/
def jsErr (e : DomError) : StoreError := .io s!"JsValue({e})"

inductive OpfsEntry (α : Type)
  | dir
  | file (data : α)
deriving DecidableEq, Repr

/-- The tree under the root handle. -/
structure OpfsRoot (α : Type) where
  entries : AList fun _ : Place => OpfsEntry α

namespace OpfsRoot

variable {α : Type} (P : Platform) (r : OpfsRoot α)

def empty : OpfsRoot α := ⟨∅⟩

/-- `getDirectoryHandle`: where the directory is. -/
def getDirectoryHandle (create : Bool) (dir : Place) (name : String) :
    Except DomError Place × OpfsRoot α :=
  if P.validName name then
    match r.entries.lookup (dir ++ [name]) with
    | some .dir => (.ok (dir ++ [name]), r)
    | some (.file _) => (.error .typeMismatchError, r)
    | none =>
      if create then (.ok (dir ++ [name]), ⟨r.entries.insert (dir ++ [name]) .dir⟩)
      else (.error .notFoundError, r)
  else (.error .typeError, r)

/-- `getFileHandle`. A file that is made is empty. -/
def getFileHandle [Inhabited α] (create : Bool) (dir : Place) (name : String) :
    Except DomError Place × OpfsRoot α :=
  if P.validName name then
    match r.entries.lookup (dir ++ [name]) with
    | some (.file _) => (.ok (dir ++ [name]), r)
    | some .dir => (.error .typeMismatchError, r)
    | none =>
      if create then (.ok (dir ++ [name]), ⟨r.entries.insert (dir ++ [name]) (.file default)⟩)
      else (.error .notFoundError, r)
  else (.error .typeError, r)

/-- `removeEntry`, which takes no directory that holds something. -/
def removeEntry (dir : Place) (name : String) : Except DomError Unit × OpfsRoot α :=
  if P.validName name then
    match r.entries.lookup (dir ++ [name]) with
    | none => (.error .notFoundError, r)
    | some (.file _) => (.ok (), ⟨r.entries.erase (dir ++ [name])⟩)
    | some .dir =>
      if r.entries.keys.any fun p => (dir ++ [name]).isPrefixOf p && p ≠ dir ++ [name] then
        (.error .invalidModificationError, r)
      else (.ok (), ⟨r.entries.erase (dir ++ [name])⟩)
  else (.error .typeError, r)

/-- Directory after directory. -/
def walk (create : Bool) : Place → List String → OpfsRoot α → Except DomError Place × OpfsRoot α
  | dir, [], r => (.ok dir, r)
  | dir, part :: parts, r =>
    match r.getDirectoryHandle P create dir part with
    | (.ok dir', r') => walk create dir' parts r'
    -- what has been made on the way stays
    | (.error e, r') => (.error e, r')

/-- The handle of the last name of a path. -/
def fileHandle [Inhabited α] (path : String) (create : Bool) :
    Except StoreError Place × OpfsRoot α :=
  match (tokens path).getLast? with
  | none => (.error (.io "empty path"), r)
  | some last =>
    match r.walk P create [] (tokens path).dropLast with
    | (.error e, r') => (.error (jsErr e), r')
    | (.ok dir, r') =>
      let h := r'.getFileHandle P create dir last
      (h.1.mapError jsErr, h.2)

/-- Whatever is in the way, there is no file. -/
def read [Inhabited α] (path : String) : Except StoreError (Option α) :=
  match (r.fileHandle P path false).1 with
  | .error _ => .ok none
  | .ok place =>
    match r.entries.lookup place with
    | some (.file data) => .ok (some data)
    | _ => .error (jsErr .notFoundError)

/-- What is written takes effect when the stream is closed. -/
def write [Inhabited α] (path : String) (data : α) : Except StoreError Unit × OpfsRoot α :=
  match r.fileHandle P path true with
  | (.error e, r') => (.error e, r')
  | (.ok place, r') => (.ok (), ⟨r'.entries.insert place (.file data)⟩)

/-- What is not there is removed. -/
def remove (path : String) : Except StoreError Unit × OpfsRoot α :=
  match (tokens path).getLast? with
  | none => (.ok (), r)
  | some last =>
    match (r.walk P false [] (tokens path).dropLast).1 with
    | .error .notFoundError => (.ok (), r)
    -- as where a file stands where a directory is to be
    | .error e => (.error (jsErr e), r)
    | .ok dir =>
      match r.removeEntry P dir last with
      | (.error .notFoundError, r') => (.ok (), r')
      | (result, r') => (result.mapError jsErr, r')

/-- The name an entry is listed under, if it is a file of this directory. -/
def listedIn (dir : Place) (p : Place) : OpfsEntry α → Option String
  | .file _ => if p.dropLast = dir then p.getLast? else none
  | .dir => none

/-- The names of the files in a directory, and of no directory. -/
def list (path : String) : Except StoreError (List String) :=
  match (r.walk P false [] (tokens path)).1 with
  | .error .notFoundError => .ok []
  | .error e => .error (jsErr e)
  | .ok dir => .ok (r.entries.entries.filterMap fun s => listedIn dir s.1 s.2)

end OpfsRoot

namespace OpfsFileStore

def path (p : Path) : String := "content/" ++ p

variable (P : Platform) (root : OpfsRoot Bytes)

def get (p : Path) : Except StoreError (Option Bytes) := root.read P (path p)

/-- The file's time is dropped. -/
def put (p : Path) (data : Bytes) (_mtime : ℤ) : Except StoreError Unit × OpfsRoot Bytes :=
  root.write P (path p) data

def delete (p : Path) : Except StoreError Unit × OpfsRoot Bytes := root.remove P (path p)

end OpfsFileStore

namespace FileCall

/-- The call on `OpfsFileStore`. -/
def onOpfs (P : Platform) (root : OpfsRoot Bytes) :
    FileCall → Except StoreError FileAnswer × OpfsRoot Bytes
  | get path => ((OpfsFileStore.get P root path).map .content, root)
  | put path data mtime =>
    let r := OpfsFileStore.put P root path data mtime
    (r.1.map fun _ => .done, r.2)
  | delete path =>
    let r := OpfsFileStore.delete P root path
    (r.1.map fun _ => .done, r.2)

/-- What a sequence of calls is answered by a store. -/
def answers {σ : Type} (step : σ → FileCall → Except StoreError FileAnswer × σ) :
    σ → List FileCall → List (Except StoreError FileAnswer)
  | _, [] => []
  | s, c :: calls => (step s c).1 :: answers step (step s c).2 calls

end FileCall

instance : Inhabited Blob := ⟨.garbage []⟩

namespace OpfsMetaStore

variable (P : Platform) (E : UrlEncoding) (root : OpfsRoot Blob)

def path (key : String) : String := "meta/" ++ E.encode key

def get (key : String) : Except StoreError (Option Blob) := root.read P (path E key)

def put (key : String) (value : Blob) : Except StoreError Unit × OpfsRoot Blob :=
  root.write P (path E key) value

def delete (key : String) : Except StoreError Unit × OpfsRoot Blob := root.remove P (path E key)

def listKeys (start : String) : Except StoreError (List String) :=
  (root.list P "meta").map fun names =>
    (names.filterMap E.decode).filter (startsWith start)

end OpfsMetaStore

/-- Both stores. -/
structure WebStores where
  content : OpfsRoot Bytes
  blobs : OpfsRoot Blob

namespace WebStores

def empty : WebStores := ⟨.empty, .empty⟩

/-- The engine's calls on them; the hubs answer as they like. -/
def exec (P : Platform) (E : UrlEncoding) ⦃β : Type⦄ :
    EngineReq β → HubAnswers → WebStores → β × WebStores
  | .metaGet key, _, s => (OpfsMetaStore.get P E s.blobs key, s)
  | .metaPut key value, _, s =>
    let r := OpfsMetaStore.put P E s.blobs key value
    (r.1, { s with blobs := r.2 })
  | .metaDelete key, _, s =>
    let r := OpfsMetaStore.delete P E s.blobs key
    (r.1, { s with blobs := r.2 })
  | .metaListKeys start, _, s => (OpfsMetaStore.listKeys P E s.blobs start, s)
  | .fileGet path, _, s => (OpfsFileStore.get P s.content path, s)
  | .filePut path data mtime, _, s =>
    let r := OpfsFileStore.put P s.content path data mtime
    (r.1, { s with content := r.2 })
  | .fileDelete path, _, s =>
    let r := OpfsFileStore.delete P s.content path
    (r.1, { s with content := r.2 })
  | .hubChanges _ _, o, s => (o.changes, s)
  | .hubGetFile _ _, o, s => (o.file, s)
  | .hubPush _ _, o, s => (o.push, s)
  | .notifyError _, _, s => ((), s)

end WebStores

/-! ## The calls of the page -/

/-- A file's bytes. -/
def SyncEngine.readFile (path : Path) : Engine (Option Bytes) := do
  return ← store (.fileGet path)

/-- A method of `WebSync`. Times are whole seconds. -/
inductive WebCall
  | sync
  | listFiles
  | readFile (path : Path)
  | putFile (path : Path) (mtime : ℤ) (contentType : String) (data : Bytes)
  | deleteFile (path : Path) (mtime : ℤ)
  | checkpoint (hub : HubId)
deriving DecidableEq, Repr

/-- What it resolves to. -/
inductive WebAnswer
  | done
  | files (paths : List Path)
  | content (data : Option Bytes)
  | token (checkpoint : Option Checkpoint)
deriving DecidableEq, Repr

/-- The same but for the order of a listing. -/
def WebAnswer.Same : WebAnswer → WebAnswer → Prop
  | files paths, files paths' => paths.Perm paths'
  | a, a' => a = a'

instance : DecidableRel WebAnswer.Same := fun a a' => by
  cases a <;> cases a' <;> unfold WebAnswer.Same <;> infer_instance

namespace WebCall

/-- Two calls that returned, or did not, the same. -/
def Same : Option (Except SyncError WebAnswer) → Option (Except SyncError WebAnswer) → Prop
  | some (.ok a), some (.ok a') => a.Same a'
  | r, r' => r = r'

/-- The path it names. -/
def path? : WebCall → Option Path
  | readFile path => some path
  | putFile path _ _ _ => some path
  | deleteFile path _ => some path
  | _ => none

def prog (eng : SyncEngine) : WebCall → Engine WebAnswer
  | sync => do
    let _ ← eng.sync
    return .done
  | listFiles => return .files (← SyncEngine.listFilePaths)
  | readFile path => return .content (← SyncEngine.readFile path)
  | putFile path mtime contentType data => do
    eng.recordUpsert path mtime contentType data
    return .done
  | deleteFile path mtime => do
    eng.recordDelete path mtime
    return .done
  | checkpoint hub => return .token (← SyncEngine.checkpoint hub)

end WebCall

/-- The engine's calls one after another, each request answered by the next
of the answers to come. -/
def online {σ : Type} (exec : ∀ ⦃β : Type⦄, EngineReq β → HubAnswers → σ → β × σ) :
    Prog.Handler EngineReq (σ × Stream' HubAnswers) :=
  fun _ e s => ((exec e s.2.head s.1).1, ((exec e s.2.head s.1).2, s.2.tail))

/-- **A page's calls**, one after another. Where a number is given the page is
closed after as many operations of the call, and opened again for the
next. -/
def WebCall.run {σ : Type} (exec : ∀ ⦃β : Type⦄, EngineReq β → HubAnswers → σ → β × σ)
    (eng : SyncEngine) : List (WebCall × Option ℕ) → σ × Stream' HubAnswers →
      List (Option (Except SyncError WebAnswer))
  | [], _ => []
  | (call, none) :: calls, s =>
    let r := (call.prog eng).exec (online exec) s
    some r.1 :: run exec eng calls r.2
  | (call, some n) :: calls, s =>
    let r := (call.prog eng).run.after (online exec) n s
    r.1.result? :: run exec eng calls r.2

end FileSync
