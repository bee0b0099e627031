import FileSync.Model.Resolver
/-!
# `POST /changes`

Each change of the batch is applied in turn and the first one that fails
ends the request. A write is conditioned on the client's `base_rev`; a
stale one is not refused but branched off the revision it names, and the
conflict that makes is resolved before the answer.
-/

namespace FileSync

/-- An error answer: status and message. -/
structure ApiError where
  status : ℕ
  message : String
deriving DecidableEq, Repr

namespace CouchError

protected def toString : CouchError → String
  | .transport => "http transport error"
  | .api status body => s!"couchdb returned {status}: {body}"
  | .badUrl message => s!"invalid url: {message}"
  | .revConflict id => s!"revision conflict writing {id}"
  | .decode message => s!"unexpected response shape: {message}"

instance : ToString CouchError := ⟨CouchError.toString⟩

/-- The status a CouchDB error is answered with. -/
def toApi (e : CouchError) : ApiError :=
  match e with
  | .revConflict _ => ⟨409, toString e⟩
  | _ => ⟨502, toString e⟩

end CouchError

inductive ApplyError
  | conflict
  | couch (error : CouchError)
deriving DecidableEq, Repr

namespace ApplyError

/-- A bogus `base_rev` or a blind delete is the client's mistake. -/
def intoApi (path : Path) : ApplyError → ApiError
  | conflict => ⟨409, s!"cannot apply change to {path}"⟩
  | couch e => e.toApi

end ApplyError

namespace Push

abbrev orCouch {α : Type} (x : Hub CouchError α) : Hub ApplyError α := x.adapt .couch

def orConflict {α : Type} : Option α → Hub ApplyError α
  | some a => pure a
  | none => throw .conflict

/-- A byte's two hexadecimal digits. -/
def hexByte (b : UInt8) : String :=
  String.ofList [Nat.digitChar (b.toNat / 16), Nat.digitChar (b.toNat % 16)]

/-- The bytes of a 64-bit number, highest first. -/
def beBytes (n : UInt64) : Bytes :=
  [56, 48, 40, 32, 24, 16, 8, 0].map fun shift : UInt64 => (n >>> shift).toUInt8

/-- FNV-1a, 64 bits, in hexadecimal. -/
def revHash (input : Bytes) : String :=
  let h := input.foldl (fun (h : UInt64) b => (h ^^^ b.toUInt64) * 0x100000001b3)
    0xcbf29ce484222325
  String.join ((beBytes h).map hexByte)

/-- What the hash of a branch is taken of. -/
def branchSeed (change : PushChange) (deleted : Bool) (content : Option Bytes) : Bytes :=
  ((change.baseRev.map toString).getD "").toUTF8.toList ++ [0, if deleted then 1 else 0]
    ++ beBytes (UInt64.ofInt change.mtime) ++ content.getD []

/-- The revision that carries a stale change, on top of `parent`. The same
change makes the same revision again. -/
def branchDoc (change : PushChange) (deleted : Bool) (content : Option Bytes)
    (parent : Revisions) : BranchDoc :=
  let hash := revHash (branchSeed change deleted content)
  { id := change.path, rev := ⟨parent.start + 1, hash⟩
    revisions := ⟨parent.start + 1, hash :: parent.ids⟩, deleted := deleted
    body := ⟨some change.path, some change.mtime, if deleted then none else change.contentType⟩
    attachment := if deleted then none
      else some ⟨change.contentType.getD octetStream, content.getD []⟩ }

/-- The history the branch hangs off: the claimed base's, or none for a
path the client takes to be new. -/
def branchParent (change : PushChange) : Hub ApplyError Revisions :=
  match change.baseRev with
  | some baseRev => do
    let doc ← orConflict (← orCouch (CouchClient.getDocAtRev change.path baseRev))
    return doc.revisions
  | none => pure ⟨0, []⟩

/-- Branch the tree with the client's change and resolve. The answer is the
winner's revision, so that the client does not pin its own branch. -/
def branchAndResolve (env : HubEnv) (change : PushChange) (deleted : Bool)
    (content : Option Bytes) : Hub ApplyError (Option Rev) := do
  let parent ← branchParent change
  orCouch (CouchClient.putRevision (branchDoc change deleted content parent))
  match ← Fallible.attempt (Resolver.resolve env change.path) with
  | .error _ => throw .conflict
  | .ok _ =>
    let winner ← orConflict (← orCouch (CouchClient.getDoc change.path))
    return some winner.rev

def applyDelete (env : HubEnv) (change : PushChange) : Hub ApplyError (Option Rev) :=
  match change.baseRev with
  | none => do
    -- nothing to condition on: a no-op if the hub has no such file either
    match ← orCouch (CouchClient.getDoc change.path) with
    | none => return none
    | some _ => throw .conflict
  | some rev => do
    match ← Fallible.attempt (CouchClient.deleteDoc .push change.path rev) with
    | .ok result => return some result
    | .error (.revConflict _) => branchAndResolve env change true none
    | .error e => throw (.couch e)

def applyUpsert (env : HubEnv) (change : PushChange) : Hub ApplyError (Option Rev) := do
  let contentType := change.contentType.getD octetStream
  let content ← match (change.contentBase64.getD .empty).decode with
    | .ok content => pure content
    | .error e => throw (.couch (.decode s!"bad base64: {e}"))
  let body : Body := ⟨some change.path, some change.mtime, some contentType⟩
  match ← Fallible.attempt (CouchClient.putDoc .push change.path change.baseRev body) with
  | .ok rev =>
    let rev ← orCouch (CouchClient.putAttachment .push change.path rev contentType content)
    return some rev
  | .error (.revConflict _) => branchAndResolve env change false (some content)
  | .error e => throw (.couch e)

def apply (env : HubEnv) (change : PushChange) : Hub ApplyError (Option Rev) :=
  if change.deleted then applyDelete env change else applyUpsert env change

def applyOne (env : HubEnv) (change : PushChange) : Hub ApiError PushResult := do
  let rev ← (apply env change).adapt (ApplyError.intoApi change.path)
  return ⟨change.path, rev⟩

def postChanges (env : HubEnv) : List PushChange → Hub ApiError (List PushResult)
  | [] => pure []
  | change :: changes => do
    let result ← applyOne env change
    return result :: (← postChanges env changes)

end Push

end FileSync
