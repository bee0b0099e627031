import FileSync.Model.Couch
import FileSync.Model.Headers
/-!
# The hub's CouchDB client

One function for each request: what the answer's status is turned into. It
never retries; a refused conditional write comes back as `revConflict` for
the caller to resolve.
-/

namespace FileSync

/-- Errors from talking to CouchDB. -/
inductive CouchError
  | transport
  | api (status : ℕ) (body : String)
  | badUrl (message : String)
  | revConflict (id : Path)
  | decode (message : String)
deriving DecidableEq, Repr

namespace CouchError

/-- A failure as it stands. -/
def ofFailure : HttpFailure → CouchError
  | .transport => .transport
  | .status code body => .api code body

/-- `put_result`: a 409 is the write's own refusal. -/
def ofPut (id : Path) : HttpFailure → CouchError
  | .status 409 _ => .revConflict id
  | f => ofFailure f

end CouchError

/-- What the hub does with CouchDB. -/
abbrev Hub (ε α : Type) := Fallible CouchReq ε α

namespace CouchClient

/-- A missing document is no error. -/
def orMissing {α : Type} (missing : α) : Except HttpFailure α → Except CouchError α
  | .ok a => .ok a
  | .error (.status 404 _) => .ok missing
  | .error f => .error (.ofFailure f)

/-- The visible revision's body, or `none` if the document is absent or a
tombstone. -/
def getDoc (id : Path) : Hub CouchError (Option Doc) :=
  .mk (.call (.getDoc id) fun r => .done (orMissing none (r.map some)))

/-- A specific revision's body with its history; `none` if absent. -/
def getDocAtRev (id : Path) (rev : Rev) : Hub CouchError (Option RevDoc) :=
  .mk (.call (.getDocAtRev id rev) fun r => .done (orMissing none (r.map some)))

/-- With `rev` a particular revision's content, without it the visible
one's. -/
def getAttachment (id : Path) (rev : Option Rev) : Hub CouchError Bytes :=
  .ask CouchError.ofFailure (.getAttachment id rev)

/-- The leaves as they are read off the parts that `open_revs=all` answers
with: of each the document, and what `lines` has for documents on the lines
of its content. -/
def leavesOfParts (lines : Bytes → List RevDoc) (parts : List LeafPart) : List RevDoc :=
  parts.flatMap fun part => part.doc :: (part.content.elim [] lines)

/-- All leaf revisions: the only way to see a losing edit leaf. -/
def getDocLeaves (lines : Bytes → List RevDoc) (id : Path) : Hub CouchError (List RevDoc) :=
  .mk (.call (.openRevs id) fun r => .done (orMissing [] (r.map (leavesOfParts lines))))

def changes (since : Option Checkpoint) : Hub CouchError RawChangesResponse :=
  .ask CouchError.ofFailure (.changes since)

/-- A write conditioned on `rev`; `none` means it must not exist yet. -/
def putDoc (caller : Caller) (id : Path) (rev : Option Rev) (body : Body) : Hub CouchError Rev :=
  .ask (CouchError.ofPut id) (.putDoc caller id rev body)

/-- A second call after `putDoc`, conditioned on the revision it made. The
content type is a header of the request, which is not sent where it cannot
be one. -/
def putAttachment (caller : Caller) (id : Path) (rev : Rev) (contentType : String)
    (bytes : Bytes) : Hub CouchError Rev :=
  if HeaderValue.accepts contentType then
    .ask (CouchError.ofPut id) (.putAttachment caller id rev ⟨contentType, bytes⟩)
  else throw .transport

def deleteDoc (caller : Caller) (id : Path) (rev : Rev) : Hub CouchError Rev :=
  .ask (CouchError.ofPut id) (.deleteDoc caller id rev)

/-- Insert a revision verbatim, to branch the tree on a stale push. That it
is there already is success. -/
def putRevision (doc : BranchDoc) : Hub CouchError Unit :=
  .ask CouchError.ofFailure (.bulkDocs doc)

end CouchClient

end FileSync
