import FileSync.Model.Push
/-!
# `GET /changes` and `GET /file`
-/

namespace FileSync

namespace Routes

/-- System and design documents are never user files. -/
def isSystemId (id : Path) : Bool := startsWith "_" id

def toResponse (raw : RawChangesResponse) : ChangesResponse where
  changes := (raw.results.filter fun row => !isSystemId row.id).filterMap fun row =>
    row.changes.head?.map fun rev => ⟨row.id, row.deleted, rev⟩
  checkpoint := raw.lastSeq

def getChanges (since : Option Checkpoint) : Hub ApiError ChangesResponse := do
  let raw ← (CouchClient.changes since).adapt CouchError.toApi
  return toResponse raw

/-- The document is read first and then, in a second request, the visible
revision's attachment. -/
def getFile (path : Path) : Hub ApiError FileContent := do
  match ← (CouchClient.getDoc path).adapt CouchError.toApi with
  | none => throw ⟨404, s!"no such file: {path}"⟩
  | some doc =>
    let bytes ← (CouchClient.getAttachment path none).adapt CouchError.toApi
    return ⟨some doc.rev, doc.body.mtime.getD 0, doc.body.contentType.getD octetStream, bytes⟩

end Routes

end FileSync
