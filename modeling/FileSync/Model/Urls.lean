import FileSync.Model.CouchClient
/-!
# The URLs of the hub's requests

A document's id goes into the path of a request as one percent-encoded
segment, pushed after the database's. The hub leaves pushing and encoding
to a URL library, and what a path is taken for is CouchDB's to say: it
splits the path at `/`, drops empty names, decodes the others, and takes the
second one for a document unless it begins with an underscore.
-/

namespace FileSync

/-- A tab or a line break. -/
def isDropped (c : Char) : Bool := c.toNat = 9 || c.toNat = 10 || c.toNat = 13

/-- What the URL library reads of a segment: it drops tabs and line
breaks. -/
def kept (s : String) : String := String.ofList (s.toList.filter fun c => !isDropped c)

/-- The names of a URL path, as CouchDB splits it. -/
def tokens (path : String) : List String :=
  ((path.toList.splitOn '/').filter (· ≠ [])).map String.ofList

/-- The URL library, and CouchDB's decoding of what it makes. -/
structure UrlRules where
  /-- A path with one more segment. -/
  push : String → String → String
  encode : String → String
  unquote : String → String
  /-- CouchDB's `decode_plus_to_space`; the library leaves `+` as it is. -/
  plusIsSpace : Bool
  push_dots : ∀ path segment, segment = "." ∨ segment = ".." → push path segment = path
  push_segment : ∀ path segment, kept segment ≠ "." → kept segment ≠ ".." →
    push path segment = (if path = "/" then path else path ++ "/") ++ encode segment
  /-- A segment that reads as a dot segment once tabs and line breaks are
  dropped adds no name either; it may take one away. -/
  push_dot_names : ∀ path segment, kept segment = "." ∨ kept segment = ".." →
    tokens (push path segment) <+: tokens path
  encode_slash : ∀ segment, '/' ∉ (encode segment).toList
  encode_eq_empty : ∀ segment, encode segment = "" ↔ kept segment = ""
  unquote_encode : ∀ segment, unquote (encode segment) =
    String.ofList ((kept segment).toList.map fun c => if plusIsSpace && c = '+' then ' ' else c)

inductive Method
  | get
  | put
  | post
  | delete
deriving DecidableEq, Repr

/-- A request to CouchDB, with the ids its body names. -/
structure HttpRequest where
  method : Method
  path : String
  query : List (String × String)
  ids : List Path
deriving DecidableEq, Repr

/-- Where the hub finds CouchDB: the path of the base URL, and the
database. -/
structure CouchUrl where
  base : String
  db : String

namespace CouchUrl

variable (U : UrlRules) (S : CouchUrl)

def append (path : String) (segments : List String) : String := segments.foldl U.push path

def dbUrl : String := append U S.base [S.db]

/-- A document's id is one segment, so that a path is one document. -/
def docUrl (id : Path) : String := append U (S.dbUrl U) [id]

/-- The request the hub's client makes. -/
def request ⦃β : Type⦄ : CouchReq β → HttpRequest
  | .getDoc id => ⟨.get, S.docUrl U id, [("conflicts", "true")], []⟩
  | .getDocAtRev id rev => ⟨.get, S.docUrl U id, [("rev", toString rev), ("revs", "true")], []⟩
  | .getAttachment id rev =>
    ⟨.get, append U (S.docUrl U id) ["content"], rev.toList.map fun r => ("rev", toString r), []⟩
  | .openRevs id => ⟨.get, S.docUrl U id, [("open_revs", "all"), ("revs", "true")], []⟩
  | .changes since =>
    ⟨.get, append U (S.dbUrl U) ["_changes"],
      ("style", "all_docs") :: since.toList.map fun k => ("since", toString k), []⟩
  | .putDoc _ id _ _ => ⟨.put, S.docUrl U id, [], []⟩
  | .putAttachment _ id rev _ =>
    ⟨.put, append U (S.docUrl U id) ["content"], [("rev", toString rev)], []⟩
  | .deleteDoc _ id rev => ⟨.delete, S.docUrl U id, [("rev", toString rev)], []⟩
  | .bulkDocs doc => ⟨.post, append U (S.dbUrl U) ["_bulk_docs"], [], [doc.id]⟩

end CouchUrl

/-! ## What CouchDB takes a request for -/

inductive Resource
  | server
  | database (db : String)
  /-- `_changes`, `_security`, a design document. -/
  | endpoint (db name : String)
  | document (db : String) (id : Path)
  | attachment (db : String) (id : Path) (names : List String)
deriving DecidableEq, Repr

namespace Resource

def ofNames : List String → Resource
  | [] => .server
  | [db] => .database db
  | db :: name :: names =>
    if startsWith "_" name then .endpoint db name
    else if names = [] then .document db name
    else .attachment db name names

end Resource

namespace CouchUrl

variable (U : UrlRules) (S : CouchUrl)

/-- What a path stands for where CouchDB is mounted at the base; `none` if it
does not lead there. -/
def resource (path : String) : Option Resource :=
  if tokens S.base <+: tokens path then
    some (.ofNames (((tokens path).drop (tokens S.base).length).map U.unquote))
  else none

/-- What a request is about: what its path stands for, or the document that
the body of a `_bulk_docs` request names. -/
def target (req : HttpRequest) : Option Resource :=
  match S.resource U req.path, req.ids with
  | some (.endpoint db "_bulk_docs"), [id] => some (.document db id)
  | r, _ => r

end CouchUrl

namespace CouchReq

/-- The document a request is made for. -/
def id? ⦃β : Type⦄ : CouchReq β → Option Path
  | .getDoc id => some id
  | .getDocAtRev id _ => some id
  | .getAttachment id _ => some id
  | .openRevs id => some id
  | .changes _ => none
  | .putDoc _ id _ _ => some id
  | .putAttachment _ id _ _ => some id
  | .deleteDoc _ id _ => some id
  | .bulkDocs doc => some doc.id

/-- The document its URL is made of. -/
def urlId? ⦃β : Type⦄ : CouchReq β → Option Path
  | .bulkDocs _ => none
  | e => e.id?

/-- The request with another document in its URL. -/
def toDoc (id : Path) ⦃β : Type⦄ : CouchReq β → CouchReq β
  | .getDoc _ => .getDoc id
  | .getDocAtRev _ rev => .getDocAtRev id rev
  | .getAttachment _ rev => .getAttachment id rev
  | .openRevs _ => .openRevs id
  | .changes since => .changes since
  | .putDoc caller _ rev body => .putDoc caller id rev body
  | .putAttachment caller _ rev a => .putAttachment caller id rev a
  | .deleteDoc caller _ rev => .deleteDoc caller id rev
  | .bulkDocs doc => .bulkDocs doc

/-- What a request for a document means to reach: the document or its
content. -/
def meant (db : String) (id : Path) ⦃β : Type⦄ : CouchReq β → Resource
  | .getAttachment _ _ => .attachment db id ["content"]
  | .putAttachment _ _ _ _ => .attachment db id ["content"]
  | _ => .document db id

end CouchReq

end FileSync
