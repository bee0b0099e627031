import Mathlib.Data.List.AList
/-!
# The wire types

What clients and hubs say to each other, and the values both sides name:
paths, revisions, bytes. Strings that the code never looks into are
strings; a revision is read apart into generation and hash where the code
splits it, and the empty string a revision field may hold instead is
`none`.
-/

namespace FileSync

abbrev Path := String

abbrev HubId := String

abbrev Bytes := List UInt8

/-- An opaque continuation token. What a hub hands out is its update
sequence number. -/
abbrev Checkpoint := ℕ

/-- A CouchDB revision, `gen-hash`. -/
structure Rev where
  gen : ℕ
  hash : String
deriving DecidableEq, Repr

namespace Rev

protected def toString (r : Rev) : String := s!"{r.gen}-{r.hash}"

instance : ToString Rev := ⟨Rev.toString⟩

end Rev

/-- What a `content_base64` field holds: the encoding of some bytes, or
text that encodes nothing. -/
inductive Base64
  | encode (bytes : Bytes)
  | malformed (text : String)
deriving DecidableEq, Repr

namespace Base64

/-- The empty text, which encodes no bytes. -/
def empty : Base64 := encode []

/-- `STANDARD.decode`. -/
def decode : Base64 → Except String Bytes
  | encode bytes => .ok bytes
  | malformed text => .error text

end Base64

/-- One line of `GET /changes`: the path's current state. -/
structure ChangeEntry where
  path : Path
  deleted : Bool
  rev : Rev
deriving DecidableEq, Repr

structure ChangesResponse where
  changes : List ChangeEntry
  checkpoint : Checkpoint
deriving DecidableEq, Repr

/-- One local change a client wants to push. `baseRev` is the revision the
client last observed, `none` when it believes the path is not on the hub. -/
structure PushChange where
  path : Path
  deleted : Bool
  baseRev : Option Rev
  mtime : ℤ
  contentType : Option String
  contentBase64 : Option Base64
deriving DecidableEq, Repr

/-- The hub's acknowledgement of one pushed change. -/
structure PushResult where
  path : Path
  rev : Option Rev
deriving DecidableEq, Repr

/-- A file's content plus the metadata the hub attached to it. -/
structure FileContent where
  rev : Option Rev
  mtime : ℤ
  contentType : String
  content : Bytes
deriving DecidableEq, Repr

/-- The text begins with `start`. -/
def startsWith (start text : String) : Bool := start.toList.isPrefixOf text.toList

/-- The names of temporary files end so, whoever wrote them. -/
def endsInTmp (name : String) : Bool := ".tmp".toList.isSuffixOf name.toList

/-- What stands for a content type that nobody gave. -/
def octetStream : String := "application/octet-stream"

end FileSync
