import FileSync.Model.Protocol
import Mathlib.Data.List.DropRight
import Mathlib.Data.List.Infix
/-!
# Reading what `open_revs=all` answers

CouchDB answers with one part of a multipart body for each leaf, or with a
JSON array. How a text is read as JSON is a parameter.
-/

namespace FileSync

/-- `serde_json::Value`. -/
inductive Json
  | null
  | bool (b : Bool)
  | number (literal : String)
  | string (s : String)
  | array (items : List Json)
  | object (members : List (String × Json))

/-- What is used of `serde_json`: a value read from a text, and an array of
values read from a body. -/
structure Serde where
  fromStr : String → Option Json
  fromSlice : Bytes → Option (List Json)

namespace CouchClient

/-- `char::is_whitespace`. -/
def isWhitespace (c : Char) : Bool :=
  let n := c.toNat
  (9 ≤ n && n ≤ 13) || n = 32 || n = 0x85 || n = 0xA0 || n = 0x1680 || (0x2000 ≤ n && n ≤ 0x200A)
    || n = 0x2028 || n = 0x2029 || n = 0x202F || n = 0x205F || n = 0x3000

/-- `str::trim`. -/
def trim (s : String) : String :=
  String.ofList ((s.toList.dropWhile isWhitespace).rdropWhile isWhitespace)

/-- A line that is no text is an empty one. -/
def lineText (line : Bytes) : String := trim ((String.fromUTF8? ⟨line.toArray⟩).getD "")

/-- A leaf's document comes on a line that starts with `{`. -/
def leafOfLine (S : Serde) (line : Bytes) : Option Json :=
  if startsWith "\x7b" (lineText line) then S.fromStr (lineText line) else none

def isMultipart (contentType : String) : Bool :=
  decide ("multipart".toList <:+: contentType.toList)

def parseOpenRevs (S : Serde) (contentType : String) (body : Bytes) : List Json :=
  if isMultipart contentType then (body.splitOn 10).filterMap (leafOfLine S)
  else (S.fromSlice body).getD []

end CouchClient

end FileSync
