import FileSync.Common.Decimal
import FileSync.Model.Headers
import FileSync.Model.HubClient
/-!
# A file on its way

`GET /file` answers with the bytes and three headers. What is no header value
is replaced before it is sent; blanks at the ends of one do not arrive; and
what arrives is read as text if it is visible ASCII.
-/

namespace FileSync

/-- The answer's headers and its body. -/
structure FileResponse where
  contentType : String
  rev : String
  mtime : String
  content : Bytes
deriving DecidableEq, Repr

/-- What the other side receives. -/
def FileResponse.arrived (r : FileResponse) : FileResponse where
  contentType := HeaderValue.arrived r.contentType
  rev := HeaderValue.arrived r.rev
  mtime := HeaderValue.arrived r.mtime
  content := r.content

/-- A revision as the document has it, or the text that stands for none. -/
def revText (rev : Option Rev) : String := (rev.map toString).getD ""

/-- The answer of `get_file`. -/
def Routes.fileResponse (lenient : Bool) (file : FileContent) : FileResponse where
  contentType := (HeaderValue.fromStr lenient file.contentType).getD octetStream
  rev := (HeaderValue.fromStr lenient (revText file.rev)).getD ""
  mtime := (HeaderValue.fromStr lenient (toString file.mtime)).getD "0"
  content := file.content

/-- `FileContent` of the client. -/
structure FetchedFile where
  rev : String
  mtime : ℤ
  contentType : String
  content : Bytes
deriving DecidableEq, Repr

namespace HubClient

/-- A header that is there. -/
def header (name value : String) : Except HubError String :=
  match HeaderValue.toStr value with
  | some text => .ok text
  | none => .error (.decode s!"Header {name} has an invalid value.")

/-- One that need not be there. -/
def contentType (response : FileResponse) : String :=
  match header "content-type" response.contentType with
  | .ok contentType => contentType
  | .error _ => octetStream

/-- What `get_file` makes of an answer. -/
def readFile (response : FileResponse) : Except HubError FetchedFile := do
  let rev ← header "x-file-rev" response.rev
  let mtime ←
    match Decimal.parse 64 (← header "x-file-mtime" response.mtime) with
    | some mtime => pure mtime
    | none => throw (.decode "non-numeric x-file-mtime")
  return ⟨rev, mtime, contentType response, response.content⟩

end HubClient

end FileSync
