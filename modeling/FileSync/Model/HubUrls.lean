import FileSync.Model.Urls
import FileSync.Common.Percent
import Mathlib.Data.List.DropRight
/-!
# The URLs of the client's requests

The client pushes what it asks for onto the path of its base URL as one
segment, whatever slashes are in it. What the hub serves is the router's to
say, which compares a path as it was sent and percent-decodes what its
wildcard has caught.
-/

namespace FileSync

namespace HttpClient

variable (U : UrlRules)

/-- `HttpClient::new`: the path it keeps of a base URL that has this one. -/
def new (base : String) : String :=
  -- Make sure the last segment is not replaced.
  U.push base "/"

/-- `build_url`, as far as the path goes. -/
def buildUrl (base subPath : String) : String := U.push (new U base) subPath

end HttpClient

namespace HubClient

variable (U : UrlRules) (E : UrlEncoding)

/-- Encodes each segment but keeps the separators. -/
def encodePath (path : Path) : String :=
  "/".intercalate ((path.toList.splitOn '/').map fun segment => E.encode (String.ofList segment))

/-- `changes` and `push` ask here. -/
def changesUrl (base : String) : String := HttpClient.buildUrl U base "changes"

def fileUrl (base : String) (path : Path) : String :=
  HttpClient.buildUrl U base ("file/" ++ encodePath E path)

end HubClient

/-! ## What the hub serves -/

/-- The routes of `build_router`. -/
inductive HubRoute
  | changes
  | longpoll
  | file (path : Path)
  | metadata
deriving DecidableEq, Repr

namespace HubRoute

/-- The router: a literal route is compared with the path as it was sent, and
what the wildcard of `/file/*path` catches, at least one character, is
percent-decoded. -/
def ofPath (decode : String → Option String) (path : String) : Option HubRoute :=
  if path = "/changes" then some .changes
  else if path = "/changes/longpoll" then some .longpoll
  else if path = "/metadata" then some .metadata
  else if startsWith "/file/" path ∧ path ≠ "/file/" then
    (decode (String.ofList (path.toList.drop 6))).map .file
  else none

/-- Where a hub that is mounted at a base URL's path has its routes: at that
path, less the slashes it ends in. -/
def mount (base : String) : List Char := base.toList.rdropWhile (· = '/')

/-- What a hub that is mounted at the base serves a path as. -/
def served (decode : String → Option String) (base path : String) : Option HubRoute :=
  if mount base <+: path.toList then
    ofPath decode (String.ofList (path.toList.drop (mount base).length))
  else none

end HubRoute

end FileSync
