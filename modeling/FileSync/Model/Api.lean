import FileSync.Model.Routes
import FileSync.Model.HubUrls
import FileSync.Model.Startup
/-!
# The hub's HTTP interface

A path that is one of the router's is answered once the request's bearer
token has been found among the device tokens; any other path is not found,
whatever the token. A preflight is answered before either.
-/

namespace FileSync

inductive ApiMethod
  | get
  | head
  | post
  | options
  | other (name : String)
deriving DecidableEq, Repr

/-- A request as axum's extractors read it. What they cannot read they refuse
with a status. -/
structure ApiRequest where
  method : ApiMethod
  path : String
  /-- `TypedHeader<Authorization<Bearer>>` -/
  bearer : Except ℕ String
  /-- `Query<ChangesQuery>`, and `Query<LongpollQuery>` less its timeout -/
  since : Except ℕ (Option Checkpoint)
  /-- `Json<Vec<PushChange>>` -/
  pushes : Except ℕ (List PushChange)

inductive ApiAnswer
  | preflight
  | changes (response : ChangesResponse)
  | pushed (results : List PushResult)
  | file (content : FileContent)
  | metadata (uuid : String)
  | error (e : ApiError)
  | status (code : ℕ)
deriving DecidableEq

/-- `StatusCode::UNAUTHORIZED` -/
def unauthorized : ℕ := 401

/-- What a handler's result is answered as. -/
def ApiAnswer.ofResult {α : Type} (f : α → ApiAnswer) : Except ApiError α → ApiAnswer
  | .ok a => f a
  | .error e => .error e

/-- What a hub has started with. -/
structure Api where
  env : HubEnv
  deviceTokens : Finset String
  /-- Percent-decoding, as axum's `Path` does it. -/
  decode : String → Option String
  /-- `CouchClient::get_metadata` -/
  couchMetadata : Hub CouchError String

namespace Api

variable (api : Api)

def run {α : Type} (f : α → ApiAnswer) (handler : Hub ApiError α) : Prog CouchReq ApiAnswer :=
  handler.run >>= fun r => .done (.ofResult f r)

/-- Once an extractor has read its part of the request. -/
def extract {α : Type} (part : Except ℕ α) (handler : α → Prog CouchReq ApiAnswer) :
    Prog CouchReq ApiAnswer :=
  match part with
  | .ok a => handler a
  | .error code => .done (.status code)

/-- `require_device_token` -/
def requireDeviceToken (req : ApiRequest) (next : Prog CouchReq ApiAnswer) :
    Prog CouchReq ApiAnswer :=
  extract req.bearer fun token =>
    if token ∈ api.deviceTokens then next else .done (.status unauthorized)

/-- The route's handler. -/
def getMetadata : Hub ApiError String := api.couchMetadata.adapt CouchError.toApi

/-- A `get` answers a HEAD too. -/
def isGet : ApiMethod → Bool
  | .get | .head => true
  | _ => false

/-- A route's handler for the request's method. A long poll is the feed at
the moment CouchDB answers it. -/
def respond (route : HubRoute) (req : ApiRequest) : Prog CouchReq ApiAnswer :=
  match route with
  | .changes =>
    if isGet req.method then extract req.since fun since => run .changes (Routes.getChanges since)
    else if req.method = .post then
      extract req.pushes fun pushes => run .pushed (Push.postChanges api.env pushes)
    else .done (.status 405)
  | .longpoll =>
    if isGet req.method then extract req.since fun since => run .changes (Routes.getChanges since)
    else .done (.status 405)
  | .file path =>
    if isGet req.method then run .file (Routes.getFile path) else .done (.status 405)
  | .metadata =>
    if isGet req.method then run .metadata api.getMetadata else .done (.status 405)

/-- The path is one of `build_router`'s. -/
def matched (path : String) : Bool :=
  path = "/changes" || path = "/changes/longpoll" || path = "/metadata" ||
    (startsWith "/file/" path && path ≠ "/file/")

/-- `build_router`: the token is asked for on the routes, and the permissive
CORS layer is around everything. -/
def serve (req : ApiRequest) : Prog CouchReq ApiAnswer :=
  if req.method = .options then .done .preflight
  else if matched req.path then
    api.requireDeviceToken req
      (match HubRoute.ofPath api.decode req.path with
      | some route => api.respond route req
      -- what the wildcard caught does not decode
      | none => .done (.status 400))
  else .done (.status 404)

end Api

end FileSync
