import FileSync.Model.Engine
import FileSync.Model.Routes
/-!
# The client's side of a hub request

What the engine gets back from each of the three requests, as the program
the hub runs for it: an error answer is passed on with its status, and a
missing file is no error.
-/

namespace FileSync

/-- An error answer as the client sees it. -/
def ApiError.toHubError (e : ApiError) : HubError := .api e.status e.message

namespace HubClient

def changes (since : Option Checkpoint) : Prog CouchReq (Except HubError ChangesResponse) :=
  ((Routes.getChanges since).adapt ApiError.toHubError).run

/-- `None` when the hub has no such file. -/
def getFile (path : Path) : Prog CouchReq (Except HubError (Option FileContent)) :=
  (Routes.getFile path).run >>= fun r => .done <|
    match r with
    | .ok file => .ok (some file)
    | .error e => if e.status = 404 then .ok none else .error e.toHubError

def push (env : HubEnv) (batch : List PushChange) :
    Prog CouchReq (Except HubError (List PushResult)) :=
  ((Push.postChanges env batch).adapt ApiError.toHubError).run

end HubClient

/-! ## One device and one hub -/

/-- A device's stores, what its notifier was told, and the hub's
database. -/
structure World where
  store : MemStore
  notified : List SyncError
  db : Db

/-- Nothing fails: the stores do as they are told, every request reaches
the hub and is answered. -/
def World.exec (C : Couch) (env : HubEnv) ⦃β : Type⦄ : EngineReq β → World → β × World
  | .hubChanges _ since, w =>
    let r := (HubClient.changes since).run C.answer w.db
    (r.1, { w with db := r.2 })
  | .hubGetFile _ path, w =>
    let r := (HubClient.getFile path).run C.answer w.db
    (r.1, { w with db := r.2 })
  | .hubPush _ batch, w =>
    let r := (HubClient.push env batch).run C.answer w.db
    (r.1, { w with db := r.2 })
  | .notifyError e, w => ((), { w with notified := w.notified ++ [e] })
  | e, w =>
    let r := MemStore.exec e .unreachable w.store
    (r.1, { w with store := r.2 })

end FileSync
