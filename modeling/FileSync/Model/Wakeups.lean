import FileSync.Model.Headers
import FileSync.Model.Watcher
/-!
# Waking devices

The whole of the change watcher: once it has gone through a feed that lists a
user's path, and before it moves on, it asks FCM to wake the devices. What
becomes of that is logged and no more.
-/

namespace FileSync

inductive NotifyError
  | transport
  | api (status : ℕ) (body : String)
deriving DecidableEq, Repr

/-- The body of a wakeup. -/
structure FcmMessage where
  registrationIds : List String
  priority : String
  contentAvailable : Bool
  /-- `data.kind` -/
  kind : String
deriving DecidableEq, Repr

structure FcmClient where
  serverKey : String
  endpoint : String
deriving DecidableEq, Repr

/-- The one request to FCM: it is answered with a status and a body, or is
lost. -/
inductive FcmReq : Type → Type
  | post (endpoint authorization : String) (message : FcmMessage) :
      FcmReq (Option (ℕ × String))

namespace FcmClient

def legacyEndpoint : String := "https://fcm.googleapis.com/fcm/send"

def new (serverKey : String) : FcmClient := ⟨serverKey, legacyEndpoint⟩

def message (tokens : List String) : FcmMessage := ⟨tokens, "high", true, "wake"⟩

def authorization (fcm : FcmClient) : String := s!"key={fcm.serverKey}"

def readResponse : Option (ℕ × String) → Except NotifyError Unit
  | none => .error .transport
  | some (status, body) =>
    if 200 ≤ status ∧ status < 300 then .ok () else .error (.api status body)

def sendWakeup (fcm : FcmClient) (tokens : List String) : Prog FcmReq (Except NotifyError Unit) :=
  if tokens.isEmpty then .done (.ok ())
  else if HeaderValue.accepts fcm.authorization then do
    let resp ← .perform (.post fcm.endpoint fcm.authorization (message tokens))
    return readResponse resp
  -- with a key that is no header value it fails before the request
  else .done (.error .transport)

end FcmClient

/-- What the watcher does with wakeups. -/
abbrev WakingReq := Prog.Either FcmReq WatchReq

namespace Watcher

variable (env : HubEnv) (fcm : Option FcmClient) (tokens : List String)

def changedPaths (resp : WatchedChanges) : List Path :=
  (resp.results.filter fun row => !Routes.isSystemId row.id).map WatchedRow.id

/-- The devices are woken if a path changed and FCM is configured. -/
def wakeDevices (resp : WatchedChanges) : Prog FcmReq Unit :=
  if (changedPaths resp).isEmpty then .done ()
  else
    match fcm with
    | none => .done ()
    | some fcm => do
      match ← fcm.sendWakeup tokens with
      | .ok _ => return ()
      -- only logged
      | .error _ => return ()

/-- What the watcher does besides waking devices. -/
def watching {α : Type} (p : Prog WatchReq α) : Prog WakingReq α :=
  p.expand fun _ e => .perform (.inr e)

/-- `changeWatcher` with its wakeups. -/
def wakingWatcher : ℕ → Option Checkpoint → Prog WakingReq Unit
  | 0, _ => .done ()
  | rounds + 1, since => do
    match ← watching (act (.changesWithDocs since)) with
    | .ok resp =>
      watching (handleRows env resp.lastSeq resp.results)
      (wakeDevices fcm tokens resp).expand fun _ e => .perform (.inl e)
      watching (act (.setSince resp.lastSeq))
      wakingWatcher rounds (some resp.lastSeq)
    | .error _ => wakingWatcher rounds since

end Watcher

/-- A wakeup that was asked for, and the last update by then. -/
structure Wakeup where
  endpoint : String
  authorization : String
  message : FcmMessage
  after : Checkpoint
deriving DecidableEq, Repr

/-- The watcher's surroundings, the wakeups asked for, and where it has moved
on to, the latest first. -/
structure Waking where
  watched : Watched
  wakeups : List Wakeup
  moved : List Checkpoint

/-- What becomes of a request to the database, and of one to FCM. -/
structure WakingFate where
  delivery : Delivery
  fcm : Option (ℕ × String)

namespace Waking

/-- The last update there is. -/
def latest (s : Waking) : Checkpoint := s.watched.db.log.length

def post ⦃β : Type⦄ : FcmReq β → WakingFate → Waking → β × Waking
  | .post endpoint authorization message, o, s =>
    (o.fcm, { s with wakeups := ⟨endpoint, authorization, message, s.latest⟩ :: s.wakeups })

def movesTo ⦃β : Type⦄ : WatchReq β → Option Checkpoint
  | .inl e =>
    match e with
    | .setSince since => some since
    | .changesWithDocs _ | .resolutionFailed .. => none
  | .inr _ => none

def exec (C : Couch) ⦃β : Type⦄ : WakingReq β → WakingFate → Waking → β × Waking
  | .inl e, o, s => post e o s
  | .inr e, o, s =>
    let r := Watched.exec C e o.delivery s.watched
    (r.1, { s with watched := r.2, moved := (movesTo e).toList ++ s.moved })

end Waking

end FileSync
