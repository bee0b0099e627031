import FileSync.Common.Decimal
import FileSync.Model.OpenRevs
import Mathlib.Data.Finset.Dedup
/-!
# The hub's configuration

All of it comes from environment variables. A variable that is blank is as
one that is not set: it has its default, or the hub does not start. A list is
what stands between commas, without the white space around it, and blank
entries are none.
-/

namespace FileSync

/-- What `std::env::var` finds. -/
inductive EnvVar
  | notPresent
  | notUnicode
  | value (value : String)
deriving DecidableEq, Repr

/-- The process's environment. -/
abbrev Vars := String → EnvVar

inductive EnvError
  /-- `env var {key} isn't unicode!` -/
  | notUnicode (key : String)
  /-- `env var {key} is empty` -/
  | empty (key : String)
  /-- `must be an integer, got {value:?}` -/
  | notInteger (value : String)
deriving DecidableEq, Repr

namespace Env

open CouchClient (trim)

def fetchEnv (vars : Vars) (key : String) : Except EnvError String :=
  match vars key with
  | .value value => .ok value
  | .notPresent => .ok ""
  | .notUnicode => .error (.notUnicode key)

class TryFromEnv (α : Type) where
  tryFromEnv : String → Except EnvError α

export TryFromEnv (tryFromEnv)

instance : TryFromEnv String where
  tryFromEnv value := .ok value

/-- An `i32`. -/
instance : TryFromEnv ℤ where
  tryFromEnv value :=
    match Decimal.parse 32 value with
    | some n => .ok n
    | none => .error (.notInteger value)

instance : TryFromEnv (List String) where
  tryFromEnv value :=
    let items := ((value.toList.splitOn ',').map fun field => trim (String.ofList field)).filter
      fun s => !s.isEmpty
    .ok items

example : tryFromEnv " phone, laptop ,," = (.ok ["phone", "laptop"] : Except EnvError (List String)) :=
  by decide +kernel

/-- A `HashSet`. -/
instance : TryFromEnv (Finset String) where
  tryFromEnv value := do
    let a : List String ← tryFromEnv value
    return a.toFinset

variable {α : Type} [TryFromEnv α] (vars : Vars)

structure RequiredEnv (α : Type) where
  key : String
  default : Option α

def RequiredEnv.load (env : RequiredEnv α) : Except EnvError α := do
  let value ← fetchEnv vars env.key
  -- a variable of blanks is as good as none
  if (trim value).isEmpty then
    match env.default with
    | some default => return default
    | none => throw (.empty env.key)
  else tryFromEnv value

structure OptionalEnv where
  key : String

def OptionalEnv.load (env : OptionalEnv) : Except EnvError (Option α) := do
  let value ← fetchEnv vars env.key
  if (trim value).isEmpty then return none
  else return some (← tryFromEnv value)

def default (key : String) (default : α) : Except EnvError α := RequiredEnv.load vars ⟨key, default⟩

def required (key : String) : Except EnvError α := RequiredEnv.load vars ⟨key, none⟩

def optional (key : String) : Except EnvError (Option α) := OptionalEnv.load vars ⟨key⟩

end Env

/-- `Config` of the hub. -/
structure HubConfig where
  bindAddr : String
  couchUrl : String
  couchDb : String
  couchUser : String
  couchPassword : String
  /-- The bearer tokens that every route accepts. -/
  deviceTokens : Finset String
  fcmServerKey : Option String
  fcmDeviceTokens : Option (List String)
  discordWebhookUrl : Option String
  watcherPollSecs : ℤ
  replStalenessSecs : ℤ
deriving DecidableEq

def HubConfig.fromEnv (vars : Vars) : Except EnvError HubConfig := do
  let bindAddr ← Env.default vars "HUB_BIND_ADDR" "0.0.0.0:8080"
  let couchUrl ← Env.default vars "COUCH_URL" "http://localhost:5984"
  let couchDb ← Env.default vars "COUCH_DB" "filesync"
  let couchUser ← Env.default vars "COUCH_USER" "hub"
  let couchPassword ← Env.default vars "COUCH_PASSWORD" "hub-password"
  let deviceTokens ← Env.required vars "HUB_DEVICE_TOKENS"
  let fcmServerKey ← Env.optional vars "FCM_SERVER_KEY"
  let fcmDeviceTokens ← Env.optional vars "HUB_FCM_TOKENS"
  let discordWebhookUrl ← Env.optional vars "DISCORD_WEBHOOK_URL"
  let watcherPollSecs ← Env.default vars "HUB_WATCHER_POLL_SECS" 2
  let replStalenessSecs ← Env.default vars "HUB_REPL_STALENESS_SECS" 300
  return ⟨bindAddr, couchUrl, couchDb, couchUser, couchPassword, deviceTokens, fcmServerKey,
    fcmDeviceTokens, discordWebhookUrl, watcherPollSecs, replStalenessSecs⟩

end FileSync
