import FileSync.Model.HubClient
/-!
# Devices and hubs

The engine's calls opened into what they come to: an operation on the
device's own stores, or a message that gets through to a hub or does not,
the requests the hub makes to its database, and an answer that gets back or
does not. Any of these may have those of other devices in between.
-/

namespace FileSync

/-- Which of a device's operations a store operation belongs to. It is no
part of the operation: only statements about who wrote what use it. -/
inductive Origin
  | record
  | sync
deriving DecidableEq, Repr

/-- A message between a device and a hub. -/
inductive LinkReq : Type → Type
  | message (hub : HubId) : LinkReq Bool

/-- Everything that is done by or for a device. -/
inductive NetReq (β : Type) : Type
  | store (origin : Origin) (e : EngineReq β)
  | link (e : LinkReq β)
  | couch (hub : HubId) (e : CouchReq β)

/-- What becomes of a message or a request: it is delivered and answered, it
is lost, or its answer is. -/
inductive Delivery
  | delivered
  | unsent
  | unanswered
deriving DecidableEq, Repr

/-- A message gets through if it is delivered. -/
def LinkReq.answer ⦃β : Type⦄ : LinkReq β → Delivery → β
  | .message _, o => decide (o = .delivered)

namespace NetReq

/-- A hub's program. -/
def onHub {α : Type} (hub : HubId) (p : Prog CouchReq α) : Prog NetReq α :=
  p.expand fun _ e => .perform (.couch hub e)

/-- A request to a hub, there and back. -/
def overLink {α : Type} (hub : HubId) (p : Prog CouchReq (Except HubError α)) :
    Prog NetReq (Except HubError α) := do
  if ← .perform (.link (.message hub)) then
    let r ← onHub hub p
    if ← .perform (.link (.message hub)) then return r
    return .error (.transport "")
  return .error (.transport "")

/-- What an engine's call comes to. -/
def opened (env : HubEnv) (origin : Origin) ⦃β : Type⦄ : EngineReq β → Prog NetReq β
  | .hubChanges hub since => overLink hub (HubClient.changes since)
  | .hubGetFile hub path => overLink hub (HubClient.getFile path)
  | .hubPush hub batch => overLink hub (HubClient.push env batch)
  | e => .perform (.store origin e)

end NetReq

/-- The devices' stores and the hubs' databases. -/
structure Net (ι : Type) where
  stores : ι → MemStore
  hubs : HubId → Db

namespace Net

variable {ι : Type} [DecidableEq ι]

/-- No store operation fails; messages and requests fare as they may. -/
def exec (C : Couch) (i : ι) ⦃β : Type⦄ : NetReq β → Delivery → Net ι → β × Net ι
  | .store _ e, _, s =>
    let r := MemStore.exec e .unreachable (s.stores i)
    (r.1, { s with stores := Function.update s.stores i r.2 })
  | .link e, o, s => (e.answer o, s)
  | .couch hub e, o, s =>
    let r := C.answer e (s.hubs hub)
    let s' := { s with hubs := Function.update s.hubs hub r.2 }
    match o with
    | .delivered => (r.1, s')
    | .unsent => (e.lost, s)
    | .unanswered => (e.lost, s')

end Net

end FileSync
