import FileSync.Model.Desktop
import FileSync.Model.Network
/-!
# The desktop client's tasks

`main` makes a pass at startup and another one after each burst of signals,
once none has come for the debounce time. A poller for each hub holds a long
poll open and signals when an answer lists changes; a thread that watches the
directory signals on any event. A signal says nothing but that something has
changed, and signals wait in a channel that main alone takes them from.

Timers are not counted: one that is running may run out at any time.
-/

namespace FileSync

/-- A hub's checkpoint, for clients that long-poll without pulling. -/
def SyncEngine.checkpoint (hub : HubId) : Engine (Option Checkpoint) := do
  return (← store (.metaGet (checkpointKey hub))).bind Blob.toCheckpoint?

/-! ## A pass -/

/-- Everything that is done by or for the desktop client. -/
abbrev SiteReq := Prog.Either NetReq OsReq

/-- What a call of the desktop client comes to. -/
def Desktop.opened (env : HubEnv) ⦃β : Type⦄ : DesktopReq β → Prog SiteReq β
  | .inl e => (NetReq.opened env .sync e).expand fun _ e => .perform (.inl e)
  | .inr e => .perform (.inr e)

/-- The client's directory and metadata, and the hubs' databases. -/
structure Site where
  desk : Desktop
  hubs : HubId → Db

namespace Site

/-- No metadata operation fails, a file operation does what the directory
lets it; messages and requests fare as they may. -/
def exec (C : Couch) ⦃β : Type⦄ : SiteReq β → Delivery → Site → β × Site
  | .inl (.store _ e), _, s =>
    let r := Desktop.engineExec e .unreachable s.desk
    (r.1, { s with desk := r.2 })
  | .inl (.link e), o, s => (e.answer o, s)
  | .inl (.couch hub e), o, s =>
    let r := C.answer e (s.hubs hub)
    let s' := { s with hubs := Function.update s.hubs hub r.2 }
    match o with
    | .delivered => (r.1, s')
    | .unsent => (e.lost, s)
    | .unanswered => (e.lost, s')
  | .inr e, _, s =>
    let r := Desktop.osExec e s.desk
    (r.1, { s with desk := r.2 })

/-- The next call of a program. -/
def advance {α : Type} (C : Couch) (o : Delivery) (s : Site) : Prog SiteReq α → Prog SiteReq α × Site
  | .done a => (.done a, s)
  | .call e k =>
    let r := exec C e o s
    (k r.1, r.2)

end Site

/-! ## The pollers -/

/-- Where a poller is in its loop. Times are in seconds. -/
inductive Poller
  /-- The checkpoint to begin at is still to be read. -/
  | starting
  /-- A long poll is under way. -/
  | asking (since : Option Checkpoint) (backoff : ℕ)
  /-- The hub has answered it, or it has failed. -/
  | answered (since : Option Checkpoint) (backoff : ℕ) (resp : Except HubError ChangesResponse)
  | sleeping (since : Option Checkpoint) (backoff : ℕ)
  /-- The main loop is gone. -/
  | stopped
deriving DecidableEq

namespace Poller

def backoffInitial : ℕ := 1

def backoffMax : ℕ := 30

/-- What a poller does with an answer, and whether it signals. -/
def receive (since : Option Checkpoint) (backoff : ℕ) :
    Except HubError ChangesResponse → Poller × Bool
  | .ok resp => (.asking (some resp.checkpoint) backoffInitial, !resp.changes.isEmpty)
  | .error _ => (.sleeping since backoff, false)

end Poller

/-! ## The main loop -/

/-- What a pass is made for. -/
inductive Occasion
  | startup
  | signalled
  | shutdown
deriving DecidableEq, Repr

/-- Where `main` is. -/
inductive MainLoop
  | passing (occasion : Occasion) (rest : Prog SiteReq (Except DesktopError SyncReport))
  /-- It waits for a signal, or for the process to be told to end. -/
  | receiving
  /-- It waits until no signal has come for a while. -/
  | debouncing
  | stopped

instance : ∀ m : MainLoop, Decidable (m = .receiving)
  | .receiving => .isTrue rfl
  | .passing _ _ | .debouncing | .stopped => .isFalse nofun

/-- The client's process and what it works on. -/
structure Client where
  main : MainLoop
  /-- The signals in the channel. -/
  signals : ℕ
  poller : HubId → Poller
  /-- What the last pass came to. -/
  last : Option (Except DesktopError SyncReport)
  site : Site

/-- A revision that is written at a hub by anybody else. -/
structure HubWrite where
  hub : HubId
  path : Path
  node : Node
  pos : 0 < node.rev.gen

/-- What happens next, where it can. -/
inductive ClientMove
  /-- Main goes on: a call of its pass, or a signal that it takes. -/
  | main (o : Delivery)
  /-- The debounce time has passed. -/
  | quiet
  /-- SIGTERM or SIGINT. -/
  | terminate
  /-- The last pass has taken too long. -/
  | timeout
  /-- A poller goes on; a long poll may fail. -/
  | poll (hub : HubId) (failure : Option HubError)
  /-- The thread that watches the directory signals. -/
  | changed
  /-- The user changes the directory, and time passes. -/
  | edit (disk : Disk) (now : ℤ)
  | written (w : HubWrite)

namespace Client

variable (C : Couch) (env : HubEnv) (eng : SyncEngine) (mimeOf : Path → String)

/-- `reconcile_and_sync`. The report of a pass is kept, so that it can be said
which hub it pulled from; the source logs its counts. -/
def pass : Prog SiteReq (Except DesktopError SyncReport) :=
  (Desktop.reconcileAndReport eng mimeOf).run.expand (Desktop.opened env)

/-- The process before its first pass. -/
def start (site : Site) : Client where
  main := .passing .startup (pass env eng mimeOf)
  signals := 0
  poller _ := .stopped
  last := none
  site := site

/-- A pass has ended. One that fails at startup ends the process; after the
first one the pollers are spawned. -/
def passed (c : Client) (r : Except DesktopError SyncReport) : Occasion → Client
  | .startup =>
    match r with
    | .ok _ => { c with
        main := .receiving, last := some r
        poller := fun hub => if hub ∈ eng.hubs then .starting else .stopped }
    | .error _ => { c with main := .stopped, last := some r }
  | .signalled => { c with main := .receiving, last := some r }
  | .shutdown => { c with main := .stopped, last := some r }

/-- Main's next step. -/
def mainStep (c : Client) (o : Delivery) : Client :=
  match c.main with
  | .passing occasion rest =>
    match rest.result? with
    | some r => c.passed eng r occasion
    | none =>
      let r := c.site.advance C o rest
      { c with main := .passing occasion r.1, site := r.2 }
  | .receiving | .debouncing =>
    if c.signals = 0 then c else { c with main := .debouncing, signals := c.signals - 1 }
  | .stopped => c

/-- A poller signals, which fails once the main loop is gone. -/
def signal (c : Client) (hub : HubId) (next : Poller) : Client :=
  match c.main with
  | .stopped => { c with poller := Function.update c.poller hub .stopped }
  | _ => { c with poller := Function.update c.poller hub next, signals := c.signals + 1 }

/-- What the hub answers a long poll when it does. -/
def longpoll (c : Client) (hub : HubId) (since : Option Checkpoint) :
    Option HubError → Except HubError ChangesResponse
  | none => ((HubClient.changes since).run C.answer (c.site.hubs hub)).1
  | some e => .error e

/-- A poller's next step. -/
def pollStep (c : Client) (hub : HubId) (failure : Option HubError) : Client :=
  match c.poller hub with
  | .starting =>
    -- a checkpoint that cannot be read counts as none
    let since := match ((SyncEngine.checkpoint hub).run.run
        (fun _ e s => Desktop.engineExec e .unreachable s) c.site.desk).1 with
      | .ok since => since
      | .error _ => none
    { c with poller := Function.update c.poller hub (.asking since Poller.backoffInitial) }
  | .asking since backoff =>
    { c with poller :=
        Function.update c.poller hub (.answered since backoff (c.longpoll C hub since failure)) }
  | .answered since backoff resp =>
    let r := Poller.receive since backoff resp
    if r.2 then c.signal hub r.1 else { c with poller := Function.update c.poller hub r.1 }
  | .sleeping since backoff =>
    { c with poller :=
        Function.update c.poller hub (.asking since (min (backoff * 2) Poller.backoffMax)) }
  | .stopped => c

def step (c : Client) : ClientMove → Client
  | .main o => c.mainStep C eng o
  | .quiet =>
    match c.main with
    | .debouncing =>
      -- a signal that is there is taken before the time is looked at
      if c.signals = 0 then { c with main := .passing .signalled (pass env eng mimeOf) } else c
    | _ => c
  | .terminate =>
    match c.main with
    | .receiving => { c with main := .passing .shutdown (pass env eng mimeOf) }
    | _ => c
  | .timeout =>
    match c.main with
    | .passing .shutdown _ => { c with main := .stopped }
    | _ => c
  | .poll hub failure => c.pollStep C hub failure
  | .changed =>
    match c.main with
    -- the thread is started after the first pass
    | .passing .startup _ | .stopped => c
    | _ => { c with signals := c.signals + 1 }
  | .edit disk now => { c with site.desk := { c.site.desk with disk := disk, now := now } }
  | .written w => { c with
      site.hubs := Function.update c.site.hubs w.hub ((c.site.hubs w.hub).write w.path w.node) }

def runs (c : Client) (ms : List ClientMove) : Client :=
  ms.foldl (step C env eng mimeOf) c

end Client

end FileSync
