import FileSync.Model.Routes
import FileSync.Model.Network
/-!
# The change watcher

A task of the hub that polls the database's feed and resolves the conflicts
it is shown. It starts at `since=now`, and moves on to the end of each feed
once it has gone through it, whatever became of the conflicts in it. A poll
that fails is made again from the same place.
-/

namespace FileSync

/-- A row of the feed with `include_docs=true&conflicts=true`. -/
structure WatchedRow where
  id : Path
  conflicts : List Rev
deriving DecidableEq, Repr

structure WatchedChanges where
  results : List WatchedRow
  lastSeq : Checkpoint
deriving DecidableEq, Repr

/-- The live leaves of a document that are not its winner. -/
def Tree.conflicts (t : Tree) : List Rev := (t.doc?.map Doc.conflicts).getD []

/-- The documents written after `since`, each with its conflicts; `none` is
`now`, after which nothing was written. -/
def Couch.watchedSince (db : Db) (since : Option Checkpoint) : WatchedChanges where
  results := (db.log.drop (since.getD db.log.length)).dedup.filterMap fun id =>
    (db.docs id).winner.map fun _ => ⟨id, (db.docs id).conflicts⟩
  lastSeq := db.log.length

/-- What the watcher does itself: it polls, moves on, and logs a conflict it
could not resolve. The end of the feed it was found in is no part of that
message; only a statement about runs uses it. -/
inductive WatcherReq : Type → Type
  | changesWithDocs (since : Option Checkpoint) : WatcherReq (Except HttpFailure WatchedChanges)
  | setSince (since : Checkpoint) : WatcherReq Unit
  | resolutionFailed (path : Path) (error : ResolveError) (lastSeq : Checkpoint) : WatcherReq Unit

/-- What is done by and for the watcher. -/
abbrev WatchReq := Prog.Either WatcherReq CouchReq

namespace Watcher

def act {α : Type} (e : WatcherReq α) : Prog WatchReq α := .perform (.inl e)

variable (env : HubEnv)

def handleRow (lastSeq : Checkpoint) (row : WatchedRow) : Prog WatchReq Unit :=
  if Routes.isSystemId row.id then .done ()
  else if row.conflicts.isEmpty then .done ()
  else do
    match ← (Resolver.resolve env row.id).run.expand fun _ e => .perform (.inr e) with
    | .ok _ => return ()
    | .error e => act (.resolutionFailed row.id e lastSeq)

def handleRows (lastSeq : Checkpoint) : List WatchedRow → Prog WatchReq Unit
  | [] => .done ()
  | row :: rows => do
    handleRow env lastSeq row
    handleRows lastSeq rows

/-- The loop, for a number of rounds. -/
def changeWatcher : ℕ → Option Checkpoint → Prog WatchReq Unit
  | 0, _ => .done ()
  | rounds + 1, since => do
    match ← act (.changesWithDocs since) with
    | .ok resp =>
      handleRows env resp.lastSeq resp.results
      act (.setSince resp.lastSeq)
      changeWatcher rounds (some resp.lastSeq)
    -- the place is kept: what lands meanwhile would be skipped
    | .error _ => changeWatcher rounds since

end Watcher

/-- The database, and where the watcher has got to. -/
structure Watched where
  db : Db
  since : Option Checkpoint

namespace Watched

/-- The watcher's own acts; a poll may be lost. -/
def act ⦃β : Type⦄ : WatcherReq β → Delivery → Watched → β × Watched
  | .changesWithDocs since, o, s =>
    (if o = .delivered then .ok (Couch.watchedSince s.db since) else .error .transport, s)
  | .setSince since, _, s => ((), { s with since := some since })
  | .resolutionFailed _ _ _, _, s => ((), s)

/-- A request is delivered, or it is lost, or its answer is. -/
def exec (C : Couch) ⦃β : Type⦄ : WatchReq β → Delivery → Watched → β × Watched
  | .inl e, o, s => act e o s
  | .inr e, o, s =>
    let r := C.answer e s.db
    match o with
    | .delivered => (r.1, { s with db := r.2 })
    | .unsent => (e.lost, s)
    | .unanswered => (e.lost, { s with db := r.2 })

end Watched

end FileSync
