import FileSync.Model.Desktop
import FileSync.Common.Links
/-!
# The thread that watches the directory

The kernel reports what happens to the entries of a directory only where the
directory itself is watched. The thread watches the whole tree at the start
and each directory that appears when it comes to the event, descending into
what it finds there at that time, while the tree changes under it.

A watch is set on a path and stays with the directory the path led to, which
the thread then knows by the path it used. `watch_tree` calls itself for each
entry; what is left of it is a list of things to do. Where a call of it fails,
or an event is lost because too many are queued, the thread goes on as if
nothing had happened. A directory has one path: there are no symbolic links to
one.
-/

namespace FileSync

/-- A directory. All watches on one have the same descriptor, which no other
has. -/
abbrev DirId := ℕ

/-- The directories under the synced one, which is 0. Others may be elsewhere
in the file system. -/
abbrev Folders := Links DirId String 0

/-- The bits the thread looks at. -/
structure EventMask where
  create : Bool
  movedTo : Bool
  isDir : Bool
  ignored : Bool
deriving DecidableEq, Repr

structure InotifyEvent where
  wd : DirId
  mask : EventMask
  name : Option String
deriving DecidableEq, Repr

/-- What is left to do of a `watch_tree`. -/
inductive WatchTask
  | add (path : Place)
  | list (path : Place)
  /-- An entry, which is watched if it is a directory. -/
  | check (path : Place)
deriving DecidableEq, Repr

/-- Where the thread is. -/
inductive WatchPhase
  /-- There is no watch, because none has been set up or it has failed. -/
  | down
  | starting (todo : List WatchTask)
  /-- It waits for events. -/
  | waiting
  | handling (events : List InotifyEvent)
  /-- It watches a directory that has appeared, and has more events to come
  to. -/
  | watching (todo : List WatchTask) (events : List InotifyEvent)
deriving DecidableEq, Repr

namespace WatchPhase

def todo : WatchPhase → List WatchTask
  | starting todo | watching todo _ => todo
  | _ => []

def events : WatchPhase → List InotifyEvent
  | handling events | watching _ events => events
  | _ => []

end WatchPhase

/-- The directories, the kernel's watches and events, and the thread. -/
structure Inotify where
  folders : Folders
  watches : DirId → Bool
  queue : List InotifyEvent
  /-- How many events the kernel queues. -/
  limit : ℕ
  /-- An event has been lost, or a call of a `watch_tree` has failed, since the
  watch was set up. -/
  missed : Bool
  phase : WatchPhase
  /-- The directories the thread knows by their descriptors. -/
  dirs : DirId → Option Place
  failures : ℕ
  /-- The signals it has sent. -/
  sent : ℕ
  /-- The notifications the user was shown. -/
  shown : ℕ

/-- What happens next, where it can. A directory that is renamed is moved
away and appears. -/
inductive InotifyMove
  | appear (parent : DirId) (name : String) (dir : DirId) (moved : Bool)
  | moveAway (parent : DirId) (name : String)
  | rmdir (parent : DirId) (name : String)
  /-- Anything else that happens to a directory or to an entry of it. -/
  | touch (dir : DirId) (name : Option String) (create movedTo isDir : Bool)
  /-- The thread sets up the watch, or fails to. -/
  | setUp (ok : Bool)
  /-- It is given some of the events there are. -/
  | read (more : ℕ)
  /-- It cannot read events. -/
  | fail
  /-- It goes on. -/
  | work
  /-- It goes on, and if it makes a system call for that, the call fails. -/
  | workFailing
deriving DecidableEq, Repr

namespace Inotify

/-- The thread before it has set up anything. -/
def start (folders : Folders) (limit : ℕ) : Inotify :=
  ⟨folders, fun _ => false, [], limit, false, .down, fun _ => none, 0, 0, 0⟩

/-- An event is queued if its directory is watched, unless it is the same as
the last. -/
def emit (s : Inotify) (dir : DirId) (mask : EventMask) (name : Option String) : Inotify :=
  if s.watches dir then
    if s.queue.getLast? = some ⟨dir, mask, name⟩ then s
    else if s.queue.length < s.limit then { s with queue := s.queue ++ [⟨dir, mask, name⟩] }
    -- the event that says so is of no directory, and is passed over
    else { s with missed := true }
  else s

/-- One more failure; a repeated one is shown. -/
def failed (s : Inotify) : Inotify :=
  { s with
    watches := fun _ => false, queue := [], missed := false, phase := .down, dirs := fun _ => none
    failures := s.failures + 1, shown := if 0 < s.failures then s.shown + 1 else s.shown }

/-- One thing of a `watch_tree` whose call fails. -/
def skip (s : Inotify) (rest : List WatchTask) : WatchTask → Inotify × List WatchTask
  | .add path => ({ s with missed := true }, .list path :: rest)
  | .list _ | .check _ => ({ s with missed := true }, rest)

/-- One thing of a `watch_tree`, and what is left of it then. -/
def perform (s : Inotify) (rest : List WatchTask) : WatchTask → Inotify × List WatchTask
  | .add path =>
    match s.folders.resolve path with
    | some d => ({ s with
        watches := Function.update s.watches d true
        dirs := Function.update s.dirs d (some path) }, .list path :: rest)
    -- a path that leads nowhere cannot be watched, and has no entries
    | none => (s, .list path :: rest)
  | .list path =>
    match s.folders.resolve path with
    | some d => (s, ((s.folders.names d).map fun n => .check (path ++ [n])) ++ rest)
    | none => (s, rest)
  | .check path =>
    match s.folders.resolve path with
    | some _ => (s, .add path :: rest)
    | none => (s, rest)

/-- What the thread does about an event: it skips it, or signals, or watches
a directory first. -/
def handle (s : Inotify) (e : InotifyEvent) (rest : List InotifyEvent) : Inotify :=
  if e.mask.ignored then { s with phase := .handling rest }
  else
    match s.dirs e.wd with
    | none => { s with phase := .handling rest }
    | some dir =>
      match e.name with
      -- on the watched directory itself
      | none => { s with phase := .handling rest, sent := s.sent + 1 }
      | some name =>
        if e.mask.isDir && (e.mask.create || e.mask.movedTo) then
          { s with phase := .watching [.add (dir ++ [name])] rest }
        else { s with phase := .handling rest, sent := s.sent + 1 }

/-- The thread's next step, `perform` being how it does a thing of a
`watch_tree`. -/
def workStep (perform : Inotify → List WatchTask → WatchTask → Inotify × List WatchTask)
    (s : Inotify) : Inotify :=
  match s.phase with
  | .down => s
  | .starting [] => { s with phase := .waiting }
  | .starting (t :: todo) =>
    let r := perform s todo t
    { r.1 with phase := .starting r.2 }
  | .waiting => s
  | .handling [] => { s with phase := .waiting }
  | .handling (e :: events) => s.handle e events
  | .watching [] events => { s with phase := .handling events, sent := s.sent + 1 }
  | .watching (t :: todo) events =>
    let r := perform s todo t
    { r.1 with phase := .watching r.2 events }

def step (s : Inotify) : InotifyMove → Inotify
  | .appear p n d moved =>
    if s.folders.Hangs p n d then
      emit { s with folders := s.folders.link p n d } p ⟨!moved, moved, true, false⟩ (some n)
    else s
  | .moveAway p n =>
    match s.folders.child? p n with
    | some _ => emit { s with folders := s.folders.unlink p n } p ⟨false, false, true, false⟩ (some n)
    | none => s
  | .rmdir p n =>
    match s.folders.child? p n with
    | some d =>
      if s.folders.names d = [] then
        let s' := emit { s with folders := s.folders.unlink p n } p ⟨false, false, true, false⟩ (some n)
        -- the watch goes with the directory
        let s' := s'.emit d ⟨false, false, false, true⟩ none
        { s' with watches := Function.update s'.watches d false }
      else s
    | none => s
  | .touch d name create movedTo isDir => s.emit d ⟨create, movedTo, isDir, false⟩ name
  | .setUp ok =>
    match s.phase with
    | .down => if ok then { s with phase := .starting [.add []] } else s.failed
    | _ => s
  | .read more =>
    match s.phase with
    | .waiting =>
      if s.queue = [] then s
      else { s with phase := .handling (s.queue.take (more + 1)), queue := s.queue.drop (more + 1) }
    | _ => s
  | .fail =>
    match s.phase with
    | .waiting => s.failed
    | _ => s
  | .work => s.workStep perform
  | .workFailing => s.workStep skip

def runs (s : Inotify) (ms : List InotifyMove) : Inotify := ms.foldl step s

end Inotify

end FileSync
