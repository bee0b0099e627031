import FileSync.Client.TrackedDevice
/-!
# Falling back to another hub

A device that cannot reach its first hub pulls from the next one, which may
lag behind. What it gets there it writes over files it had from the first
hub, whose checkpoint goes on saying that it has seen them; so when the
first hub is back, nothing is sent again. The files are the hub's only if
each path put in order elsewhere is in the feed, or happens to be the same.
-/

namespace FileSync

namespace Failover

open Tracking

variable {C : Couch} {env : HubEnv} {eng : SyncEngine} {c : Config Unit NetReq Unit (State Unit)}
  {ms : List (Move Unit Delivery Arrival)}

/-- The device makes its calls, one after another. -/
def start (env : HubEnv) (eng : SyncEngine) (calls : List DeviceCall) :
    Config Unit NetReq Unit (State Unit) :=
  ⟨fun _ => DeviceCall.script env eng calls, .initial Unit ""⟩

/-- And then it pulls. -/
def pulling (env : HubEnv) (eng : SyncEngine) (s : State Unit) :
    Config Unit NetReq (Except SyncError PullReport) (State Unit) :=
  ⟨fun _ => eng.pull.run.expand (NetReq.opened env .sync), s⟩

/-- The device's file under a path, and the one a hub serves. -/
abbrev file (s : State Unit) (path : Path) : Option Bytes := (s.store ()).files.lookup path

abbrev served (s : State Unit) (hub : HubId) (path : Path) : Option Bytes :=
  (s.net.hubs hub).served path

/-- A device that has made its calls keeps track. -/
theorem tracks_of_runs {calls : List DeviceCall}
    (h : (start env eng calls).Meets (semantics C) Redelivers ms)
    (hdone : ((start env eng calls).runs (semantics C) ms).task () = .done ()) :
    Tracks () (fun _ => False) ((start env eng calls).runs (semantics C) ms).state := by
  have hsafe : PoolSafe (semantics C) Redelivers contract
      (fun i _ => Tracks i fun _ => False) (start env eng calls) :=
    PoolSafe.init (fun i => (show Lasts i "" _ from lasts_tracks).stable)
      (fun _ => tracks_initial)
      fun _ => triple_script calls
  exact (hsafe.runs fits h).of_done hdone

/-- **A pull that succeeds leaves the files as the hub serves them**, after
any calls and with any failures, as long as each feed covers what the device
has put in order with other hubs and each branch it pushes counts. The hubs
may get revisions from each other and from anywhere at any time; only the
one the pull is answered by writes nothing during it. -/
theorem pull_leaves_files_served (C : Couch) (env : HubEnv) (eng : SyncEngine)
    (calls : List DeviceCall) (ms ms' : List (Move Unit Delivery Arrival)) (rep : PullReport)
    (h : (start env eng calls).Meets (semantics C) Redelivers ms) :
    let before := (start env eng calls).runs (semantics C) ms
    let after := (pulling env eng before.state).runs (semantics C) ms'
    before.task () = .done () →
    (pulling env eng before.state).Meets (semantics C) Redelivers ms' →
    after.task () = .done (.ok rep) →
    (after.state.store ()).pending = [] →
    (after.state.net.hubs rep.hub).log = (before.state.net.hubs rep.hub).log →
    ∀ path, Routes.isSystemId path = false →
      file after.state path = served after.state rep.hub path := by
  intro before after hdone h' hok hempty hsame path hsys
  have htracks : Tracks () (fun _ => False) before.state := tracks_of_runs h hdone
  have hbase : Base () (before.state.store ()).pending
      (fun hub => (before.state.net.hubs hub).log.length) before.state :=
    ⟨htracks, rfl, fun _ => le_refl _⟩
  have hsafe : PoolSafe (semantics C) Redelivers contract
      (fun _ => Post (Base () (before.state.store ()).pending
        fun hub => (before.state.net.hubs hub).log.length) fun rep => Pulled ()
          (before.state.store ()).pending (fun hub => (before.state.net.hubs hub).log.length) rep.hub)
      (pulling env eng before.state) :=
    PoolSafe.init (fun i => (show Lasts i "" _ from lasts_base).stable) (fun _ => hbase)
      fun _ => does_pull
  have hpulled : Pulled () (before.state.store ()).pending
      (fun hub => (before.state.net.hubs hub).log.length) rep.hub after.state :=
    (hsafe.runs fits h').of_done hok
  rcases hpulled.settled rep.hub path hsys id with ⟨d, hd, -⟩ | haside | hchanged | hserved
  · rw [hempty] at hd
    exact absurd hd List.not_mem_nil
  · rw [hpulled.covered] at haside
    exact absurd haside List.not_mem_nil
  · -- the checkpoint is at the end of a log that has not grown
    have hsince := hpulled.since
    rw [← hsame] at hsince
    rw [Db.Changed, List.drop_eq_nil_of_le hsince] at hchanged
    exact absurd hchanged List.not_mem_nil
  · exact hserved

/-! ## A hub that lags behind -/

def twoHubs : SyncEngine := ⟨["first", "second"], true⟩

/-- A file is written and pushed, written again, pushed and pulled back, and
pulled once more. -/
def editedTwice : List DeviceCall :=
  [.record (.upsert "a" 1 octetStream [1]), .push, .record (.upsert "a" 2 octetStream [2]), .sync,
    .pull]

/-- What the first push makes of the file. -/
def firstVersion : Node :=
  ⟨⟨2, "xx"⟩, ["x"], false, ⟨some "a", some 1, some octetStream⟩, some ⟨octetStream, [1]⟩⟩

/-- And the second one. -/
def secondVersion : Node :=
  ⟨⟨4, "xxxx"⟩, ["xxx", "xx", "x"], false, ⟨some "a", some 2, some octetStream⟩,
    some ⟨octetStream, [2]⟩⟩

/-- Calls that are answered. -/
def answered (n : ℕ) : List (Move Unit Delivery Arrival) := List.replicate n (.run () .delivered)

/-- The file is pushed twice and pulled back; a version of it is replicated;
and when the last pull begins, the first hub cannot be reached. -/
def firstHubDown (replicated : Node) (hpos : 0 < replicated.rev.gen) :
    List (Move Unit Delivery Arrival) :=
  answered 42 ++ .env ⟨"second", "a", replicated, hpos⟩ ::
    answered 1 ++ .run () .unsent :: answered 12

/-- **A lagging hub's file stays**: the second hub has the first version only,
the device takes it for its own, and the first hub, reached again, has
nothing new to say. -/
theorem stale_file_after_failover :
    let before := (start .plain twoHubs editedTwice).runs (semantics (.counting true))
      (firstHubDown firstVersion (by decide))
    let after := (pulling .plain twoHubs before.state).runs (semantics (.counting true))
      (answered 5)
    (firstVersion ∈ (((start .plain twoHubs editedTwice).runs (semantics (.counting true))
        (answered 42)).state.net.hubs "first").docs "a" ∧
      before.task () = .done () ∧ after.task () = .done (.ok ⟨"first", 0, 0, [], some 4⟩) ∧
      (after.state.store ()).pending = [] ∧
      (after.state.net.hubs "first").log = (before.state.net.hubs "first").log) ∧
      file after.state "a" = some [1] ∧ served after.state "first" "a" = some [2] := by
  refine ⟨⟨by decide +kernel, ?_, ?_, by decide +kernel, by decide +kernel⟩, by decide +kernel,
    by decide +kernel⟩
  · exact Prog.result?_eq_some.1 (by decide +kernel)
  · exact Prog.result?_eq_some.1 (by decide +kernel)

theorem fresh_file_after_failover :
    let before := (start .plain twoHubs editedTwice).runs (semantics (.counting true))
      (firstHubDown secondVersion (by decide))
    let after := (pulling .plain twoHubs before.state).runs (semantics (.counting true))
      (answered 5)
    file after.state "a" = served after.state "first" "a" :=
  pull_leaves_files_served (.counting true) .plain twoHubs editedTwice
    (firstHubDown secondVersion (by decide)) (answered 5) ⟨"first", 0, 0, [], some 4⟩
    (by decide +kernel) (Prog.result?_eq_some.1 (by decide +kernel)) (by decide +kernel)
    (Prog.result?_eq_some.1 (by decide +kernel)) (by decide +kernel) (by decide +kernel) "a"
    (by decide +kernel)

end Failover

end FileSync
