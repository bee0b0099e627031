import FileSync.Client.Failover
/-!
# Devices and one hub

With one hub there is nothing to put in order elsewhere, so all that is
relied on is that a branch that is pushed is written. It is, unless the hub
has the revision already: a change that is sent once more makes the same
revision, and if the hub has gone on from it in the meantime, what the
device then holds is not what the hub shows, and nothing says so.
-/

namespace FileSync

namespace Convergence

open Tracking

variable {ι : Type} {C : Couch} {env : HubEnv} {hub : HubId} {notifier : ι → Bool}
  {calls : ι → List DeviceCall} {ms : List (Move ι Delivery Arrival)} {s : State ι}

/-- A device's engine. -/
abbrev engine (hub : HubId) (notifier : Bool) : SyncEngine := ⟨[hub], notifier⟩

/-- Every device makes its calls, one after another, the last of them a
sync. -/
def start (env : HubEnv) (hub : HubId) (notifier : ι → Bool) (calls : ι → List DeviceCall) :
    Config ι NetReq (Except SyncError Unit) (State ι) :=
  ⟨fun i => DeviceCall.script env (engine hub (notifier i)) (calls i) >>= fun _ =>
    DeviceCall.sync.prog env (engine hub (notifier i)), .initial ι hub⟩

/-- The devices talk to no other hub. -/
def Alone (hub : HubId) (s : State ι) : Prop := ∀ i, s.peer i = hub ∧ s.aside i hub = []

/-- A call to one's stores or to the hub. -/
def Near (hub : HubId) : ∀ ⦃β : Type⦄, NetReq β → Prop
  | _, .store _ _ => True
  | _, .link (.message k) => k = hub
  | _, .couch k _ => k = hub

theorem near_calls : DeviceCalls [hub] (Near hub) where
  store _ _ _ := trivial
  link _ hk := List.mem_singleton.1 hk
  couch _ hk _ _ := List.mem_singleton.1 hk

theorem near_start (i : ι) : ((start env hub notifier calls).task i).All (Near hub) := by
  have hcalls : DeviceCalls (engine hub (notifier i)).hubs (Near hub) := near_calls
  exact .bind (DeviceCall.all_script hcalls (calls i)) fun _ => DeviceCall.all_prog hcalls .sync

section Runs

variable [DecidableEq ι]

/-- Then they go on doing so. -/
theorem alone_exec {i : ι} {β : Type} {e : NetReq β} {o : Delivery} (he : Near hub e)
    (hs : Alone hub s) : Alone hub ((semantics C).exec i e o s).2 := by
  intro j
  show Function.update s.peer i (s.peerAfter i e) j = hub ∧
    Function.update s.aside i (s.asideAfter i e) j hub = []
  by_cases hj : j = i
  · subst hj
    obtain ⟨hpeer, haside⟩ := hs j
    rw [Function.update_self, Function.update_self]
    cases e with
    | store origin e =>
      refine ⟨hpeer, ?_⟩
      cases origin with
      | record => exact haside
      | sync =>
        simp only [State.asideAfter, hpeer, haside, if_true, ite_self]
    | link e =>
      obtain ⟨k⟩ := e
      exact ⟨he, haside⟩
    | couch k e => exact ⟨hpeer, haside⟩
  · rw [Function.update_of_ne hj, Function.update_of_ne hj]
    exact hs j

/-- **With one hub, each feed covers all there is.** -/
theorem redelivers_of_branchesCount
    (h : (start env hub notifier calls).Meets (semantics C) BranchesCount ms) :
    (start env hub notifier calls).Meets (semantics C) Redelivers ms := by
  refine Config.meets_of_all (φ := Near hub) (J := Alone hub) (fun i β e o s => alone_exec)
    (fun a s hs => hs) (fun i β e o s he hs hcall => ?_) (fun a s hs hcall => trivial) near_start
    (fun i => ⟨rfl, rfl⟩) h
  refine ⟨hcall, fun k hk _ p hp => ?_⟩
  obtain rfl : k = hub := by
    cases e with
    | store | link => cases hk
    | couch k' e =>
      cases e with
      | changes since => exact (Option.some.inj hk).symm.trans he
      | _ => cases hk
  rw [(hs i).2] at hp
  exact absurd hp List.not_mem_nil

/-- What a device whose last sync has succeeded can tell. -/
def Synced (i : ι) (s : State ι) : Prop :=
  Tracks i (fun _ => False) s ∧ (s.store i).pending = []

omit [DecidableEq ι] in
theorem lasts_synced {i : ι} : Lasts i hub (Synced i) :=
  lasts_tracks.and fun _ _ hs h => h.pending.trans hs

theorem triple_last {i : ι} {eng : SyncEngine} (calls : List DeviceCall) :
    Triple (semantics C) Redelivers contract i (Tracks i fun _ => False)
      (DeviceCall.script env eng calls >>= fun _ => DeviceCall.sync.prog env eng)
      (Post (Tracks i fun _ => False) fun _ => Synced i) := by
  have htracks : Lasts i "" (Tracks i fun _ => False) := lasts_tracks
  have hsynced : Lasts i "" (Synced i) := lasts_synced
  have hsync : ∀ l L, EngineDoes C env .sync i (Base i l L) (DeviceCall.sync.run eng)
      (Tracks i fun _ => False) fun _ => Synced i := fun l L =>
    Does.bind (fun rep => Pulled i [] L rep.pull.hub) htracks.stable does_sync fun rep =>
      does_pure hsynced fun s hs => ⟨hs.toTracks, hs.queue⟩
  exact Triple.bind _ (triple_script calls) fun _ s hs => hsync _ _ s hs.base

/-- **A device that has synced converges**: in every run in which each branch
that is pushed counts, whenever a device has made its calls and the last of
them, a sync, has succeeded, each file is at the device as the hub shows it,
or the hub has changed it after the checkpoint the device stored. -/
theorem synced_file_current (C : Couch) (env : HubEnv) (hub : HubId) (notifier : ι → Bool)
    (calls : ι → List DeviceCall) (ms : List (Move ι Delivery Arrival))
    (h : (start env hub notifier calls).Meets (semantics C) BranchesCount ms) (i : ι)
    (hdone : ((start env hub notifier calls).runs (semantics C) ms).task i = .done (.ok ()))
    (path : Path) (hsys : Routes.isSystemId path = false) :
    let s := ((start env hub notifier calls).runs (semantics C) ms).state
    (s.store i).files.lookup path = (s.net.hubs hub).served path ∨
      (s.net.hubs hub).Changed (s.checkpoint i hub) path := by
  intro s
  have hsafe : PoolSafe (semantics C) Redelivers contract
      (fun i => Post (Tracks i fun _ => False) fun _ => Synced i)
      (start env hub notifier calls) :=
    PoolSafe.init (fun i => (show Lasts i "" _ from lasts_tracks).stable)
      (fun _ => tracks_initial)
      fun i => triple_last (calls i)
  have hruns := hsafe.runs fits (redelivers_of_branchesCount h)
  have hsynced : Synced i s := hruns.of_done hdone
  have halone : Alone hub s := Config.runs_of_all (φ := Near hub)
    (fun i β e o s => alone_exec) (fun a s hs => hs) near_start (fun i => ⟨rfl, rfl⟩) ms
  rcases hsynced.1.settled hub path hsys id with ⟨d, hd, -⟩ | haside | hchanged | hserved
  · rw [hsynced.2] at hd
    exact absurd hd List.not_mem_nil
  · rw [(halone i).2] at haside
    exact absurd haside List.not_mem_nil
  · exact .inr hchanged
  · exact .inl hserved

end Runs

/-! ## A change that is sent once more -/

inductive Device
  | laptop
  | phone
deriving DecidableEq, Repr

/-- The phone writes a file. The laptop wrote the path before it, loses to the
phone, removes the file and puts its own back as it was. -/
def restored : Device → List DeviceCall
  | .laptop => [.record (.upsert "a" 5 octetStream [1]), .sync, .record (.delete "a" 6),
      .record (.upsert "a" 5 octetStream [1])]
  | .phone => [.record (.upsert "a" 9 octetStream [2])]

/-- One after the other, every call is answered. -/
def oneByOne (n k : ℕ) : List (Move Device Delivery Arrival) :=
  List.replicate n (.run .phone .delivered) ++ List.replicate k (.run .laptop .delivered)

/-- **What the laptop put back stays its own**: the hub has that revision, and
shows the phone's file. -/
theorem restored_file_not_current :
    let c := (start .plain "hub" (fun _ => true) restored).runs
      (semantics (.counting true)) (oneByOne 40 80)
    c.task .laptop = .done (.ok ()) ∧ (c.state.store .laptop).files.lookup "a" = some [1] ∧
      (c.state.net.hubs "hub").served "a" = some [2] ∧
      ¬ (c.state.net.hubs "hub").Changed (c.state.checkpoint .laptop "hub") "a" := by
  refine ⟨?_, by decide +kernel, by decide +kernel, by decide +kernel⟩
  exact Prog.result?_eq_some.1 (by decide +kernel)

/-- The phone writes a file, and so does the laptop. -/
def bothWrite : Device → List DeviceCall
  | .laptop => [.record (.upsert "a" 5 octetStream [1])]
  | .phone => [.record (.upsert "a" 9 octetStream [2])]

theorem written_file_current :
    let s := ((start .plain "hub" (fun _ => true) bothWrite).runs
      (semantics (.counting true)) (oneByOne 40 60)).state
    (s.store .laptop).files.lookup "a" = (s.net.hubs "hub").served "a" ∨
      (s.net.hubs "hub").Changed (s.checkpoint .laptop "hub") "a" :=
  synced_file_current (.counting true) .plain "hub" (fun _ => true) bothWrite
    (oneByOne 40 60) (by decide +kernel) .laptop (Prog.result?_eq_some.1 (by decide +kernel)) "a"
    (by decide +kernel)

end Convergence

end FileSync
