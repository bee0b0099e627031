import FileSync.Client.Calls
import FileSync.Hub.Calls
import FileSync.Model.Network
/-!
# What a device does over time

A device records, pushes, pulls and syncs in any order, one operation after
another, each whatever became of the one before.
-/

namespace FileSync

/-- One operation of a device. -/
inductive DeviceCall
  | record (call : LocalCall)
  | push
  | pull
  | sync

namespace DeviceCall

def origin : DeviceCall → Origin
  | record _ => .record
  | _ => .sync

/-- The engine's operation, its report dropped. -/
def run (eng : SyncEngine) : DeviceCall → Engine Unit
  | record call => call.record eng
  | push => do let _ ← eng.push
  | pull => do let _ ← eng.pull
  | sync => do let _ ← eng.sync

/-- The operation, opened. -/
def prog (env : HubEnv) (eng : SyncEngine) (call : DeviceCall) :
    Prog NetReq (Except SyncError Unit) :=
  (call.run eng).run.expand (NetReq.opened env call.origin)

/-- One operation after another. -/
def script (env : HubEnv) (eng : SyncEngine) : List DeviceCall → Prog NetReq Unit
  | [] => .done ()
  | call :: calls => call.prog env eng >>= fun _ => script env eng calls

end DeviceCall

namespace NetReq

variable {φ : ∀ ⦃β : Type⦄, NetReq β → Prop} {env : HubEnv} {origin : Origin}

theorem all_onHub {α : Type} {hub : HubId} {p : Prog CouchReq α}
    (h : p.All fun _ e => φ (.couch hub e)) : (onHub hub p).All φ :=
  h.expand fun _ _ he => ⟨he, fun _ => trivial⟩

theorem all_overLink {α : Type} {hub : HubId} {p : Prog CouchReq (Except HubError α)}
    (hlink : φ (.link (.message hub))) (h : p.All fun _ e => φ (.couch hub e)) :
    (overLink hub p).All φ := by
  have hmessage : (Prog.perform (.link (.message hub)) : Prog NetReq Bool).All φ :=
    ⟨hlink, fun _ => trivial⟩
  refine .bind hmessage fun sent => ?_
  split
  · refine .bind (all_onHub h) fun r => .bind hmessage fun answered => ?_
    split <;> trivial
  · trivial

end NetReq

/-- **A file request**: what the route does, a missing file apart. -/
theorem HubClient.does_getFile {ι O A σ : Type} {E : Type → Type} {S : Semantics ι E O A σ}
    {C : StepCond ι E O A σ} {K : Contract ι σ} {i : ι} {f : ∀ ⦃β : Type⦄, CouchReq β → Prog E β}
    {path : Path} {P B : σ → Prop} {M : Option FileContent → σ → Prop} (hB : K.Stable i B)
    (hM : ∀ file, K.Stable i (M file)) (hnone : ∀ s, B s → M none s)
    (hroute : Does S C K i f P (Routes.getFile path) (Post B fun file => M (some file))) :
    Does S C K i f P (.mk (HubClient.getFile path) : Hub HubError _) (Post B M) := by
  show Triple _ _ _ _ _ (Prog.expand _ (HubClient.getFile path)) _
  unfold HubClient.getFile
  rw [Prog.expand_bind]
  refine Triple.bind _ hroute fun r => ?_
  cases r with
  | ok file => exact Triple.done (Q := Post B M) (hM (some file)) fun _ h => h
  | error e =>
    show Triple _ _ _ _ _ (.done (if e.status = 404 then .ok none else .error e.toHubError :
      Except HubError (Option FileContent))) _
    split
    · exact Triple.done (Q := Post B M) (hM none) hnone
    · exact Triple.done (Q := Post B M) hB fun _ h => h

/-- What a device with these hubs does. -/
structure DeviceCalls (hubs : List HubId) (φ : ∀ ⦃β : Type⦄, NetReq β → Prop) : Prop where
  store : ∀ origin ⦃β : Type⦄ (e : EngineReq β), φ (.store origin e)
  link : ∀ hub ∈ hubs, φ (.link (.message hub))
  couch : ∀ hub ∈ hubs, ∀ ⦃β : Type⦄ (e : CouchReq β), φ (.couch hub e)

namespace DeviceCall

variable {φ : ∀ ⦃β : Type⦄, NetReq β → Prop} {env : HubEnv} {eng : SyncEngine}

theorem calls_opened {hubs : List HubId} (h : DeviceCalls hubs φ) (origin : Origin) :
    EngineCalls hubs fun _ e => (NetReq.opened env origin e).All φ := by
  have hstore : ∀ ⦃β : Type⦄ (e : EngineReq β),
      (Prog.perform (.store origin e) : Prog NetReq β).All φ := fun _ e =>
    ⟨h.store origin e, fun _ => trivial⟩
  have hask : ∀ hub ∈ hubs, ∀ {α : Type} (p : Prog CouchReq (Except HubError α)),
      (NetReq.overLink hub p).All φ := fun hub hhub _ p =>
    NetReq.all_overLink (h.link hub hhub) (Prog.all_of_forall (h.couch hub hhub) p)
  exact
    { metaGet := fun _ => hstore _
      metaPut := fun _ _ => hstore _
      metaDelete := fun _ => hstore _
      fileGet := fun _ => hstore _
      filePut := fun _ _ _ => hstore _
      fileDelete := fun _ => hstore _
      notifyError := fun _ => hstore _
      hubChanges := fun hub hhub _ => hask hub hhub _
      hubGetFile := fun hub hhub _ => hask hub hhub _
      hubPush := fun hub hhub _ => hask hub hhub _ }

/-- **Every call of a device** is to its stores or to one of its hubs. -/
theorem all_prog (h : DeviceCalls eng.hubs φ) (call : DeviceCall) : (call.prog env eng).All φ := by
  have hcalls : EngineCalls eng.hubs fun _ e => (NetReq.opened env call.origin e).All φ :=
    calls_opened h call.origin
  refine Prog.All.expand (φ := fun _ e => (NetReq.opened env call.origin e).All φ)
    (fun _ _ he => he) ?_
  cases call with
  | record c => exact SyncEngine.all_record hcalls c
  | push => exact Fallible.All.bind (SyncEngine.all_push hcalls) fun _ => Fallible.all_pure _
  | pull => exact Fallible.All.bind (SyncEngine.all_pull hcalls) fun _ => Fallible.all_pure _
  | sync => exact Fallible.All.bind (SyncEngine.all_sync hcalls) fun _ => Fallible.all_pure _

theorem all_script (h : DeviceCalls eng.hubs φ) (calls : List DeviceCall) :
    (script env eng calls).All φ := by
  induction calls with
  | nil => trivial
  | cons call calls ih => exact .bind (all_prog h call) fun _ => ih

end DeviceCall

end FileSync
