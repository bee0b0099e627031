import FileSync.Client.Device
import FileSync.Hub.Updates
/-!
# Checkpoints and files

A checkpoint says of one hub how much of its log a device has seen; the
device's files are one for all its hubs. What the two say together is that
each path not written at the hub since the checkpoint is at the device as
the hub serves it. Two things are left out: what is queued, and what the
device has put in order with another hub since it stored the checkpoint.
This is kept by everything a device does, and by what anybody does at a
hub, as long as the next feed makes up for what is left out and a branch
that is pushed is written.
-/

namespace FileSync

namespace Tracking

/-- The devices, the hubs, and what statements about several hubs need to
know of the past. -/
structure State (ι : Type) where
  net : Net ι
  /-- The hub a device last sent a message to. -/
  peer : ι → HubId
  /-- For each hub, the paths the device has put in order with another one
  since it stored that hub's checkpoint. -/
  aside : ι → HubId → List Path

/-- What an operation of a sync puts in order between the device and its
peer: the file it writes, or the changes it takes out of the queue. -/
def settles ⦃β : Type⦄ (s : MemStore) : EngineReq β → List Path
  | .filePut path _ _ => [path]
  | .fileDelete path => [path]
  | .metaPut key _ => if key = keyPending then s.pending.map PendingChange.path else []
  | _ => []

/-- The operation stores the hub's checkpoint. -/
def storesCheckpoint ⦃β : Type⦄ (hub : HubId) : EngineReq β → Bool
  | .metaPut key _ => key = checkpointKey hub
  | _ => false

namespace State

variable {ι : Type} (s : State ι) (i : ι)

def peerAfter : ∀ ⦃β : Type⦄, NetReq β → HubId
  | _, .link (.message hub) => hub
  | _, _ => s.peer i

def asideAfter ⦃β : Type⦄ : NetReq β → HubId → List Path
  | .store .sync e, hub =>
    if storesCheckpoint hub e then []
    else if hub = s.peer i then s.aside i hub
    else settles (s.net.stores i) e ++ s.aside i hub
  | _, hub => s.aside i hub

/-- The device's stores. -/
abbrev store : MemStore := s.net.stores i

/-- The checkpoint the device has stored for a hub, 0 if none. -/
def checkpoint (hub : HubId) : Checkpoint :=
  (((s.store i).blobs.lookup (checkpointKey hub)).bind Blob.toCheckpoint?).getD 0

end State

/-- A revision that comes to a hub from elsewhere: from another hub, or from
a device that is none of those looked at. -/
structure Arrival where
  hub : HubId
  path : Path
  node : Node
  pos : 0 < node.rev.gen

variable {ι : Type}

/-- The path is at the device as the hub serves it, or the hub has written it
since. -/
def UpTo (i : ι) (hub : HubId) (since : ℕ) (path : Path) (s : State ι) : Prop :=
  (s.net.hubs hub).Changed since path ∨ (s.store i).files.lookup path = (s.net.hubs hub).served path

instance (i : ι) (hub : HubId) (since : ℕ) (path : Path) (s : State ι) :
    Decidable (UpTo i hub since path s) :=
  inferInstanceAs (Decidable (_ ∨ _))

/-- A change is queued for the path. -/
def Queued (i : ι) (path : Path) (s : State ι) : Prop :=
  ∃ c ∈ (s.store i).pending, c.path = path

instance (i : ι) (path : Path) (s : State ι) : Decidable (Queued i path s) :=
  inferInstanceAs (Decidable (∃ c ∈ _, _))

/-- The hub's next feed makes up for what the device has put in order with
others, as far as it is not queued. -/
def FeedCovers (i : ι) (hub : HubId) (s : State ι) : Prop :=
  ∀ p ∈ s.aside i hub, Routes.isSystemId p = false →
    Queued i p s ∨ UpTo i hub (s.checkpoint i hub) p s

instance (i : ι) (hub : HubId) (s : State ι) : Decidable (FeedCovers i hub s) :=
  inferInstanceAs (Decidable (∀ p ∈ _, _))

/-- A branch is new to the hub, or the device need not hear of it. -/
def BranchCounts (i : ι) (hub : HubId) (doc : BranchDoc) (s : State ι) : Prop :=
  ((s.net.hubs hub).docs doc.id).find? doc.rev = none ∨ UpTo i hub (s.checkpoint i hub) doc.id s

instance (i : ι) (hub : HubId) (doc : BranchDoc) (s : State ι) :
    Decidable (BranchCounts i hub doc s) :=
  inferInstanceAs (Decidable (_ ∨ _))

/-- The branch that is inserted, and where. -/
def inserts : ∀ ⦃β : Type⦄, NetReq β → Option (HubId × BranchDoc)
  | _, .couch hub (.bulkDocs doc) => some (hub, doc)
  | _, _ => none

/-- The hub whose feed is asked for. -/
def asksFeed : ∀ ⦃β : Type⦄, NetReq β → Option HubId
  | _, .couch hub (.changes _) => some hub
  | _, _ => none

/-- Every branch that is inserted counts. -/
def BranchesCount : StepCond ι NetReq Delivery Arrival (State ι) where
  call i _ e o s := ∀ b ∈ inserts e, o = .delivered → BranchCounts i b.1 b.2 s
  env _ _ := True

/-- And every feed that is asked for covers what was put in order
elsewhere. -/
def Redelivers : StepCond ι NetReq Delivery Arrival (State ι) where
  call i _ e o s := (∀ b ∈ inserts e, o = .delivered → BranchCounts i b.1 b.2 s) ∧
    ∀ hub ∈ asksFeed e, o = .delivered → FeedCovers i hub s
  env _ _ := True

instance {β : Type} {e : NetReq β} {i : ι} {o : Delivery} {s : State ι} :
    Decidable (BranchesCount.call i e o s) :=
  inferInstanceAs (Decidable (∀ b ∈ inserts e, _))

instance {a : Arrival} {s : State ι} : Decidable (BranchesCount.env a s) :=
  inferInstanceAs (Decidable True)

instance {β : Type} {e : NetReq β} {i : ι} {o : Delivery} {s : State ι} :
    Decidable (Redelivers.call i e o s) :=
  inferInstanceAs (Decidable ((∀ b ∈ inserts e, _) ∧ ∀ hub ∈ asksFeed e, _))

instance {a : Arrival} {s : State ι} : Decidable (Redelivers.env a s) :=
  inferInstanceAs (Decidable True)

/-! ## What is kept -/

/-- **What the checkpoints say of the files**, some paths excepted: each is at
the device as a hub serves it, or is in that hub's next feed, or is queued,
or was put in order with another hub. -/
structure Tracks (i : ι) (but : Path → Prop) (s : State ι) : Prop where
  numbered : ∀ hub, (s.net.hubs hub).Numbered
  within : ∀ hub, s.checkpoint i hub ≤ (s.net.hubs hub).log.length
  gone : ∀ c ∈ (s.store i).pending, c.deleted = true → ¬ but c.path →
    (s.store i).files.lookup c.path = none
  settled : ∀ hub p, Routes.isSystemId p = false → ¬ but p →
    Queued i p s ∨ p ∈ s.aside i hub ∨ UpTo i hub (s.checkpoint i hub) p s

/-- The hubs go on, and the device's own state is the same in all that is
kept. Whom it talks to may change to `hub`. -/
structure Onward (i : ι) (hub : HubId) (s s' : State ι) : Prop where
  files : (s'.store i).files = (s.store i).files
  pending : (s'.store i).pending = (s.store i).pending
  checkpoint : ∀ k, s'.checkpoint i k = s.checkpoint i k
  aside : s'.aside i = s.aside i
  peer : s.peer i = hub → s'.peer i = hub
  grows : ∀ k, (s.net.hubs k).Grows (s'.net.hubs k)
  numbered : ∀ k, (s.net.hubs k).Numbered → (s'.net.hubs k).Numbered

/-- What holds on. -/
def Lasts (i : ι) (hub : HubId) (P : State ι → Prop) : Prop :=
  ∀ ⦃s s'⦄, P s → Onward i hub s s' → P s'

variable {C : Couch} {env : HubEnv} {eng : SyncEngine} {origin : Origin} {i j : ι} {hub : HubId}
  {s s' : State ι} {path : Path} {since : ℕ} {α β : Type} {P Q : State ι → Prop}

theorem Lasts.and (hP : Lasts i hub P) (hQ : Lasts i hub Q) :
    Lasts i hub fun s => P s ∧ Q s :=
  fun _ _ hs h => ⟨hP hs.1 h, hQ hs.2 h⟩

theorem UpTo.onward {k : HubId} (hs : UpTo i k since path s) (h : Onward i hub s s')
    (hle : since ≤ (s.net.hubs k).log.length) : UpTo i k since path s' := by
  rcases hs with hs | hs
  · exact .inl ((h.grows k).changed hs)
  · rcases (h.grows k).served_or hle path with hc | hc
    · exact .inl hc
    · exact .inr (by rw [h.files, hs, hc])

theorem Queued.onward (hs : Queued i path s) (h : Onward i hub s s') : Queued i path s' := by
  unfold Queued
  rw [h.pending]
  exact hs

theorem lasts_tracks {but : Path → Prop} : Lasts i hub (Tracks i but) := by
  intro s s' hs h
  refine ⟨fun k => h.numbered k (hs.numbered k), fun k => ?_, fun c hc hd hb => ?_,
    fun k p hsys hb => ?_⟩
  · rw [h.checkpoint]
    exact (hs.within k).trans (h.grows k).length_le
  · rw [h.files]
    exact hs.gone c (h.pending ▸ hc) hd hb
  · rw [h.aside, h.checkpoint]
    rcases hs.settled k p hsys hb with hq | ha | hu
    · exact .inl (hq.onward h)
    · exact .inr (.inl ha)
    · exact .inr (.inr (hu.onward h (hs.within k)))

theorem Tracks.mono {but but' : Path → Prop} (hs : Tracks i but s)
    (h : ∀ p, but p → but' p) : Tracks i but' s :=
  ⟨hs.numbered, hs.within, fun c hc hd hb => hs.gone c hc hd fun hp => hb (h _ hp),
    fun k p hsys hb => hs.settled k p hsys fun hp => hb (h _ hp)⟩

/-- What a sync works on: the queue, and lengths the hubs' logs have reached. -/
structure Base (i : ι) (l : List PendingChange) (L : HubId → ℕ) (s : State ι) : Prop
    extends Tracks i (fun _ => False) s where
  queue : (s.store i).pending = l
  reached : ∀ k, L k ≤ (s.net.hubs k).log.length

theorem lasts_base {l : List PendingChange} {L : HubId → ℕ} : Lasts i hub (Base i l L) := fun _ _ hs h =>
  ⟨lasts_tracks hs.toTracks h, h.pending.trans hs.queue, fun k =>
    (hs.reached k).trans (h.grows k).length_le⟩

/-- What the others tolerate. -/
def contract : Contract ι (State ι) where
  rely i s s' := ∀ hub, Onward i hub s s'
  guar i s s' := ∀ j, j ≠ i → ∀ hub, Onward j hub s s'

theorem Lasts.stable (h : Lasts i hub P) : contract.Stable i P :=
  fun _ _ hs hrely => h hs (hrely hub)

/-! ## What the steps do -/

variable [DecidableEq ι]

/-- The devices and the hubs together, noting what is put in order where. -/
def semantics (C : Couch) : Semantics ι NetReq Delivery Arrival (State ι) where
  exec i _ e o s :=
    let r := Net.exec C i e o s.net
    (r.1, ⟨r.2, Function.update s.peer i (s.peerAfter i e),
      Function.update s.aside i (s.asideAfter i e)⟩)
  env a s := { s with
    net.hubs := Function.update s.net.hubs a.hub ((s.net.hubs a.hub).write a.path a.node) }

/-- A request's revisions are numbered from 1. -/
def NetNumbered ⦃β : Type⦄ : NetReq β → Prop
  | .couch _ e => e.Numbered
  | _ => True

/-- **Whatever is done, the hubs go on.** -/
theorem hubs_exec {e : NetReq β} (he : NetNumbered e) (o : Delivery) (s : State ι) (k : HubId) :
    (s.net.hubs k).Grows (((semantics C).exec i e o s).2.net.hubs k) ∧
      ((s.net.hubs k).Numbered → (((semantics C).exec i e o s).2.net.hubs k).Numbered) := by
  cases e with
  | store origin e => exact ⟨.refl _, id⟩
  | link e => exact ⟨.refl _, id⟩
  | couch h e =>
    have hanswer : (s.net.hubs k).Grows
        (Function.update s.net.hubs h (C.answer e (s.net.hubs h)).2 k) ∧
          ((s.net.hubs k).Numbered →
            (Function.update s.net.hubs h (C.answer e (s.net.hubs h)).2 k).Numbered) := by
      by_cases hk : k = h
      · subst hk
        rw [Function.update_self]
        exact ⟨Db.grows_answer C e _, Db.numbered_answer C he⟩
      · rw [Function.update_of_ne hk]
        exact ⟨.refl _, id⟩
    cases o with
    | delivered => exact hanswer
    | unsent => exact ⟨.refl _, id⟩
    | unanswered => exact hanswer

theorem stores_exec {e : NetReq β} (o : Delivery) (s : State ι) (h : j ≠ i) :
    ((semantics C).exec i e o s).2.store j = s.store j := by
  cases e with
  | store origin e => exact Function.update_of_ne h ..
  | link e => rfl
  | couch k e => cases o <;> rfl

theorem fits {D : StepCond ι NetReq Delivery Arrival (State ι)} :
    contract.Fits (semantics C) D where
  guar_rely i j hne s s' h := h j hne.symm
  env_rely i a s _ hub := by
    refine ⟨rfl, rfl, fun _ => rfl, rfl, id, fun k => ?_, fun k hk => ?_⟩
    · show (s.net.hubs k).Grows (Function.update s.net.hubs a.hub _ k)
      by_cases hka : k = a.hub
      · subst hka
        rw [Function.update_self]
        exact .write _ _ _
      · rw [Function.update_of_ne hka]
        exact .refl _
    · show (Function.update s.net.hubs a.hub _ k).Numbered
      by_cases hka : k = a.hub
      · subst hka
        rw [Function.update_self]
        exact hk.write a.pos
      · rwa [Function.update_of_ne hka]

theorem guar_exec {e : NetReq β} (he : NetNumbered e) (o : Delivery) (s : State ι) :
    contract.guar i s ((semantics C).exec i e o s).2 := by
  intro j hne hub
  have hstore := stores_exec (C := C) (e := e) o s hne
  refine ⟨by rw [hstore], by rw [hstore], fun k => ?_, Function.update_of_ne hne _ _, fun hp => ?_,
    fun k => (hubs_exec he o s k).1, fun k => (hubs_exec he o s k).2⟩
  · unfold State.checkpoint
    rw [hstore]
  · rw [← hp]
    exact Function.update_of_ne hne _ _

/-! ## Steps that change nothing of one's own -/

/-- The operation writes no file, no checkpoint and not the queue, and asks
no hub. -/
def Quiet ⦃β : Type⦄ : EngineReq β → Prop
  | .metaPut key _ => key ≠ keyPending ∧ ∀ hub, key ≠ checkpointKey hub
  | .metaDelete key => key ≠ keyPending ∧ ∀ hub, key ≠ checkpointKey hub
  | .filePut .. => False
  | .fileDelete _ => False
  | .hubChanges .. => False
  | .hubGetFile .. => False
  | .hubPush .. => False
  | _ => True

theorem quiet_fileMeta (path : Path) (m : FileMeta) :
    Quiet (EngineReq.metaPut (fileKey path) (.fileMeta m)) :=
  ⟨fileKey_ne_pending path, fileKey_ne_checkpointKey path⟩

theorem opened_quiet {e : EngineReq β} (he : Quiet e) :
    NetReq.opened env origin e = .perform (.store origin e) := by
  cases e with
  | filePut | fileDelete | hubChanges | hubGetFile | hubPush => exact he.elim
  | _ => rfl

theorem onward_quiet {e : EngineReq β} (he : Quiet e) (o : Delivery) (s : State ι) :
    Onward i hub s ((semantics C).exec i (.store origin e) o s).2 := by
  have hstore : ((semantics C).exec i (.store origin e) o s).2.store i =
      (MemStore.exec e .unreachable (s.store i)).2 := Function.update_self ..
  have hblobs : ∀ key, (key = keyPending ∨ ∃ k, key = checkpointKey k) →
      (MemStore.exec e .unreachable (s.store i)).2.blobs.lookup key =
        (s.store i).blobs.lookup key := by
    intro key hkey
    have hne : ∀ key', (key' ≠ keyPending ∧ ∀ k, key' ≠ checkpointKey k) → key ≠ key' := by
      rintro key' ⟨h, h'⟩ rfl
      rcases hkey with rfl | ⟨k, rfl⟩
      exacts [h rfl, h' k rfl]
    cases e with
    | metaPut key' value => exact AList.lookup_insert_ne (hne key' he)
    | metaDelete key' => exact AList.lookup_erase_ne (hne key' he)
    | _ => rfl
  -- neither a checkpoint nor the queue is stored, so nothing is set aside
  have haside : ∀ k, s.asideAfter i (.store origin e) k = s.aside i k := by
    intro k
    cases origin with
    | record => rfl
    | sync =>
      have hcheckpoint : storesCheckpoint k e = false := by
        cases e with
        | metaPut key value => exact decide_eq_false (he.2 k)
        | _ => rfl
      have hsettles : settles (s.store i) e = [] := by
        cases e with
        | metaPut key value => exact if_neg he.1
        | filePut | fileDelete => exact he.elim
        | _ => rfl
      simp only [State.asideAfter, hcheckpoint, hsettles, List.nil_append, ite_self,
        Bool.false_eq_true, if_false]
  refine ⟨?_, ?_, fun k => ?_, ?_, fun hp => (Function.update_self ..).trans hp,
    fun k => .refl _, fun k => id⟩
  · rw [hstore]
    cases e with
    | filePut | fileDelete => exact he.elim
    | _ => rfl
  · rw [hstore]
    unfold MemStore.pending
    rw [hblobs _ (.inl rfl)]
  · unfold State.checkpoint
    rw [hstore, hblobs _ (.inr ⟨k, rfl⟩)]
  · exact (Function.update_self ..).trans (funext haside)

theorem onward_message (o : Delivery) (s : State ι) :
    Onward i hub s ((semantics C).exec i (.link (.message hub)) o s).2 :=
  ⟨rfl, rfl, fun _ => rfl, Function.update_self .., fun _ => Function.update_self ..,
    fun _ => .refl _, fun _ => id⟩

theorem onward_couch {e : CouchReq β} (he : e.Numbered) (k : HubId) (o : Delivery) (s : State ι) :
    Onward i hub s ((semantics C).exec i (.couch k e) o s).2 := by
  have hgrow := hubs_exec (C := C) (i := i) (e := .couch k e) he o s
  have hstore : ((semantics C).exec i (.couch k e) o s).2.store i = s.store i := by
    cases o <;> rfl
  refine ⟨by rw [hstore], by rw [hstore], fun k' => ?_, Function.update_self ..,
    fun hp => (Function.update_self ..).trans hp, fun k' => (hgrow k').1, fun k' => (hgrow k').2⟩
  unfold State.checkpoint
  rw [hstore]

/-! ## Programs, step by step -/

/-- What an engine's program does as part of an operation of the device. -/
abbrev EngineDoes (C : Couch) (env : HubEnv) (origin : Origin) (i : ι) (P : State ι → Prop)
    (x : Engine α) (B : State ι → Prop) (M : α → State ι → Prop) : Prop :=
  Does (semantics C) Redelivers contract i (NetReq.opened env origin) P x (Post B M)

/-- What a hub's program does for a device. -/
abbrev HubDoes {ε : Type} (C : Couch) (i : ι) (hub : HubId) (P : State ι → Prop) (x : Hub ε α)
    (B : State ι → Prop) (M : α → State ι → Prop) : Prop :=
  Does (semantics C) Redelivers contract i (fun _ e => .perform (.couch hub e)) P x (Post B M)

variable {B : State ι → Prop} {M : α → State ι → Prop} {ε ε' : Type}

/-- An operation on one's own stores does not fail. -/
theorem does_store {e : EngineReq (Except StoreError α)} {g : StoreError → SyncError}
    (hopen : NetReq.opened env origin e = .perform (.store origin e))
    (hok : ∀ t, ∃ a, (MemStore.exec e .unreachable t).1 = .ok a) (hB : Lasts i hub B)
    (hM : ∀ a, Lasts i hub (M a)) (hstep : ∀ o s, P s → ∀ a,
      (MemStore.exec e .unreachable (s.store i)).1 = .ok a →
        M a ((semantics C).exec i (.store origin e) o s).2) :
    EngineDoes C env origin i P (.ask g e) B M := by
  refine Does.ask_perform hopen hB.stable (fun a => (hM a).stable) fun o s hs _ =>
    ⟨guar_exec (e := .store origin e) trivial o s, fun a ha => hstep o s hs a ha, fun x hx => ?_⟩
  obtain ⟨a, ha⟩ := hok (s.store i)
  have hanswer : (MemStore.exec e .unreachable (s.store i)).1 = .error x := hx
  rw [ha] at hanswer
  cases hanswer

/-- A quiet one, and what it answers. -/
theorem does_quiet {e : EngineReq (Except StoreError α)} {g : StoreError → SyncError}
    (he : Quiet e) (hok : ∀ t, ∃ a, (MemStore.exec e .unreachable t).1 = .ok a)
    (hB : Lasts i hub B) (hM : ∀ a, Lasts i hub (M a)) (hstep : ∀ s, P s → ∀ a,
      (MemStore.exec e .unreachable (s.store i)).1 = .ok a → M a s) :
    EngineDoes C env origin i P (.ask g e) B M :=
  does_store (opened_quiet he) hok hB hM fun o s hs a ha =>
    hM a (hstep s hs a ha) (onward_quiet he o s)

theorem triple_quiet {e : EngineReq β} (he : Quiet e) (hP : Lasts i hub P) :
    Triple (semantics C) Redelivers contract i P (NetReq.opened env origin e) fun _ => P := by
  rw [opened_quiet he]
  exact Triple.perform (fun _ => hP.stable) fun o s hs _ =>
    ⟨guar_exec (e := .store origin e) trivial o s, hP hs (onward_quiet he o s)⟩

/-- Programs that are quiet throughout. -/
theorem does_quietly {x : Engine α} (hP : Lasts i hub P) (hx : Fallible.All Quiet x) :
    EngineDoes C env origin i P x P fun _ => P :=
  Does.of_all hP.stable (fun _ _ he => triple_quiet he hP) hx

theorem does_pure {a : α} (hM : Lasts i hub (M a)) (hP : ∀ s, P s → M a s) :
    EngineDoes C env origin i P (pure a : Engine α) B M :=
  Does.pure hM.stable hP

/-- Loading the queue. -/
theorem does_loadPending (hP : Lasts i hub P) (hB : Lasts i hub B) :
    EngineDoes C env origin i P SyncEngine.loadPending B fun l s =>
      P s ∧ (s.store i).pending = l := by
  have hM : ∀ l, Lasts i hub fun s => P s ∧ (s.store i).pending = l := fun l =>
    hP.and fun _ _ hs h => h.pending.trans hs
  unfold SyncEngine.loadPending
  refine Does.bind (fun v s => P s ∧ (s.store i).pending = (v.bind Blob.toQueue?).getD [])
    hB.stable (does_quiet trivial (fun _ => ⟨_, rfl⟩) hB (fun _ => hM _) ?_) fun v => ?_
  · rintro s hs v ⟨⟩
    exact ⟨hs, rfl⟩
  · cases v with
    | none => exact does_pure (hM _) fun _ h => h
    | some bytes => exact does_pure (hM _) fun _ h => h

/-- **A request to CouchDB**: whether it is answered or not, what holds on
holds on. -/
theorem triple_couch {e : CouchReq β} {M : β → State ι → Prop} (he : e.Numbered)
    (hM : ∀ b, Lasts i hub (M b)) (hlost : ∀ s, P s → M e.lost s)
    (hstep : ∀ s, P s → Redelivers.call i (.couch hub e) .delivered s →
      M (C.answer e (s.net.hubs hub)).1 ((semantics C).exec i (.couch hub e) .delivered s).2) :
    Triple (semantics C) Redelivers contract i P (.perform (.couch hub e)) M := by
  refine Triple.perform (fun b => (hM b).stable) fun o s hs ho =>
    ⟨guar_exec (e := .couch hub e) he o s, ?_⟩
  cases o with
  | delivered => exact hstep s hs ho
  | unsent => exact hM _ (hlost s hs) (onward_couch he hub .unsent s)
  | unanswered => exact hM _ (hlost s hs) (onward_couch he hub .unanswered s)

/-- A hub's program keeps what holds on, whatever it does. -/
theorem does_keeps {x : Hub ε α} (hP : Lasts i hub P)
    (hx : Fallible.All (fun _ e => e.Numbered) x) : HubDoes C i hub P x P fun _ => P :=
  Does.of_all hP.stable (fun _ _ he => Triple.perform (fun _ => hP.stable) fun o s hs _ =>
    ⟨guar_exec (e := .couch hub _) he o s, hP hs (onward_couch he hub o s)⟩) hx

/-- **A request to a hub, there and back.** -/
theorem triple_overLink {p : Prog CouchReq (Except HubError α)} (hP : Lasts i hub P)
    (hB : Lasts i hub B) (hM : ∀ a, Lasts i hub (M a)) (hPB : ∀ s, P s → B s)
    (hMB : ∀ a s, M a s → B s) (hp : HubDoes C i hub P (.mk p) B M) :
    Triple (semantics C) Redelivers contract i P (NetReq.overLink hub p)
      (Post B fun a s => M a s ∧ s.peer i = hub : Except HubError α → State ι → Prop) := by
  have hfacing : Lasts i hub fun s => s.peer i = hub := fun s s' hs h => h.peer hs
  have hmessage : ∀ {Q : State ι → Prop}, Lasts i hub Q →
      Triple (semantics C) Redelivers contract i Q (.perform (.link (.message hub)))
        fun _ s => Q s ∧ s.peer i = hub := fun hQ =>
    Triple.perform (fun _ => (hQ.and hfacing).stable) fun o s hs _ =>
      ⟨guar_exec (e := .link (.message hub)) trivial o s, hQ hs (onward_message o s),
        Function.update_self ..⟩
  have hfailed : ∀ {Q : State ι → Prop}, (∀ s, Q s → B s) → ∀ x,
      Triple (semantics C) Redelivers contract i Q (.done (.error x))
        (Post B fun a s => M a s ∧ s.peer i = hub : Except HubError α → State ι → Prop) :=
    fun h x => Triple.done (Q := Post B _) hB.stable h
  unfold NetReq.overLink
  refine Triple.bind _ (hmessage hP) fun sent => ?_
  split
  · refine Triple.bind (Post B M) (Triple.pre hp fun s hs => hs.1) fun r => ?_
    cases r with
    | error x =>
      refine Triple.bind _ (hmessage hB) fun answered => ?_
      split
      · exact hfailed (fun s hs => hs.1) x
      · exact hfailed (fun s hs => hs.1) _
    | ok a =>
      refine Triple.bind _ (hmessage (hM a)) fun answered => ?_
      split
      · exact Triple.done (Q := Post B _) ((hM a).and hfacing).stable fun s hs => hs
      · exact hfailed (fun s hs => hMB a s hs.1) _
  · exact hfailed (fun s hs => hPB s hs.1) _

end Tracking

end FileSync
