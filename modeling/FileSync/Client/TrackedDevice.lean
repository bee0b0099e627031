import FileSync.Client.TrackedPush
import FileSync.Client.TrackedPull
/-!
# A device keeps track

Recording a change takes its path out of what the checkpoints say and
queues it; so whatever a device does, one operation after another, they go
on telling where its files may differ from a hub's.
-/

namespace FileSync

namespace Tracking

variable {ι : Type} [DecidableEq ι] {C : Couch} {env : HubEnv} {eng : SyncEngine}
  {origin : Origin} {i : ι} {hub : HubId} {s s' : State ι} {path : Path} {since : ℕ}
  {α β ε ε' : Type} {P Q B : State ι → Prop} {M : α → State ι → Prop}

/-! ## Recording -/

variable {c : LocalCall} {baseRev : Option Rev}

/-- What a call makes of its path's file. -/
def Recorded (i : ι) (c : LocalCall) (s : State ι) : Prop :=
  Tracks i (· = c.path) s ∧ (∀ r, (c.change r).deleted = true →
    (s.store i).files.lookup c.path = none)

omit [DecidableEq ι] in
theorem lasts_recorded : Lasts i hub (Recorded i c) :=
  lasts_tracks.and fun s s' hs h r hd => by rw [h.files, hs r hd]

/-- A local change of a file touches no other path. -/
theorem recorded_written {e : EngineReq (Except StoreError Unit)} {o : Delivery}
    (he : Writes c.path v e) (hv : ∀ r, (c.change r).deleted = true → v = none)
    (hs : Tracks i (fun _ => False) s) :
    Recorded i c ((semantics C).exec i (.store .record e) o s).2 := by
  set s' := ((semantics C).exec i (.store .record e) o s).2
  have hstore : s'.store i = (MemStore.exec e .unreachable (s.store i)).2 :=
    Function.update_self ..
  have hblobs : (s'.store i).blobs = (s.store i).blobs := by rw [hstore, he.blobs]
  have hpending : (s'.store i).pending = (s.store i).pending := by
    unfold MemStore.pending
    rw [hblobs]
  have hcheckpoint : ∀ k, s'.checkpoint i k = s.checkpoint i k := fun k => by
    unfold State.checkpoint
    rw [hblobs]
  have haside : s'.aside i = s.aside i := Function.update_self ..
  refine ⟨⟨hs.numbered, fun k => ?_, fun d hd hdel hne => ?_, fun k p hsys hne => ?_⟩,
    fun r hr => ?_⟩
  · rw [hcheckpoint]
    exact hs.within k
  · rw [hstore, he.files, if_neg hne]
    exact hs.gone d (hpending ▸ hd) hdel id
  · rw [hcheckpoint, haside, Queued, hpending, UpTo, hstore, he.files, if_neg hne]
    exact hs.settled k p hsys id
  · rw [hstore, he.files, if_pos rfl]
    exact hv r hr

/-- **A queued change accounts for its path.** -/
theorem tracks_queued {o : Delivery} (hs : Recorded i c s) (hl : (s.store i).pending = l) :
    Tracks i (fun _ => False) ((semantics C).exec i (.store .record
      (.metaPut keyPending (.queue (SyncEngine.enqueue l (c.change baseRev))))) o s).2 := by
  set s' := ((semantics C).exec i (.store .record
    (.metaPut keyPending (.queue (SyncEngine.enqueue l (c.change baseRev))))) o s).2
  have hstore : s'.store i = ⟨(s.store i).blobs.insert keyPending
      (.queue (SyncEngine.enqueue l (c.change baseRev))), (s.store i).files⟩ :=
    Function.update_self ..
  have hpending : (s'.store i).pending = SyncEngine.enqueue l (c.change baseRev) := by
    rw [hstore]
    simp [MemStore.pending, Blob.toQueue?]
  have hcheckpoint : ∀ k, s'.checkpoint i k = s.checkpoint i k := fun k => by
    unfold State.checkpoint
    rw [hstore, AList.lookup_insert_ne (checkpointKey_ne_pending k)]
  have haside : s'.aside i = s.aside i := Function.update_self ..
  have hpath : (c.change baseRev).path = c.path := c.change_path baseRev
  refine ⟨hs.1.numbered, fun k => ?_, fun d hd hdel _ => ?_, fun k p hsys _ => ?_⟩
  · rw [hcheckpoint]
    exact hs.1.within k
  · rw [hpending] at hd
    rw [hstore]
    rcases SyncEngine.mem_enqueue.1 hd with rfl | ⟨hd, hne⟩
    · rw [hpath]
      exact hs.2 baseRev hdel
    · exact hs.1.gone d (hl ▸ hd) hdel fun heq => hne (heq.trans hpath.symm)
  · by_cases hp : p = c.path
    · refine .inl ⟨c.change baseRev, ?_, hpath.trans hp.symm⟩
      rw [hpending]
      exact SyncEngine.mem_enqueue.2 (.inl rfl)
    · rw [hcheckpoint, haside, UpTo, hstore]
      rcases hs.1.settled k p hsys hp with ⟨d, hd, rfl⟩ | h
      · refine .inl ⟨d, ?_, rfl⟩
        rw [hpending]
        exact SyncEngine.mem_enqueue.2 (.inr ⟨hl ▸ hd, fun heq => hp (heq.trans hpath)⟩)
      · exact .inr h

/-- **Recording a change** does not fail, and accounts for its path. -/
theorem does_record (c : LocalCall) :
    EngineDoes C env .record i (Tracks i fun _ => False) (c.record eng) (fun _ => False)
      fun _ => Tracks i fun _ => False := by
  have hfalse : Lasts i "" fun _ => False := fun _ _ h _ => h
  have htracks : Lasts i "" (Tracks i fun _ => False) := lasts_tracks
  have hrecorded : Lasts i "" (Recorded i c) := lasts_recorded
  rw [LocalCall.record_eq]
  refine SyncEngine.does_report hfalse.stable (fun _ => htracks.stable)
    (fun _ => triple_quiet trivial hfalse) ?_
  refine Does.bind (fun _ => Tracks i fun _ => False) hfalse.stable ?_ fun baseRev => ?_
  · unfold SyncEngine.knownRev
    refine Does.bind (fun _ => Tracks i fun _ => False) hfalse.stable (does_quiet trivial
      (fun _ => ⟨_, rfl⟩) hfalse (fun _ => htracks) fun _ h _ _ => h) fun _ => ?_
    exact does_pure htracks fun _ h => h
  refine Does.bind (fun _ => Recorded i c) hfalse.stable ?_ fun _ => ?_
  · cases c with
    | upsert path mtime contentType content =>
      refine Does.bind (fun _ => Recorded i _) hfalse.stable (does_store rfl (fun _ => ⟨_, rfl⟩)
        hfalse (fun _ => hrecorded) fun o s hs _ _ => recorded_written writes_filePut ?_ hs)
          fun _ => ?_
      · rintro r ⟨⟩
      · exact does_quiet (quiet_fileMeta _ _) (fun _ => ⟨_, rfl⟩) hfalse (fun _ => hrecorded)
          fun _ h _ _ => h
    | delete path mtime =>
      refine Does.bind (fun _ => Recorded i _) hfalse.stable (does_store rfl (fun _ => ⟨_, rfl⟩)
        hfalse (fun _ => hrecorded) fun o s hs _ _ => recorded_written writes_fileDelete
          (fun _ _ => rfl) hs) fun _ => ?_
      exact does_quiet ⟨fileKey_ne_pending _, fileKey_ne_checkpointKey _⟩ (fun _ => ⟨_, rfl⟩)
        hfalse (fun _ => hrecorded) fun _ h _ _ => h
  · unfold SyncEngine.upsertPending
    refine Does.bind _ hfalse.stable (does_loadPending hrecorded hfalse) fun pending => ?_
    exact does_store rfl (fun _ => ⟨_, rfl⟩) hfalse (fun _ => htracks) fun o s hs _ _ =>
      tracks_queued hs.1 hs.2

/-! ## One operation after another -/

/-- **A sync that succeeds** leaves nothing queued, and accounts for every
path of the hub it pulled from. -/
theorem does_sync : EngineDoes C env .sync i (Base i l L) eng.sync (Tracks i fun _ => False)
    fun rep => Pulled i [] L rep.pull.hub := by
  have htracks : Lasts i "" (Tracks i fun _ => False) := lasts_tracks
  unfold SyncEngine.sync
  refine Does.bind _ htracks.stable (Does.mono does_push (fun s hs => hs.toTracks) fun _ _ h => h)
    fun push => ?_
  refine Does.bind _ htracks.stable (Does.mono does_pull (fun s hs => hs.toTracks) fun _ _ h => h)
    fun pull => ?_
  exact does_pure (lasts_pulled (k := "")) fun _ h => h

omit [DecidableEq ι] in
/-- A sync may begin whenever the device keeps track. -/
theorem Tracks.base (hs : Tracks i (fun _ => False) s) : Base i (s.store i).pending (fun _ => 0) s :=
  ⟨hs, rfl, fun _ => Nat.zero_le _⟩

theorem triple_prog (call : DeviceCall) :
    Triple (semantics C) Redelivers contract i (Tracks i fun _ => False) (call.prog env eng)
      fun _ => Tracks i fun _ => False := by
  have htracks : Lasts i "" (Tracks i fun _ => False) := lasts_tracks
  have hpost : ∀ {x : Engine Unit}, (∀ l L, EngineDoes C env .sync i (Base i l L) x
      (Tracks i fun _ => False) fun _ => Tracks i fun _ => False) →
        Triple (semantics C) Redelivers contract i (Tracks i fun _ => False)
          (x.run.expand (NetReq.opened env .sync)) fun _ => Tracks i fun _ => False := by
    intro x hx s hs
    refine Safe.mono (fun r t ht => ?_) (hx _ _ s hs.base)
    cases r <;> exact ht
  cases call with
  | record c =>
    refine Triple.post (does_record c) fun r s hs => ?_
    cases r with
    | ok _ => exact hs
    | error e => exact hs.elim
  | push =>
    refine hpost fun l L => Does.bind (fun _ => Base i [] L) htracks.stable
      (Does.mono does_push (fun s hs => hs.toTracks) fun _ _ h => h) fun _ => ?_
    exact does_pure htracks fun s hs => hs.toTracks
  | pull =>
    refine hpost fun l L => Does.bind (fun rep => Pulled i l L rep.hub) htracks.stable
      (Does.mono does_pull (fun s hs => hs.toTracks) fun _ _ h => h) fun rep => ?_
    exact does_pure htracks fun s hs => hs.toTracks
  | sync =>
    refine hpost fun l L => Does.bind (fun rep => Pulled i [] L rep.pull.hub) htracks.stable
      does_sync fun rep => ?_
    exact does_pure htracks fun s hs => hs.toTracks

/-- **Whatever a device does, it keeps track.** -/
theorem triple_script (calls : List DeviceCall) :
    Triple (semantics C) Redelivers contract i (Tracks i fun _ => False)
      (DeviceCall.script env eng calls) fun _ => Tracks i fun _ => False := by
  induction calls with
  | nil =>
    have htracks : Lasts i "" (Tracks i fun _ => False) := lasts_tracks
    exact Triple.done htracks.stable fun _ h => h
  | cons call calls ih => exact Triple.bind _ (triple_prog call) fun _ => ih

/-! ## The start -/

/-- Nothing is stored anywhere. The device is taken to talk to `hub`. -/
def State.initial (ι : Type) (hub : HubId) : State ι :=
  ⟨⟨fun _ => .empty, fun _ => .empty⟩, fun _ => hub, fun _ _ => []⟩

omit [DecidableEq ι] in
theorem tracks_initial : Tracks i (fun _ => False) (State.initial ι hub) :=
  ⟨fun _ => .empty, fun _ => Nat.zero_le _, fun _ hc => absurd hc List.not_mem_nil,
    fun _ _ _ _ => .inr (.inr (.inr rfl))⟩

end Tracking

end FileSync
