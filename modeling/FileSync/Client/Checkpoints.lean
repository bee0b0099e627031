import FileSync.Model.Tasks
import FileSync.Client.Device
import FileSync.Hub.Updates
/-!
# Checkpoints over a pass

The end of a pull stores a checkpoint, and nothing else writes one. It is the
length a hub's log had at some moment of the pull, so checkpoints do not go
back and are not ahead of their hubs, and a pass that succeeds has been told
all that was at one of its hubs when it began.
-/

namespace FileSync

/-- The call leaves every checkpoint as it is. -/
def EngineReq.KeepsCheckpoints ⦃β : Type⦄ : EngineReq β → Prop
  | .metaPut key _ => ∀ hub, key ≠ checkpointKey hub
  | .metaDelete key => ∀ hub, key ≠ checkpointKey hub
  | _ => True

namespace SyncEngine

open Fallible (All)

variable {eng : SyncEngine} {hub : HubId}

theorem keepsCheckpoints_queue (v : Blob) : (EngineReq.metaPut keyPending v).KeepsCheckpoints :=
  fun hub => pending_ne_checkpointKey hub

theorem keepsCheckpoints_fileMeta (path : Path) (v : Blob) :
    (EngineReq.metaPut (fileKey path) v).KeepsCheckpoints :=
  fun hub => fileKey_ne_checkpointKey path hub

theorem keepsCheckpoints_deleteMeta (path : Path) :
    (EngineReq.metaDelete (fileKey path)).KeepsCheckpoints :=
  fun hub => fileKey_ne_checkpointKey path hub

theorem keepsCheckpoints_loadPending : All EngineReq.KeepsCheckpoints loadPending :=
  .bind (all_store trivial) fun r => by cases r <;> exact Fallible.all_pure _

theorem keepsCheckpoints_push : All EngineReq.KeepsCheckpoints eng.push := by
  have hbuild : ∀ ps, All EngineReq.KeepsCheckpoints (buildPushChanges ps) := by
    intro ps
    induction ps with
    | nil => exact Fallible.all_pure _
    | cons p ps ih =>
      refine .bind ?_ fun _ => .bind ih fun _ => Fallible.all_pure _
      unfold buildPushChange
      split
      · exact Fallible.all_pure _
      · exact .bind (all_store trivial) fun _ => .bind (all_store trivial) fun _ =>
          Fallible.all_pure _
  refine .bind (all_report (fun _ => trivial) keepsCheckpoints_loadPending) fun pending => ?_
  split
  · exact Fallible.all_pure _
  refine .bind (all_report (fun _ => trivial) (hbuild _)) fun changes => ?_
  refine all_failover (fun _ => trivial) _ (fun hub _ => ?_) _
  refine .bind (all_ask trivial) fun results => .bind (all_bumpRevs (fun _ => trivial)
    (fun path m => keepsCheckpoints_fileMeta path (.fileMeta m)) _ _) fun _ => ?_
  dsimp only
  split
  · exact .bind (all_store (keepsCheckpoints_queue _)) fun _ => Fallible.all_pure _
  · exact Fallible.all_pure _

theorem keepsCheckpoints_record (c : LocalCall) :
    All EngineReq.KeepsCheckpoints (c.record eng) := by
  rw [LocalCall.record_eq]
  refine all_report (fun _ => trivial) (.bind (.bind (all_store trivial) fun _ =>
    Fallible.all_pure _) fun baseRev => .bind ?_ fun _ => .bind keepsCheckpoints_loadPending
      fun _ => all_store (keepsCheckpoints_queue _))
  cases c with
  | upsert path mtime contentType content =>
    exact .bind (all_store trivial) fun _ => all_store (keepsCheckpoints_fileMeta _ _)
  | delete path mtime =>
    exact .bind (all_store trivial) fun _ => all_store (keepsCheckpoints_deleteMeta _)

end SyncEngine

namespace Site

variable {C : Couch} {env : HubEnv} {eng : SyncEngine} {mimeOf : Path → String} {hub : HubId}
  {s s' : Site} {α β ε : Type} {P Q B : Site → Prop} {M : α → Site → Prop} {L : HubId → ℕ}

/-- The checkpoint that is stored for a hub, 0 if none. -/
def checkpoint (s : Site) (hub : HubId) : Checkpoint :=
  ((s.desk.blobs.lookup (checkpointKey hub)).bind Blob.toCheckpoint?).getD 0

/-- No checkpoint is ahead of its hub. -/
structure Within (s : Site) : Prop where
  numbered : ∀ hub, (s.hubs hub).Numbered
  within : ∀ hub, s.checkpoint hub ≤ (s.hubs hub).log.length

/-- The hubs go on, and the checkpoints are what they were. -/
structure Onward (s s' : Site) : Prop where
  checkpoint : ∀ hub, s'.checkpoint hub = s.checkpoint hub
  grows : ∀ hub, (s.hubs hub).Grows (s'.hubs hub)
  numbered : ∀ hub, (s.hubs hub).Numbered → (s'.hubs hub).Numbered

/-- What holds on. -/
def Lasts (P : Site → Prop) : Prop := ∀ ⦃s s'⦄, P s → Onward s s' → P s'

/-- No checkpoint is ahead, and the hubs' logs have reached these lengths. -/
structure Reached (L : HubId → ℕ) (s : Site) : Prop extends Within s where
  reached : ∀ hub, L hub ≤ (s.hubs hub).log.length

/-- A pass among others: they leave the checkpoints alone, and it does not
take them back. -/
def contract : Contract Unit Site where
  rely _ := Onward
  guar _ s s' := s.Within → s'.Within ∧ (∀ hub, (s.hubs hub).Grows (s'.hubs hub)) ∧
    ∀ hub, s.checkpoint hub ≤ s'.checkpoint hub

def semantics (C : Couch) : Semantics Unit SiteReq Delivery Empty Site where
  exec _ _ e o s := exec C e o s
  env a _ := a.elim

theorem Lasts.and (hP : Lasts P) (hQ : Lasts Q) : Lasts fun s => P s ∧ Q s :=
  fun _ _ hs h => ⟨hP hs.1 h, hQ hs.2 h⟩

theorem Lasts.stable (h : Lasts P) : contract.Stable () P := fun _ _ hs hrely => h hs hrely

theorem Within.onward (hs : s.Within) (h : Onward s s') : s'.Within :=
  ⟨fun hub => h.numbered hub (hs.numbered hub), fun hub =>
    (h.checkpoint hub).trans_le ((hs.within hub).trans (h.grows hub).length_le)⟩

theorem lasts_reached : Lasts (Reached L) := fun _ _ hs h =>
  ⟨hs.toWithin.onward h, fun hub => (hs.reached hub).trans (h.grows hub).length_le⟩

theorem lasts_checkpoint {n : ℕ} : Lasts fun s => n ≤ s.checkpoint hub := fun _ _ hs h =>
  hs.trans_eq (h.checkpoint hub).symm

/-- **One hub goes on.** -/
theorem onward_update (s : Site) (k : HubId) {db : Db} (hgrows : (s.hubs k).Grows db)
    (hnumbered : (s.hubs k).Numbered → db.Numbered) :
    Onward s { s with hubs := Function.update s.hubs k db } := by
  refine ⟨fun _ => rfl, fun hub => ?_, fun hub => ?_⟩
  · show (s.hubs hub).Grows (Function.update s.hubs k db hub)
    rcases eq_or_ne hub k with rfl | hne
    · rwa [Function.update_self]
    · rw [Function.update_of_ne hne]
      exact .refl _
  · show _ → (Function.update s.hubs k db hub).Numbered
    rcases eq_or_ne hub k with rfl | hne
    · rwa [Function.update_self]
    · rw [Function.update_of_ne hne]
      exact id

theorem guar_of_onward {i : Unit} (h : Onward s s') : contract.guar i s s' := fun hs =>
  ⟨hs.onward h, h.grows, fun hub => (h.checkpoint hub).ge⟩

/-! ## Calls -/

/-- The call stores no checkpoint. -/
def Quiet ⦃β : Type⦄ : SiteReq β → Prop
  | .inl (.store _ e) => e.KeepsCheckpoints
  | .inl (.link _) => True
  | .inl (.couch _ e) => e.Numbered
  | .inr _ => True

theorem checkpoint_insert {key : String} {v : Blob} (hne : key ≠ checkpointKey hub) {d : Desktop} :
    checkpoint ⟨{ d with blobs := d.blobs.insert key v }, s.hubs⟩ hub =
      checkpoint ⟨d, s.hubs⟩ hub := by
  unfold checkpoint
  rw [AList.lookup_insert_ne hne.symm]

theorem checkpoint_erase {key : String} (hne : key ≠ checkpointKey hub) {d : Desktop} :
    checkpoint ⟨{ d with blobs := d.blobs.erase key }, s.hubs⟩ hub =
      checkpoint ⟨d, s.hubs⟩ hub := by
  unfold checkpoint
  rw [AList.lookup_erase_ne hne.symm]

/-- **A call that stores none** leaves the checkpoints, and a hub's log does
not get shorter. -/
theorem onward_exec {e : SiteReq β} (he : Quiet e) (o : Delivery) (s : Site) :
    Onward s (exec C e o s).2 := by
  have hsame : ∀ {d : Desktop}, (∀ hub, checkpoint ⟨d, s.hubs⟩ hub = s.checkpoint hub) →
      Onward s ⟨d, s.hubs⟩ := fun h => ⟨h, fun hub => .refl _, fun hub => id⟩
  rcases e with e | e
  · cases e with
    | store origin e =>
      refine hsame fun hub => ?_
      cases e with
      | metaPut key v => exact checkpoint_insert (he hub)
      | metaDelete key => exact checkpoint_erase (he hub)
      | _ => rfl
    | link e => exact hsame fun hub => rfl
    | couch k e =>
      have hanswer : Onward s { s with
          hubs := Function.update s.hubs k (C.answer e (s.hubs k)).2 } :=
        onward_update s k (Db.grows_answer C e _) (Db.numbered_answer C he)
      cases o with
      | delivered => exact hanswer
      | unsent => exact hsame fun hub => rfl
      -- the hub has done it all the same
      | unanswered => exact hanswer
  · have hos : (Desktop.osExec e s.desk).2 = s.desk := by
      cases e with
      | scan => rfl
      | readFile path =>
        simp only [Desktop.osExec]
        split <;> rfl
      | nowSecs => rfl
    refine hsame fun hub => ?_
    rw [hos]

/-! ## Programs -/

/-- What a program of the engine's does as part of a pass. -/
abbrev EngineDoes (C : Couch) (env : HubEnv) (P : Site → Prop) (x : Engine α) (B : Site → Prop)
    (M : α → Site → Prop) : Prop :=
  Does (semantics C) .any contract () (fun _ e => Desktop.opened env (.inl e)) P x (Post B M)

theorem triple_quietly {p : Prog SiteReq α} (hP : Lasts P) (hp : p.All Quiet) :
    Triple (semantics C) .any contract () P p fun _ => P :=
  Triple.of_all hP.stable (fun _ _ he o s hs _ =>
    ⟨guar_of_onward (onward_exec he o s), hP hs (onward_exec he o s)⟩) hp

/-- What the hubs do for a device is numbered. -/
theorem numbered_opened {β : Type} {e : EngineReq β} (he : e.KeepsCheckpoints) :
    (Desktop.opened env (.inl e)).All Quiet := by
  have hstore : ∀ {e' : NetReq β}, Quiet (.inl e' : SiteReq β) →
      ((Prog.perform e' : Prog NetReq β).expand fun _ e =>
        (Prog.perform (.inl e) : Prog SiteReq _)).All Quiet := fun h => ⟨h, fun _ => trivial⟩
  have hask : ∀ {γ : Type} (hub : HubId) {p : Prog CouchReq (Except HubError γ)},
      p.All (fun _ e => e.Numbered) → ((NetReq.overLink hub p).expand fun _ e =>
        (Prog.perform (.inl e) : Prog SiteReq _)).All Quiet := fun hub p hp =>
    (NetReq.all_overLink (φ := fun _ e => Quiet (.inl e)) trivial hp).expand fun _ _ he =>
      ⟨he, fun _ => trivial⟩
  have hcalls : PushCalls fun _ e => e.Numbered := CouchReq.numbered_calls
  cases e with
  | hubChanges hub since =>
    exact hask hub (Fallible.All.adapt (.bind (.adapt (all_call trivial _)) fun _ =>
      Fallible.all_pure _))
  | hubGetFile hub path =>
    refine hask hub (.bind (Fallible.All.bind (.adapt (all_call (hcalls.getDoc _) _)) fun doc => ?_)
      fun _ => trivial)
    cases doc with
    | none => exact Fallible.all_throw _
    | some doc =>
      exact .bind (.adapt (all_call (hcalls.getAttachment _ _) _)) fun _ => Fallible.all_pure _
  | hubPush hub changes =>
    exact hask hub (Fallible.All.adapt (Push.all_postChanges hcalls changes))
  | _ => exact hstore he

theorem does_quietly {x : Engine α} (hP : Lasts P)
    (hx : Fallible.All EngineReq.KeepsCheckpoints x) : EngineDoes C env P x P fun _ => P :=
  Does.of_all hP.stable (fun _ _ he => triple_quietly hP (numbered_opened he)) hx

/-- A checkpoint between the one that is stored and the end of the hub's
log. -/
structure Fetched (L : HubId → ℕ) (hub : HubId) (n : ℕ) (s : Site) : Prop
    extends Reached L s where
  since : L hub ≤ n
  onward : s.checkpoint hub ≤ n
  length : n ≤ (s.hubs hub).log.length

theorem lasts_fetched {n : ℕ} : Lasts (Fetched L hub n) := fun _ _ hs h =>
  ⟨lasts_reached hs.toReached h, hs.since, (h.checkpoint hub).trans_le hs.onward,
    hs.length.trans (h.grows hub).length_le⟩

/-- The hub reads its feed, whose end is its log's. -/
theorem triple_changes {since : Option Checkpoint} :
    Triple (semantics C) .any contract () (Reached L)
      ((NetReq.onHub hub (HubClient.changes since)).expand fun _ e => .perform (.inl e))
      (Post (Reached L) fun resp => Fetched L hub resp.checkpoint) := by
  have hpost : ∀ r : Except HttpFailure RawChangesResponse, contract.Stable ()
      (Post (Reached L) (fun raw => Fetched L hub raw.lastSeq) r) :=
    stable_post lasts_reached.stable fun _ => lasts_fetched.stable
  refine Triple.call (Post (Reached L) fun raw => Fetched L hub raw.lastSeq) hpost
    (fun o s hs _ => ?_) fun r => ?_
  · have honward := onward_exec (C := C) (e := .inl (.couch hub (.changes since))) trivial o s
    refine ⟨guar_of_onward honward, ?_⟩
    cases o with
    | delivered =>
      exact lasts_fetched ⟨hs, hs.reached hub, hs.within hub, le_refl _⟩ honward
    | unsent => exact hs
    | unanswered => exact lasts_reached hs honward
  · cases r with
    | ok raw =>
      exact Triple.done (Q := Post (Reached L) fun resp : ChangesResponse =>
        Fetched L hub resp.checkpoint) lasts_fetched.stable fun _ hs => hs
    | error x =>
      exact Triple.done (Q := Post (Reached L) fun resp : ChangesResponse =>
        Fetched L hub resp.checkpoint) lasts_reached.stable fun _ hs => hs

/-- **The feed** comes with the length of the hub's log. -/
theorem does_hubChanges {since : Option Checkpoint} :
    EngineDoes C env (Reached L) (SyncEngine.ask (.hubChanges hub since)) (Reached L)
      fun resp => Fetched L hub resp.checkpoint := by
  have hmessage : ∀ {P : Site → Prop}, Lasts P → Triple (semantics C) .any contract () P
      ((Prog.perform (.link (.message hub)) : Prog NetReq Bool).expand fun _ e =>
        .perform (.inl e)) fun _ => P := fun hP => triple_quietly hP ⟨trivial, fun _ => trivial⟩
  have hlost : Triple (semantics C) .any contract () (Reached L)
      (.done (.error (.transport "")))
      (Post (Reached L) fun resp => Fetched L hub resp.checkpoint :
        Except HubError ChangesResponse → Site → Prop) :=
    Triple.done (Q := Post (Reached L) _) lasts_reached.stable fun _ hs => hs
  refine Does.ask lasts_reached.stable (fun _ => lasts_fetched.stable) ?_
  show Triple (semantics C) .any contract () (Reached L)
    ((NetReq.overLink hub (HubClient.changes since)).expand fun _ e =>
      (Prog.perform (.inl e) : Prog SiteReq _)) _
  unfold NetReq.overLink
  rw [Prog.expand_bind]
  refine Triple.bind _ (hmessage lasts_reached) fun sent => ?_
  cases sent with
  | false => exact hlost
  | true =>
    simp only [if_true]
    rw [Prog.expand_bind]
    refine Triple.bind _ triple_changes fun r => ?_
    rw [Prog.expand_bind]
    cases r with
    | error x =>
      refine Triple.bind _ (hmessage lasts_reached) fun answered => ?_
      cases answered <;> exact Triple.done (Q := Post (Reached L) _) lasts_reached.stable fun _ hs => hs
    | ok resp =>
      refine Triple.bind _ (hmessage lasts_fetched) fun answered => ?_
      cases answered with
      | false => exact hlost.pre fun _ hs => hs.toReached
      | true =>
        exact Triple.done (Q := Post (Reached L) fun resp : ChangesResponse =>
          Fetched L hub resp.checkpoint) lasts_fetched.stable fun _ hs => hs

/-- **The checkpoint is stored** where the hub's log has been. -/
theorem stores_checkpoint {n : ℕ} {o : Delivery} (hs : Fetched L hub n s) :
    contract.guar () s (exec C (.inl (.store .sync (.metaPut (checkpointKey hub)
        (.checkpoint n)))) o s).2 ∧
      Reached L (exec C (.inl (.store .sync (.metaPut (checkpointKey hub) (.checkpoint n)))) o s).2 ∧
      L hub ≤ (exec C (.inl (.store .sync (.metaPut (checkpointKey hub) (.checkpoint n)))) o s).2.checkpoint
        hub := by
  set s' := (exec C (.inl (.store .sync (.metaPut (checkpointKey hub) (.checkpoint n)))) o s).2
  have hsame : s'.checkpoint hub = n := by
    show (((s.desk.blobs.insert (checkpointKey hub) (.checkpoint n)).lookup _).bind _).getD 0 = n
    rw [AList.lookup_insert]
    rfl
  have hothers : ∀ k, k ≠ hub → s'.checkpoint k = s.checkpoint k := fun k hne =>
    checkpoint_insert fun h => hne (checkpointKey_inj.1 h).symm
  have hwithin : ∀ k, s'.checkpoint k ≤ (s.hubs k).log.length ∧ s.checkpoint k ≤ s'.checkpoint k := by
    intro k
    rcases eq_or_ne k hub with rfl | hne
    · rw [hsame]
      exact ⟨hs.length, hs.onward⟩
    · rw [hothers k hne]
      exact ⟨hs.within k, le_refl _⟩
  have hwithin' : s'.Within := ⟨hs.numbered, fun k => (hwithin k).1⟩
  exact ⟨fun _ => ⟨hwithin', fun k => .refl _, fun k => (hwithin k).2⟩, ⟨hwithin', hs.reached⟩,
    hs.since.trans_eq hsame.symm⟩

/-- The report of a pull keeps the hub it is of. -/
theorem does_applyAll {k : HubId} (hP : Lasts P) (entries : List ChangeEntry) (rep : PullReport)
    (hrep : rep.hub = k) :
    EngineDoes C env P (SyncEngine.applyAll hub entries rep) P fun rep s => P s ∧ rep.hub = k := by
  have hM : ∀ rep : PullReport, Lasts fun s => P s ∧ rep.hub = k := fun _ => hP.and fun _ _ h _ => h
  have hstore : ∀ {e : EngineReq (Except StoreError Unit)}, e.KeepsCheckpoints →
      EngineDoes C env P (SyncEngine.store e) P fun _ => P := fun he =>
    does_quietly hP (SyncEngine.all_store he)
  have hone : ∀ entry (rep : PullReport), rep.hub = k →
      EngineDoes C env P (SyncEngine.applyRemote hub entry rep) P fun rep s => P s ∧ rep.hub = k := by
    intro entry rep hrep
    refine Does.bind (fun _ => P) hP.stable (does_quietly hP
      (.bind SyncEngine.keepsCheckpoints_loadPending fun _ => Fallible.all_pure _)) fun queued => ?_
    split
    · exact Does.pure (hM _).stable fun _ hs => ⟨hs, hrep⟩
    split
    · exact Does.bind (fun _ => P) hP.stable (hstore trivial) fun _ =>
        Does.bind (fun _ => P) hP.stable (hstore (SyncEngine.keepsCheckpoints_deleteMeta _)) fun _ =>
          Does.pure (hM _).stable fun _ hs => ⟨hs, hrep⟩
    · refine Does.bind (fun _ => P) hP.stable (does_quietly hP (SyncEngine.all_ask trivial)) fun file => ?_
      cases file with
      | none => exact Does.throw hP.stable fun _ hs => hs
      | some file =>
        exact Does.bind (fun _ => P) hP.stable (hstore trivial) fun _ =>
          Does.bind (fun _ => P) hP.stable (hstore (SyncEngine.keepsCheckpoints_fileMeta _ _))
            fun _ => Does.pure (hM _).stable fun _ hs => ⟨hs, hrep⟩
  induction entries generalizing rep with
  | nil => exact Does.pure (hM rep).stable fun _ hs => ⟨hs, hrep⟩
  | cons entry entries ih =>
    refine Does.bind _ hP.stable (hone entry rep hrep) fun rep' => ?_
    exact Triple.of_pure (φ := rep'.hub = k) (fun _ hs => hs.2) fun hrep' =>
      (ih rep' hrep').pre fun _ hs => hs.1

/-- **A pull from a hub** ends with the checkpoint where its log has been. -/
theorem does_pullFrom :
    EngineDoes C env (Reached L) (SyncEngine.pullFrom hub) (Reached L) fun rep s =>
      (Reached L s ∧ L hub ≤ s.checkpoint hub) ∧ rep.hub = hub := by
  have hdone : Lasts fun s => Reached L s ∧ L hub ≤ s.checkpoint hub :=
    lasts_reached.and lasts_checkpoint
  unfold SyncEngine.pullFrom
  refine Does.bind _ lasts_reached.stable (does_quietly lasts_reached (SyncEngine.all_store trivial))
    fun stored => Does.bind _ lasts_reached.stable does_hubChanges fun resp => ?_
  have hfetched : EngineDoes C env (Fetched L hub resp.checkpoint)
      (SyncEngine.applyAll hub resp.changes ⟨hub, 0, 0, [], some resp.checkpoint⟩) (Reached L)
        fun rep s => Fetched L hub resp.checkpoint s ∧ rep.hub = hub :=
    (does_applyAll lasts_fetched _ _ rfl).mono (fun _ hs => hs.toReached) fun _ _ hs => hs
  refine Does.bind _ lasts_reached.stable hfetched fun rep => ?_
  refine Triple.of_pure (φ := rep.hub = hub) (fun _ hs => hs.2) fun hrep => ?_
  refine Does.bind (fun _ s => Reached L s ∧ L hub ≤ s.checkpoint hub) lasts_reached.stable
    (Does.ask_perform rfl lasts_reached.stable (fun _ => hdone.stable) fun o s hs _ => ?_)
      fun _ => Does.pure (hdone.and fun _ _ h _ => h).stable fun _ hs => ⟨hs, hrep⟩
  obtain ⟨hguar, hstored⟩ := stores_checkpoint (C := C) (o := o) hs.1
  exact ⟨hguar, fun _ _ => hstored, fun _ _ => hstored.1⟩

/-- **Trying the hubs in turn**: the one that answered is one of them. -/
theorem does_failover {attempt : HubId → Engine α} {hubs : List HubId} (hB : Lasts B)
    (hM : ∀ a, Lasts (M a)) (hx : ∀ hub ∈ hubs, EngineDoes C env B (attempt hub) B M)
    (last : Option SyncError) : EngineDoes C env B (eng.failover attempt hubs last) B M := by
  have hnotify : ∀ e, Triple (semantics C) .any contract () B
      (Desktop.opened env (.inl (.notifyError e))) fun _ => B := fun e =>
    triple_quietly hB (numbered_opened trivial)
  induction hubs generalizing last with
  | nil => exact SyncEngine.does_notify hB.stable hnotify _
  | cons hub hubs ih =>
    unfold SyncEngine.failover
    refine Does.bind _ hB.stable (Does.attempt hB.stable (fun a => (hM a).stable)
      (hx hub List.mem_cons_self)) fun r => ?_
    rcases r with (e | e | _) | a
    · exact SyncEngine.does_notify hB.stable hnotify _
    · exact ih (fun k hk => hx k (List.mem_cons_of_mem _ hk)) _
    · exact Does.throw hB.stable fun _ h => h
    · exact Does.pure (hM a).stable fun _ h => h

/-- The hub that was pulled from has been pulled up to where its log was. -/
def Pulled (hubs : List HubId) (L : HubId → ℕ) (rep : PullReport) (s : Site) : Prop :=
  rep.hub ∈ hubs ∧ L rep.hub ≤ s.checkpoint rep.hub

theorem lasts_pulled {hubs : List HubId} {rep : PullReport} : Lasts (Pulled hubs L rep) :=
  fun _ _ ⟨hhub, hs⟩ h => ⟨hhub, lasts_checkpoint hs h⟩

theorem does_sync :
    EngineDoes C env (Reached L) eng.sync (Reached L) fun report s =>
      Reached L s ∧ Pulled eng.hubs L report.pull s := by
  have hdone : ∀ rep, Lasts fun s => Reached L s ∧ Pulled eng.hubs L rep s := fun _ =>
    lasts_reached.and lasts_pulled
  refine Does.bind _ lasts_reached.stable
    (does_quietly lasts_reached SyncEngine.keepsCheckpoints_push) fun _ => ?_
  refine Does.bind (fun rep s => Reached L s ∧ Pulled eng.hubs L rep s) lasts_reached.stable ?_
    fun rep => Does.pure (hdone rep).stable fun _ hs => hs
  refine does_failover lasts_reached hdone (fun hub hhub => ?_) none
  refine does_pullFrom.mono (fun _ hs => hs) ?_
  rintro rep s ⟨⟨hs, hpulled⟩, rfl⟩
  exact ⟨hs, hhub, hpulled⟩

/-! ## A pass -/

/-- What a program of the desktop client does. -/
abbrev DesktopDoes (C : Couch) (env : HubEnv) (P : Site → Prop) (x : DesktopM α) (B : Site → Prop)
    (M : α → Site → Prop) : Prop :=
  Does (semantics C) .any contract () (Desktop.opened env) P x (Post B M)

theorem does_engine {x : Engine α} (hB : Lasts B) (hM : ∀ a, Lasts (M a))
    (hx : EngineDoes C env P x B M) : DesktopDoes C env P (Desktop.engine x) B M := by
  refine Does.adapt hB.stable (fun a => (hM a).stable) ?_
  show Triple _ _ _ _ _ ((x.run.expand _).expand _) _
  have hopened : (fun β (e : EngineReq β) => (Prog.perform (.inl e : DesktopReq β)).expand
      (Desktop.opened env)) = fun _ e => Desktop.opened env (.inl e) :=
    funext fun _ => funext fun e => Prog.bind_done _
  rw [Prog.expand_expand, hopened]
  exact hx

theorem does_os {e : OsReq α} (hP : Lasts P) :
    DesktopDoes C env P (Desktop.os e) P fun _ => P :=
  Triple.bind (fun _ => P) (triple_quietly hP ⟨trivial, fun _ => trivial⟩) fun _ =>
    Triple.done (Q := Post P fun _ => P) hP.stable fun _ hs => hs

theorem does_recordFiles (hP : Lasts P) (files : List (Path × ℤ)) :
    DesktopDoes C env P (Desktop.recordFiles eng mimeOf files) P fun _ => P := by
  have hrecord : ∀ c : LocalCall, DesktopDoes C env P (Desktop.engine (c.record eng)) P fun _ => P :=
    fun c => does_engine hP (fun _ => hP) (does_quietly hP (SyncEngine.keepsCheckpoints_record c))
  have hread : ∀ path, DesktopDoes C env P (Desktop.engine (SyncEngine.readFileMeta path)) P
      fun _ => P := fun path =>
    does_engine hP (fun _ => hP) (does_quietly hP
      (.bind (SyncEngine.all_store trivial) fun _ => Fallible.all_pure _))
  induction files with
  | nil => exact Does.pure hP.stable fun _ hs => hs
  | cons file files ih =>
    obtain ⟨path, mtime⟩ := file
    refine Does.bind (fun _ => P) hP.stable ?_ fun _ => ih
    refine Does.bind (fun _ => P) hP.stable (hread path) fun known => ?_
    split
    · exact Does.pure hP.stable fun _ hs => hs
    refine Does.bind (fun _ => P) hP.stable (does_os hP) fun r => ?_
    rcases r with (_ | _) | content
    · exact Does.pure hP.stable fun _ hs => hs
    · exact Does.throw hP.stable fun _ hs => hs
    · exact hrecord (.upsert path mtime (mimeOf path) content)

theorem does_recordMissing (hP : Lasts P) (seen : List (Path × ℤ)) (paths : List Path) :
    DesktopDoes C env P (Desktop.recordMissing eng seen paths) P fun _ => P := by
  have hrecord : ∀ c : LocalCall, DesktopDoes C env P (Desktop.engine (c.record eng)) P fun _ => P :=
    fun c => does_engine hP (fun _ => hP) (does_quietly hP (SyncEngine.keepsCheckpoints_record c))
  induction paths with
  | nil => exact Does.pure hP.stable fun _ hs => hs
  | cons path paths ih =>
    unfold Desktop.recordMissing
    split
    · exact Does.bind (fun _ => P) hP.stable (does_os hP) fun now =>
        Does.bind (fun _ => P) hP.stable (hrecord (.delete path now)) fun _ => ih
    · exact ih

theorem does_recordChanges (hP : Lasts P) :
    DesktopDoes C env P (Desktop.recordChanges eng mimeOf) P fun _ => P := by
  refine Does.bind (fun _ => P) hP.stable (does_os hP) fun seen => ?_
  refine Does.bind (fun _ => P) hP.stable (does_recordFiles hP seen) fun _ => ?_
  refine Does.bind (fun _ => P) hP.stable (does_engine hP (fun _ => hP) (does_quietly hP
    (.bind (SyncEngine.all_store trivial) fun _ => Fallible.all_pure _))) fun known => ?_
  exact does_recordMissing hP seen known

/-- A pass that keeps its report is a pass. -/
theorem reconcileAndSync_eq : Desktop.reconcileAndSync eng mimeOf =
    Desktop.reconcileAndReport eng mimeOf >>= fun _ => pure () := by
  unfold Desktop.reconcileAndSync Desktop.reconcileAndReport
  rw [bind_assoc]

/-- **A pass** keeps every checkpoint behind its hub and takes none back, and
one that succeeds has pulled a hub up to where its log was when the pass
began. -/
theorem triple_pass : Triple (semantics C) .any contract () (Reached L) (Client.pass env eng mimeOf)
    (Post (Reached L) fun report s => Reached L s ∧ Pulled eng.hubs L report.pull s) := by
  have hpass : DesktopDoes C env (Reached L) (Desktop.reconcileAndReport eng mimeOf) (Reached L)
      fun report s => Reached L s ∧ Pulled eng.hubs L report.pull s :=
    Does.bind _ lasts_reached.stable (does_recordChanges lasts_reached) fun _ =>
      does_engine lasts_reached (fun _ => lasts_reached.and lasts_pulled) does_sync
  exact hpass

end Site

end FileSync
