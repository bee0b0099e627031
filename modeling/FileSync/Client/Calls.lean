import FileSync.Model.Engine
import FileSync.Common.Interleave
/-!
# Which calls the engine's programs make

The queue is written in two places only: by the last call of a record
operation, and by the call that clears it at the end of a push. Everything
else an engine program does leaves the `pending` key alone, and what it
writes under a file's key is metadata.
-/

namespace FileSync

/-- The call writes nothing under the `pending` key, and metadata only under
a file's. -/
def EngineReq.KeepsQueue ⦃β : Type⦄ : EngineReq β → Prop
  | .metaPut key value => key ≠ keyPending ∧ ∀ path, key = fileKey path → ∃ m, value = .fileMeta m
  | .metaDelete key => key ≠ keyPending
  | _ => True

/-- The call reads the `pending` key. -/
def EngineReq.loadsQueue ⦃β : Type⦄ : EngineReq β → Bool
  | .metaGet key => key = keyPending
  | _ => false

/-- What the call writes under the `pending` key. -/
def EngineReq.storesQueue ⦃β : Type⦄ : EngineReq β → Option Blob
  | .metaPut key value => if key = keyPending then some value else none
  | _ => none

theorem EngineReq.KeepsQueue.storesQueue {β : Type} {e : EngineReq β} (h : e.KeepsQueue) :
    e.storesQueue = none := by
  cases e with
  | metaPut key value => exact if_neg h.1
  | _ => rfl

/-- The call leaves the `pending` key alone or empties the queue. -/
def EngineReq.ClearsQueue ⦃β : Type⦄ (e : EngineReq β) : Prop :=
  e.KeepsQueue ∨ e.storesQueue = some (.queue [])

theorem EngineReq.keepsQueue_fileMeta (path : Path) (m : FileMeta) :
    (EngineReq.metaPut (fileKey path) (.fileMeta m)).KeepsQueue :=
  ⟨fileKey_ne_pending path, fun _ _ => ⟨m, rfl⟩⟩

theorem EngineReq.keepsQueue_checkpoint (hub : HubId) (token : Checkpoint) :
    (EngineReq.metaPut (checkpointKey hub) (.checkpoint token)).KeepsQueue :=
  ⟨checkpointKey_ne_pending hub, fun path h => absurd h (checkpointKey_ne_fileKey hub path)⟩

namespace MemStore

variable {β : Type} {s : MemStore} {o : HubAnswers}

/-- A call that keeps the queue keeps the bytes it is stored as. -/
theorem exec_lookup_pending {e : EngineReq β} (h : e.KeepsQueue) :
    (MemStore.exec e o s).2.blobs.lookup keyPending = s.blobs.lookup keyPending := by
  cases e with
  | metaPut key value => exact AList.lookup_insert_ne h.1.symm
  | metaDelete key =>
    have hne : key ≠ keyPending := h
    exact AList.lookup_erase_ne hne.symm
  | _ => rfl

/-- A call that keeps the queue keeps the queue. -/
theorem exec_pending {e : EngineReq β} (h : e.KeepsQueue) :
    (MemStore.exec e o s).2.pending = s.pending := by
  simp only [pending, exec_lookup_pending h]

end MemStore

namespace SyncEngine

open Fallible (All)

variable {eng : SyncEngine} {φ : ∀ ⦃β : Type⦄, EngineReq β → Prop} {α : Type}

/-! ## The wrappers -/

theorem all_store {e : EngineReq (Except StoreError α)} (h : φ e) : All φ (store e) :=
  (Fallible.all_ask _ _).2 h

theorem all_ask {e : EngineReq (Except HubError α)} (h : φ e) : All φ (ask e) :=
  (Fallible.all_ask _ _).2 h

theorem all_notify (h : ∀ error, φ (.notifyError error)) (error : SyncError) :
    All φ (eng.notify error : Engine α) := by
  unfold notify
  split
  exacts [⟨h _, fun _ => trivial⟩, trivial]

theorem all_report {x : Engine α} (h : ∀ error, φ (.notifyError error)) (hx : All φ x) :
    All φ (eng.report x) := by
  refine .bind hx.attempt fun r => ?_
  cases r with
  | ok a => exact Fallible.all_pure a
  | error e => exact all_notify h e

theorem all_failover {attempt : HubId → Engine α} (h : ∀ error, φ (.notifyError error))
    (hubs : List HubId) (hx : ∀ hub ∈ hubs, All φ (attempt hub)) (last : Option SyncError) :
    All φ (eng.failover attempt hubs last) := by
  induction hubs generalizing last with
  | nil => exact all_notify h _
  | cons hub hubs ih =>
    refine .bind (hx hub List.mem_cons_self).attempt fun r => ?_
    rcases r with (e | e | _) | a
    exacts [all_notify h _, ih (fun k hk => hx k (List.mem_cons_of_mem _ hk)) _,
      Fallible.all_throw _, Fallible.all_pure a]

/-- **Reporting a failure** changes nothing that a notification does not. -/
theorem triple_report {ι O A σ : Type} {S : Semantics ι EngineReq O A σ}
    {C : StepCond ι EngineReq O A σ} {K : Contract ι σ} {i : ι} {P : σ → Prop} {x : Engine α}
    {Q : Except SyncError α → σ → Prop} (hst : ∀ r, K.Stable i (Q r))
    (hnotify : ∀ e o s, Q (.error e) s → C.call i (.notifyError e) o s →
      K.guar i s (S.exec i (.notifyError e) o s).2 ∧
        Q (.error e) (S.exec i (.notifyError e) o s).2)
    (hx : Triple S C K i P x.run Q) : Triple S C K i P (eng.report x).run Q := by
  have hst' : ∀ r : Except SyncError (Except SyncError α), K.Stable i fun s =>
      ∃ r', r = .ok r' ∧ Q r' s := by
    rintro r s s' ⟨r', hr, hs⟩ h
    exact ⟨r', hr, hst r' hs h⟩
  refine Triple.bindE _ (Triple.attempt hst hx) (fun r => ?_) (fun e => hst' _) fun e s ⟨_, h, _⟩ => by cases h
  refine Triple.pre (P := Q r) ?_ fun s ⟨_, hr, hs⟩ => Except.ok.inj hr ▸ hs
  cases r with
  | ok a => exact Triple.done (hst _) fun _ hs => hs
  | error e =>
    dsimp only
    unfold notify
    split
    · exact Triple.call (fun _ => Q (.error e)) (fun _ => hst _) (hnotify e) fun _ =>
        Triple.done (hst _) fun _ hs => hs
    · exact Triple.done (hst _) fun _ hs => hs

section Does

variable {ι O A σ : Type} {E : Type → Type} {S : Semantics ι E O A σ} {C : StepCond ι E O A σ}
  {K : Contract ι σ} {i : ι} {f : ∀ ⦃β : Type⦄, EngineReq β → Prog E β} {P B : σ → Prop}
  {M : α → σ → Prop}

/-- A notification that keeps what a failure leaves. -/
theorem does_notify (hB : K.Stable i B)
    (hnotify : ∀ e, Triple S C K i B (f (.notifyError e)) fun _ => B) (error : SyncError) :
    Does S C K i f B (eng.notify error : Engine α) (Post B M) := by
  have hdone : Triple S C K i B (.done (.error error)) (Post B M : Except SyncError α → σ → Prop) :=
    Triple.done (Q := Post B M) hB fun _ hs => hs
  unfold notify
  split
  · exact Triple.bind _ (hnotify error) fun _ => hdone
  · exact hdone

/-- **Reporting a failure.** -/
theorem does_report (hB : K.Stable i B) (hM : ∀ a, K.Stable i (M a))
    (hnotify : ∀ e, Triple S C K i B (f (.notifyError e)) fun _ => B) {x : Engine α}
    (hx : Does S C K i f P x (Post B M)) : Does S C K i f P (eng.report x) (Post B M) := by
  refine Does.bind _ hB (Does.attempt hB hM hx) fun r => ?_
  cases r with
  | ok a => exact Does.pure (hM a) fun _ h => h
  | error e => exact does_notify hB hnotify e

/-- **Trying the hubs in turn**: each try starts from what a failed one
leaves. -/
theorem does_failover {attempt : HubId → Engine α} (hB : K.Stable i B)
    (hM : ∀ a, K.Stable i (M a))
    (hnotify : ∀ e, Triple S C K i B (f (.notifyError e)) fun _ => B)
    (hx : ∀ hub, Does S C K i f B (attempt hub) (Post B M)) (hubs : List HubId)
    (last : Option SyncError) : Does S C K i f B (eng.failover attempt hubs last) (Post B M) := by
  induction hubs generalizing last with
  | nil => exact does_notify hB hnotify _
  | cons hub hubs ih =>
    unfold failover
    refine Does.bind _ hB (Does.attempt hB hM (hx hub)) fun r => ?_
    rcases r with (e | e | _) | a
    · exact does_notify hB hnotify _
    · exact ih _
    · exact Does.throw hB fun _ h => h
    · exact Does.pure (hM a) fun _ h => h

/-- With one hub there is one try. -/
theorem does_failover_one {attempt : HubId → Engine α} {hub : HubId} (hB : K.Stable i B)
    (hM : ∀ a, K.Stable i (M a))
    (hnotify : ∀ e, Triple S C K i B (f (.notifyError e)) fun _ => B)
    (hx : Does S C K i f P (attempt hub) (Post B M)) (last : Option SyncError) :
    Does S C K i f P (eng.failover attempt [hub] last) (Post B M) := by
  unfold failover
  refine Does.bind _ hB (Does.attempt hB hM hx) fun r => ?_
  rcases r with (e | e | _) | a
  · exact does_notify hB hnotify _
  · exact does_notify hB hnotify _
  · exact Does.throw hB fun _ h => h
  · exact Does.pure (hM a) fun _ h => h

end Does

/-! ## Programs that keep the queue -/

theorem keeps_loadPending : All EngineReq.KeepsQueue loadPending :=
  .bind (all_store trivial) fun r => by cases r <;> exact Fallible.all_pure _

theorem keeps_pendingContains (path : Path) : All EngineReq.KeepsQueue (pendingContains path) :=
  .bind keeps_loadPending fun _ => Fallible.all_pure _

/-- Adopting revisions reads and writes metadata under files' keys. -/
theorem all_bumpRev (hget : ∀ key, φ (.metaGet key))
    (hput : ∀ path m, φ (.metaPut (fileKey path) (.fileMeta m))) (path : Path)
    (rev : Option Rev) : All φ (bumpRev path rev) := by
  refine .bind (all_store (hget _)) fun bytes => ?_
  rcases bytes with _ | bytes
  · exact Fallible.all_pure _
  · dsimp only
    cases bytes.toFileMeta? with
    | none => exact Fallible.all_throw _
    | some m => exact all_store (hput _ _)

theorem all_bumpRevs (hget : ∀ key, φ (.metaGet key))
    (hput : ∀ path m, φ (.metaPut (fileKey path) (.fileMeta m)))
    (l : List (PendingChange × PushResult)) (pushed : ℕ) : All φ (bumpRevs l pushed) := by
  induction l generalizing pushed with
  | nil => exact Fallible.all_pure _
  | cons x l ih =>
    obtain ⟨change, result⟩ := x
    unfold bumpRevs
    split
    exacts [.bind (all_bumpRev hget hput _ _) fun _ => ih _, ih _]

theorem keeps_bumpRevs (l : List (PendingChange × PushResult)) (pushed : ℕ) :
    All EngineReq.KeepsQueue (bumpRevs l pushed) :=
  all_bumpRevs (fun _ => trivial) EngineReq.keepsQueue_fileMeta l pushed

theorem keeps_buildPushChange (p : PendingChange) :
    All EngineReq.KeepsQueue (buildPushChange p) := by
  unfold buildPushChange
  split
  · exact Fallible.all_pure _
  · exact .bind (all_store trivial) fun _ => .bind (all_store trivial) fun _ => Fallible.all_pure _

theorem keeps_buildPushChanges (ps : List PendingChange) :
    All EngineReq.KeepsQueue (buildPushChanges ps) := by
  induction ps with
  | nil => exact Fallible.all_pure _
  | cons p ps ih =>
    exact .bind (keeps_buildPushChange p) fun _ => .bind ih fun _ => Fallible.all_pure _

theorem keeps_applyRemote (hub : HubId) (entry : ChangeEntry) (rep : PullReport) :
    All EngineReq.KeepsQueue (applyRemote hub entry rep) := by
  refine .bind (keeps_pendingContains _) fun pending => ?_
  split
  · exact Fallible.all_pure _
  split
  · exact .bind (all_store trivial) fun _ =>
      .bind (all_store (fileKey_ne_pending _)) fun _ => Fallible.all_pure _
  · refine .bind (all_ask trivial) fun file => ?_
    cases file with
    | none => exact Fallible.all_throw _
    | some file =>
      exact .bind (all_store trivial) fun _ =>
        .bind (all_store (EngineReq.keepsQueue_fileMeta _ _)) fun _ => Fallible.all_pure _

theorem keeps_applyAll (hub : HubId) (entries : List ChangeEntry) (rep : PullReport) :
    All EngineReq.KeepsQueue (applyAll hub entries rep) := by
  induction entries generalizing rep with
  | nil => exact Fallible.all_pure _
  | cons entry entries ih => exact .bind (keeps_applyRemote hub entry rep) fun _ => ih _

theorem keeps_pullFrom (hub : HubId) : All EngineReq.KeepsQueue (pullFrom hub) :=
  .bind (all_store trivial) fun _ => .bind (all_ask trivial) fun _ =>
    .bind (keeps_applyAll _ _ _) fun _ =>
      .bind (all_store (EngineReq.keepsQueue_checkpoint _ _)) fun _ => Fallible.all_pure _

/-- A pull only reads the queue. -/
theorem keeps_pull : All EngineReq.KeepsQueue eng.pull :=
  all_failover (fun _ => trivial) _ (fun hub _ => keeps_pullFrom hub) _

theorem keeps_knownRev (path : Path) : All EngineReq.KeepsQueue (knownRev path) :=
  .bind (all_store trivial) fun _ => Fallible.all_pure _

/-- What is queued: the change, and those for other paths. -/
theorem mem_enqueue {c d : PendingChange} {l : List PendingChange} :
    d ∈ enqueue l c ↔ d = c ∨ d ∈ l ∧ d.path ≠ c.path := by
  simp [enqueue, or_comm]

/-! ## The push -/

/-- **A push writes the queue in one place, and what it writes is the empty
queue.** -/
theorem clears_push : All EngineReq.ClearsQueue eng.push := by
  have hkeep : ∀ {α : Type} {x : Engine α}, All EngineReq.KeepsQueue x →
      All EngineReq.ClearsQueue x := fun hx => Prog.All.mono (fun _ _ h => .inl h) hx
  have hnotify : ∀ error, (EngineReq.notifyError error).ClearsQueue := fun _ => .inl trivial
  refine .bind (all_report hnotify (hkeep keeps_loadPending)) fun pending => ?_
  split
  · exact Fallible.all_pure _
  refine .bind (all_report hnotify (hkeep (keeps_buildPushChanges _))) fun changes => ?_
  refine all_failover hnotify _ (fun hub _ => ?_) _
  refine .bind (all_ask (.inl trivial)) fun results => .bind (hkeep (keeps_bumpRevs _ _)) fun _ => ?_
  dsimp only
  split
  exacts [.bind (all_store (.inr (by simp [EngineReq.storesQueue]))) fun _ => Fallible.all_pure _, Fallible.all_pure _]

end SyncEngine

/-! ## Local changes -/

/-- One record call. -/
inductive LocalCall
  | upsert (path : Path) (mtime : ℤ) (contentType : String) (content : Bytes)
  | delete (path : Path) (mtime : ℤ)
deriving DecidableEq, Repr

namespace LocalCall

def path : LocalCall → Path
  | upsert path _ _ _ => path
  | delete path _ => path

/-- The change the call queues, on top of the revision it found. -/
def change : LocalCall → Option Rev → PendingChange
  | upsert path mtime contentType _, baseRev => ⟨path, false, baseRev, mtime, some contentType⟩
  | delete path mtime, baseRev => ⟨path, true, baseRev, mtime, none⟩

@[simp] theorem change_path (c : LocalCall) (baseRev : Option Rev) :
    (c.change baseRev).path = c.path := by
  cases c <;> rfl

/-- What the call does to the path's file and metadata. -/
def apply : LocalCall → Option Rev → Engine Unit
  | upsert path mtime contentType content, baseRev => do
    SyncEngine.store (.filePut path content mtime)
    SyncEngine.store (.metaPut (fileKey path) (.fileMeta ⟨baseRev, mtime, contentType⟩))
  | delete path _, _ => do
    SyncEngine.store (.fileDelete path)
    SyncEngine.store (.metaDelete (fileKey path))

/-- The engine's operation. -/
def record (eng : SyncEngine) : LocalCall → Engine Unit
  | upsert path mtime contentType content => eng.recordUpsert path mtime contentType content
  | delete path mtime => eng.recordDelete path mtime

/-- **Both operations have one shape**: read the known revision, write the
path's file and metadata, queue the change. -/
theorem record_eq (eng : SyncEngine) (c : LocalCall) :
    c.record eng = eng.report (do
      let baseRev ← SyncEngine.knownRev c.path
      c.apply baseRev
      SyncEngine.upsertPending (c.change baseRev)) := by
  cases c with
  | upsert path mtime contentType content =>
    simp only [record, SyncEngine.recordUpsert, SyncEngine.recordUpsertInner, apply, change,
      LocalCall.path, bind_assoc]
  | delete path mtime =>
    simp only [record, SyncEngine.recordDelete, SyncEngine.recordDeleteInner, apply, change,
      LocalCall.path, bind_assoc]

theorem keeps_apply (c : LocalCall) (baseRev : Option Rev) :
    Fallible.All EngineReq.KeepsQueue (c.apply baseRev) := by
  cases c with
  | upsert path mtime contentType content =>
    exact .bind (SyncEngine.all_store trivial) fun _ =>
      SyncEngine.all_store (EngineReq.keepsQueue_fileMeta _ _)
  | delete path mtime =>
    exact .bind (SyncEngine.all_store trivial) fun _ =>
      SyncEngine.all_store (fileKey_ne_pending path)

end LocalCall

/-! ## Whom the engine asks -/

/-- What an engine with these hubs calls: its stores, its notifier, and the
hubs. -/
structure EngineCalls (hubs : List HubId) (φ : ∀ ⦃β : Type⦄, EngineReq β → Prop) : Prop where
  metaGet : ∀ key, φ (.metaGet key)
  metaPut : ∀ key value, φ (.metaPut key value)
  metaDelete : ∀ key, φ (.metaDelete key)
  fileGet : ∀ path, φ (.fileGet path)
  filePut : ∀ path data mtime, φ (.filePut path data mtime)
  fileDelete : ∀ path, φ (.fileDelete path)
  notifyError : ∀ error, φ (.notifyError error)
  hubChanges : ∀ hub ∈ hubs, ∀ since, φ (.hubChanges hub since)
  hubGetFile : ∀ hub ∈ hubs, ∀ path, φ (.hubGetFile hub path)
  hubPush : ∀ hub ∈ hubs, ∀ changes, φ (.hubPush hub changes)

/-- The calls to its stores. -/
structure StoreCalls (φ : ∀ ⦃β : Type⦄, EngineReq β → Prop) : Prop where
  metaGet : ∀ key, φ (.metaGet key)
  metaPut : ∀ key value, φ (.metaPut key value)
  metaDelete : ∀ key, φ (.metaDelete key)
  fileGet : ∀ path, φ (.fileGet path)
  filePut : ∀ path data mtime, φ (.filePut path data mtime)
  fileDelete : ∀ path, φ (.fileDelete path)

/-- The requests to one hub. -/
structure HubCalls (hub : HubId) (φ : ∀ ⦃β : Type⦄, EngineReq β → Prop) : Prop where
  changes : ∀ since, φ (.hubChanges hub since)
  getFile : ∀ path, φ (.hubGetFile hub path)
  push : ∀ changes, φ (.hubPush hub changes)

section EngineCalls

variable {hubs : List HubId} {hub : HubId} {φ : ∀ ⦃β : Type⦄, EngineReq β → Prop}

theorem EngineCalls.stores (h : EngineCalls hubs φ) : StoreCalls φ :=
  ⟨h.metaGet, h.metaPut, h.metaDelete, h.fileGet, h.filePut, h.fileDelete⟩

theorem EngineCalls.atHub (h : EngineCalls hubs φ) (hhub : hub ∈ hubs) : HubCalls hub φ :=
  ⟨h.hubChanges hub hhub, h.hubGetFile hub hhub, h.hubPush hub hhub⟩

end EngineCalls

namespace SyncEngine

open Fallible (All)

variable {eng : SyncEngine} {hubs : List HubId} {hub : HubId}
  {φ : ∀ ⦃β : Type⦄, EngineReq β → Prop}

theorem all_loadPending (h : StoreCalls φ) : All φ loadPending :=
  .bind (all_store (h.metaGet _)) fun r => by cases r <;> exact Fallible.all_pure _

theorem all_buildPushChanges (h : StoreCalls φ) (ps : List PendingChange) :
    All φ (buildPushChanges ps) := by
  induction ps with
  | nil => exact Fallible.all_pure _
  | cons p ps ih =>
    refine .bind ?_ fun _ => .bind ih fun _ => Fallible.all_pure _
    unfold buildPushChange
    split
    · exact Fallible.all_pure _
    · exact .bind (all_store (h.fileGet _)) fun _ => .bind (all_store (h.metaGet _)) fun _ =>
        Fallible.all_pure _

theorem all_pushTo (h : StoreCalls φ) (hhub : HubCalls hub φ) (pending : List PendingChange)
    (changes : List PushChange) : All φ (pushTo pending changes hub) := by
  refine .bind (all_ask (hhub.push _)) fun results =>
    .bind (all_bumpRevs h.metaGet (fun _ _ => h.metaPut _ _) _ _) fun _ => ?_
  dsimp only
  split
  exacts [.bind (all_store (h.metaPut _ _)) fun _ => Fallible.all_pure _, Fallible.all_pure _]

theorem all_push (h : EngineCalls eng.hubs φ) : All φ eng.push := by
  refine .bind (all_report h.notifyError (all_loadPending h.stores)) fun pending => ?_
  split
  · exact Fallible.all_pure _
  refine .bind (all_report h.notifyError (all_buildPushChanges h.stores _)) fun changes => ?_
  exact all_failover h.notifyError _
    (fun hub hhub => all_pushTo h.stores (h.atHub hhub) pending changes) _

theorem all_applyAll (h : StoreCalls φ) (hhub : HubCalls hub φ) (entries : List ChangeEntry)
    (rep : PullReport) : All φ (applyAll hub entries rep) := by
  induction entries generalizing rep with
  | nil => exact Fallible.all_pure _
  | cons entry entries ih =>
    refine .bind (.bind (.bind (all_loadPending h) fun _ => Fallible.all_pure _) fun queued => ?_)
      fun _ => ih _
    split
    · exact Fallible.all_pure _
    split
    · exact .bind (all_store (h.fileDelete _)) fun _ =>
        .bind (all_store (h.metaDelete _)) fun _ => Fallible.all_pure _
    · refine .bind (all_ask (hhub.getFile _)) fun file => ?_
      cases file with
      | none => exact Fallible.all_throw _
      | some file =>
        exact .bind (all_store (h.filePut _ _ _)) fun _ =>
          .bind (all_store (h.metaPut _ _)) fun _ => Fallible.all_pure _

theorem all_pullFrom (h : StoreCalls φ) (hhub : HubCalls hub φ) : All φ (pullFrom hub) :=
  .bind (all_store (h.metaGet _)) fun _ => .bind (all_ask (hhub.changes _)) fun _ =>
    .bind (all_applyAll h hhub _ _) fun _ =>
      .bind (all_store (h.metaPut _ _)) fun _ => Fallible.all_pure _

theorem all_pull (h : EngineCalls eng.hubs φ) : All φ eng.pull :=
  all_failover h.notifyError _ (fun _ hhub => all_pullFrom h.stores (h.atHub hhub)) _

theorem all_sync (h : EngineCalls eng.hubs φ) : All φ eng.sync :=
  .bind (all_push h) fun _ => .bind (all_pull h) fun _ => Fallible.all_pure _

/-- What a record operation does before it reports. -/
theorem all_apply (h : StoreCalls φ) (c : LocalCall) : All φ (do
    let baseRev ← knownRev c.path
    c.apply baseRev
    upsertPending (c.change baseRev)) := by
  refine .bind (.bind (all_store (h.metaGet _)) fun _ => Fallible.all_pure _) fun baseRev =>
    .bind ?_ fun _ => .bind (all_loadPending h) fun _ => all_store (h.metaPut _ _)
  cases c with
  | upsert path mtime contentType content =>
    exact .bind (all_store (h.filePut _ _ _)) fun _ => all_store (h.metaPut _ _)
  | delete path mtime =>
    exact .bind (all_store (h.fileDelete _)) fun _ => all_store (h.metaDelete _)

theorem all_record (h : EngineCalls hubs φ) (c : LocalCall) : All φ (c.record eng) := by
  rw [LocalCall.record_eq]
  exact all_report h.notifyError (all_apply h.stores c)

end SyncEngine

/-! ## Stores the engine writes -/

/-- What is stored as a path's metadata is metadata. -/
def MemStore.Parses (s : MemStore) : Prop :=
  ∀ path b, s.blobs.lookup (fileKey path) = some b → ∃ m, b = .fileMeta m

/-- What the engine writes, under `pending` a queue, elsewhere as
`KeepsQueue` says. -/
def EngineReq.Tidy ⦃β : Type⦄ (e : EngineReq β) : Prop :=
  e.KeepsQueue ∨ ∃ l, e.storesQueue = some (.queue l)

theorem MemStore.parses_empty : MemStore.empty.Parses := fun path b h => by
  simp [MemStore.empty] at h

theorem MemStore.parses_exec {β : Type} {e : EngineReq β} {o : HubAnswers} {s : MemStore}
    (he : e.Tidy) (hs : s.Parses) : (MemStore.exec e o s).2.Parses := by
  cases e with
  | metaPut key value =>
    intro path b hb
    by_cases hkey : fileKey path = key
    · subst hkey
      simp only [MemStore.exec, AList.lookup_insert] at hb
      obtain rfl := Option.some.inj hb
      rcases he with hkeeps | ⟨l, hl⟩
      · exact hkeeps.2 path rfl
      · simp [EngineReq.storesQueue] at hl
    · simp only [MemStore.exec, AList.lookup_insert_ne hkey] at hb
      exact hs path b hb
  | metaDelete key =>
    intro path b hb
    by_cases hkey : fileKey path = key
    · subst hkey
      simp [MemStore.exec] at hb
    · simp only [MemStore.exec, AList.lookup_erase_ne hkey] at hb
      exact hs path b hb
  | _ => exact hs

namespace SyncEngine

variable {eng : SyncEngine}

theorem tidy_of_keeps {α : Type} {x : Engine α} (h : Fallible.All EngineReq.KeepsQueue x) :
    Fallible.All EngineReq.Tidy x :=
  Prog.All.mono (fun _ _ he => .inl he) h

theorem tidy_record (c : LocalCall) : Fallible.All EngineReq.Tidy (c.record eng) := by
  rw [LocalCall.record_eq]
  refine all_report (fun _ => .inl trivial) ?_
  refine .bind (tidy_of_keeps (keeps_knownRev _)) fun baseRev =>
    .bind (tidy_of_keeps (LocalCall.keeps_apply _ _)) fun _ =>
      .bind (tidy_of_keeps keeps_loadPending) fun pending =>
        all_store (.inr ⟨enqueue pending (c.change baseRev), by simp [EngineReq.storesQueue]⟩)

end SyncEngine

/-! ## A small device -/

/-- An engine of one hub. -/
def oneHub (notifier : Bool) : SyncEngine := ⟨["hub"], notifier⟩

/-- Every file has the content type that stands for none. -/
def anyType : Path → String := fun _ => octetStream

end FileSync
