import FileSync.Client.Bookkeeping
import FileSync.Common.Refinement
import FileSync.Model.Opfs
/-!
# The paths a client's stores are asked for

The engine reads and writes the files its caller names, those it has queued,
and those a hub lists. Where all of these are of one set, so is every path
its file store is asked for; and its keys are always the engine's.
-/

namespace FileSync

open Bookkeeping (IsKey)

/-- Every queued change is to one of these paths. -/
def Blob.QueuesOnly (paths : Set Path) (b : Blob) : Prop :=
  ∀ pending, b = .queue pending → ∀ p ∈ pending, p.path ∈ paths

namespace EngineReq

variable (paths : Set Path)

/-- A key of the engine's that is no other path's. -/
def KeyOf (key : String) : Prop := IsKey key ∧ ∀ path, key = fileKey path → path ∈ paths

/-- The call keeps to these paths and to the engine's keys, and lists
none. -/
def KeepsTo ⦃β : Type⦄ : EngineReq β → Prop
  | .metaGet key => IsKey key
  | .metaPut key value => KeyOf paths key ∧ value.QueuesOnly paths
  | .metaDelete key => KeyOf paths key
  | .metaListKeys _ => False
  | .fileGet path => path ∈ paths
  | .filePut path _ _ => path ∈ paths
  | .fileDelete path => path ∈ paths
  | _ => True

/-- The answer brings no other path up. -/
def NamesOnly ⦃β : Type⦄ : EngineReq β → β → Prop
  | .metaGet _, b => ∀ value, b = .ok (some value) → value.QueuesOnly paths
  | .hubChanges _ _, b => ∀ resp, b = .ok resp → ∀ entry ∈ resp.changes, entry.path ∈ paths
  | _, _ => True

end EngineReq

/-- The hubs list no other path. -/
def HubAnswers.NamesOnly (paths : Set Path) (o : HubAnswers) : Prop :=
  ∀ resp, o.changes = .ok resp → ∀ entry ∈ resp.changes, entry.path ∈ paths

namespace SyncEngine

open Fallible (Given)

variable {paths : Set Path} {eng : SyncEngine} {α : Type} {G : α → Prop} {path : Path}

/-- The program keeps to these paths, and returns something of `G`. -/
abbrev Within (paths : Set Path) (G : α → Prop) (x : Engine α) : Prop :=
  Given (EngineReq.KeepsTo paths) (EngineReq.NamesOnly paths) G x

/-! ## The wrappers -/

theorem within_store {e : EngineReq (Except StoreError α)} (he : e.KeepsTo paths)
    (hG : ∀ a, e.NamesOnly paths (.ok a) → G a) : Within paths G (store e) :=
  .ask _ he hG

theorem within_ask {e : EngineReq (Except HubError α)} (he : e.KeepsTo paths)
    (hG : ∀ a, e.NamesOnly paths (.ok a) → G a) : Within paths G (ask e) :=
  .ask _ he hG

theorem within_notify (error : SyncError) : Within paths G (eng.notify error : Engine α) := by
  unfold notify
  split
  · refine ⟨trivial, fun _ _ => ?_⟩
    rintro _ ⟨⟩
  · rintro _ ⟨⟩

theorem within_report {x : Engine α} (hx : Within paths G x) : Within paths G (eng.report x) := by
  refine .bind hx.attempt fun r hr => ?_
  cases r with
  | ok a => exact .pure (hr a rfl)
  | error e => exact within_notify e

theorem within_failover {attempt : HubId → Engine α} (hx : ∀ hub, Within paths G (attempt hub))
    (hubs : List HubId) (last : Option SyncError) :
    Within paths G (eng.failover attempt hubs last) := by
  induction hubs generalizing last with
  | nil => exact within_notify _
  | cons hub hubs ih =>
    refine .bind (hx hub).attempt fun r hr => ?_
    rcases r with (e | e | _) | a
    · exact within_notify _
    · exact ih _
    · exact .throw _
    · exact .pure (hr a rfl)

/-! ## Keys -/

theorem isKey_fileKey (path : Path) : IsKey (fileKey path) := .inr (.inr ⟨path, rfl⟩)

theorem isKey_checkpointKey (hub : HubId) : IsKey (checkpointKey hub) := .inr (.inl ⟨hub, rfl⟩)

theorem keyOf_fileKey (h : path ∈ paths) : EngineReq.KeyOf paths (fileKey path) :=
  ⟨isKey_fileKey path, fun _ hkey => fileKey_inj.1 hkey ▸ h⟩

theorem keyOf_checkpointKey (hub : HubId) : EngineReq.KeyOf paths (checkpointKey hub) :=
  ⟨isKey_checkpointKey hub, fun p hkey => absurd hkey (checkpointKey_ne_fileKey hub p)⟩

theorem keyOf_pending : EngineReq.KeyOf paths keyPending :=
  ⟨.inl rfl, fun p hkey => absurd hkey (pending_ne_fileKey p)⟩

/-- Metadata queues nothing. -/
theorem queuesOnly_fileMeta (m : FileMeta) : (Blob.fileMeta m).QueuesOnly paths := by
  rintro _ ⟨⟩

theorem queuesOnly_checkpoint (token : Checkpoint) : (Blob.checkpoint token).QueuesOnly paths := by
  rintro _ ⟨⟩

theorem within_putFileMeta (h : path ∈ paths) (m : FileMeta) :
    Within paths (fun _ => True) (store (.metaPut (fileKey path) (.fileMeta m))) :=
  within_store ⟨keyOf_fileKey h, queuesOnly_fileMeta m⟩ fun _ _ => trivial

theorem within_deleteFileMeta (h : path ∈ paths) :
    Within paths (fun _ => True) (store (.metaDelete (fileKey path))) :=
  within_store (e := .metaDelete (fileKey path)) (keyOf_fileKey h) fun _ _ => trivial

/-! ## The queue -/

theorem within_loadPending :
    Within paths (fun pending => ∀ p ∈ pending, p.path ∈ paths) loadPending := by
  refine .bind (within_store (.inl rfl) fun _ hb => hb) fun r hr => ?_
  cases r with
  | none => exact .pure fun p hp => absurd hp List.not_mem_nil
  | some b =>
    refine .pure fun p hp => ?_
    -- what is stored under the key may be something else
    cases b with
    | queue pending => exact hr _ rfl pending rfl p hp
    | fileMeta _ | checkpoint _ | garbage _ => exact absurd hp List.not_mem_nil

theorem within_pendingContains : Within paths (fun _ => True) (pendingContains path) :=
  .bind within_loadPending fun _ _ => .pure trivial

theorem within_upsertPending {change : PendingChange} (h : change.path ∈ paths) :
    Within paths (fun _ => True) (upsertPending change) := by
  refine .bind within_loadPending fun pending hpending => within_store ⟨keyOf_pending, ?_⟩
    fun _ _ => trivial
  intro queued hqueued p hp
  obtain rfl := Blob.queue.inj hqueued
  unfold enqueue at hp
  rcases List.mem_append.1 hp with hp | hp
  · exact hpending p (List.mem_filter.1 hp).1
  · rw [List.mem_singleton] at hp
    exact hp ▸ h

theorem within_bumpRev (h : path ∈ paths) (rev : Option Rev) :
    Within paths (fun _ => True) (bumpRev path rev) := by
  refine .bind (within_store (isKey_fileKey path) fun _ _ => trivial) fun r _ => ?_
  cases r with
  | none => exact .pure trivial
  | some b =>
    dsimp only
    split
    · exact .throw _
    · exact within_putFileMeta h _

/-! ## Pulling -/

theorem within_applyRemote {hub : HubId} {entry : ChangeEntry} (h : entry.path ∈ paths)
    (rep : PullReport) : Within paths (fun _ => True) (applyRemote hub entry rep) := by
  refine .bind within_pendingContains fun queued _ => ?_
  split
  · exact .pure trivial
  split
  · exact .bind (within_store h fun _ _ => trivial) fun _ _ =>
      .bind (within_deleteFileMeta h) fun _ _ => .pure trivial
  refine .bind (within_ask trivial fun _ _ => trivial) fun file _ => ?_
  cases file with
  | none => exact .throw _
  | some file =>
    exact .bind (within_store h fun _ _ => trivial) fun _ _ =>
      .bind (within_putFileMeta h _) fun _ _ => .pure trivial

theorem within_applyAll {hub : HubId} {entries : List ChangeEntry}
    (h : ∀ entry ∈ entries, entry.path ∈ paths) (rep : PullReport) :
    Within paths (fun _ => True) (applyAll hub entries rep) := by
  induction entries generalizing rep with
  | nil => exact .pure trivial
  | cons entry entries ih =>
    exact .bind (within_applyRemote (h entry List.mem_cons_self) rep) fun rep' _ =>
      ih (fun e he => h e (List.mem_cons_of_mem _ he)) rep'

theorem within_pullFrom (hub : HubId) : Within paths (fun _ => True) (pullFrom hub) := by
  refine .bind (within_store (isKey_checkpointKey hub) fun _ _ => trivial) fun since _ => ?_
  refine .bind (G := fun resp : ChangesResponse => ∀ entry ∈ resp.changes, entry.path ∈ paths)
    (within_ask trivial fun resp hresp => hresp resp rfl) fun resp hresp => ?_
  refine .bind (within_applyAll hresp _) fun rep _ => ?_
  exact .bind (within_store ⟨keyOf_checkpointKey hub, queuesOnly_checkpoint _⟩ fun _ _ => trivial) fun _ _ =>
    .pure trivial

theorem within_pull : Within paths (fun _ => True) eng.pull :=
  within_failover within_pullFrom _ _

/-! ## Pushing -/

theorem within_buildPushChange {p : PendingChange} (h : p.path ∈ paths) :
    Within paths (fun _ => True) (buildPushChange p) := by
  unfold buildPushChange
  split
  · exact .pure trivial
  refine .bind (within_store h fun _ _ => trivial) fun content _ => ?_
  exact .bind (within_store (isKey_fileKey _) fun _ _ => trivial) fun _ _ => .pure trivial

theorem within_buildPushChanges {pending : List PendingChange}
    (h : ∀ p ∈ pending, p.path ∈ paths) :
    Within paths (fun _ => True) (buildPushChanges pending) := by
  induction pending with
  | nil => exact .pure trivial
  | cons p ps ih =>
    exact .bind (within_buildPushChange (h p List.mem_cons_self)) fun _ _ =>
      .bind (ih fun q hq => h q (List.mem_cons_of_mem _ hq)) fun _ _ => .pure trivial

theorem within_bumpRevs {sent : List (PendingChange × PushResult)}
    (h : ∀ s ∈ sent, s.1.path ∈ paths) (pushed : ℕ) :
    Within paths (fun _ => True) (bumpRevs sent pushed) := by
  induction sent generalizing pushed with
  | nil => exact .pure trivial
  | cons s sent ih =>
    obtain ⟨change, result⟩ := s
    have hrest := ih fun s hs => h s (List.mem_cons_of_mem _ hs)
    unfold bumpRevs
    split
    · exact .bind (within_bumpRev (h _ List.mem_cons_self) _) fun _ _ => hrest _
    · exact hrest _

theorem within_pushTo {pending : List PendingChange} (h : ∀ p ∈ pending, p.path ∈ paths)
    (changes : List PushChange) (hub : HubId) :
    Within paths (fun _ => True) (pushTo pending changes hub) := by
  refine .bind (G := fun _ => True) (within_ask trivial fun _ _ => trivial) fun results _ => ?_
  refine .bind (within_bumpRevs (fun s hs => h _ (List.of_mem_zip hs).1) 0) fun pushed _ => ?_
  dsimp only
  split
  · have hempty : (Blob.queue []).QueuesOnly paths := by
      rintro _ ⟨⟩ p hp
      exact absurd hp List.not_mem_nil
    exact .bind (within_store ⟨keyOf_pending, hempty⟩ fun _ _ => trivial) fun _ _ => .pure trivial
  · exact .pure trivial

theorem within_push : Within paths (fun _ => True) eng.push := by
  refine .bind (within_report within_loadPending) fun pending hpending => ?_
  split
  · exact .pure trivial
  exact .bind (within_report (within_buildPushChanges hpending)) fun changes _ =>
    within_failover (within_pushTo hpending changes) _ _

theorem within_sync : Within paths (fun _ => True) eng.sync :=
  .bind within_push fun _ _ => .bind within_pull fun _ _ => .pure trivial

/-! ## Recording and reading -/

theorem within_knownRev : Within paths (fun _ => True) (knownRev path) :=
  .bind (within_store (isKey_fileKey path) fun _ _ => trivial) fun _ _ => .pure trivial

theorem within_recordUpsert (h : path ∈ paths) (mtime : ℤ) (contentType : String)
    (content : Bytes) :
    Within paths (fun _ => True) (eng.recordUpsert path mtime contentType content) := by
  refine within_report (.bind within_knownRev fun baseRev _ => ?_)
  exact .bind (within_store h fun _ _ => trivial) fun _ _ =>
    .bind (within_putFileMeta h _) fun _ _ => within_upsertPending h

theorem within_recordDelete (h : path ∈ paths) (mtime : ℤ) :
    Within paths (fun _ => True) (eng.recordDelete path mtime) := by
  refine within_report (.bind within_knownRev fun baseRev _ => ?_)
  exact .bind (within_store h fun _ _ => trivial) fun _ _ =>
    .bind (within_deleteFileMeta h) fun _ _ => within_upsertPending h

theorem within_checkpoint (hub : HubId) : Within paths (fun _ => True) (checkpoint hub) :=
  .bind (within_store (isKey_checkpointKey hub) fun _ _ => trivial) fun _ _ => .pure trivial

theorem within_readFile (h : path ∈ paths) :
    Within paths (fun _ => True) (readFile path) :=
  within_store (e := .fileGet path) h fun _ _ => trivial

theorem within_readFileMeta : Within paths (fun _ => True) (readFileMeta path) :=
  .bind (within_store (isKey_fileKey path) fun _ _ => trivial) fun _ _ => .pure trivial

end SyncEngine

/-! ## Stores that stand for the memory -/

namespace MemStore

variable {paths : Set Path} {s : MemStore} {o : HubAnswers} {β : Type} {e : EngineReq β}

/-- Only the engine's keys are stored, and only these paths queued. -/
structure Named (paths : Set Path) (s : MemStore) : Prop where
  isKey : ∀ key ∈ s.blobs.keys, IsKey key
  queued : ∀ key b, s.blobs.lookup key = some b → b.QueuesOnly paths

theorem named_empty : Named paths .empty :=
  ⟨fun _ h => absurd h List.not_mem_nil, fun _ _ h => by cases h⟩

theorem named_exec (h : s.Named paths) (he : e.KeepsTo paths) :
    (MemStore.exec e o s).2.Named paths := by
  cases e with
  | metaPut key value =>
    refine ⟨fun k hk => ?_, fun k b hb => ?_⟩
    · rcases (AList.mem_insert _).1 hk with rfl | hk
      · exact he.1.1
      · exact h.isKey k hk
    · by_cases hne : k = key
      · have hnew : (s.blobs.insert key value).lookup k = some b := hb
        rw [hne, AList.lookup_insert] at hnew
        obtain rfl := Option.some.inj hnew
        exact he.2
      · exact h.queued k b ((AList.lookup_insert_ne hne).symm.trans hb)
  | metaDelete key =>
    refine ⟨fun k hk => h.isKey k (AList.mem_erase.1 hk).2, fun k b hb => ?_⟩
    by_cases hne : k = key
    · have hgone : (s.blobs.erase key).lookup k = some b := hb
      rw [hne, AList.lookup_erase] at hgone
      cases hgone
    · exact h.queued k b ((AList.lookup_erase_ne hne).symm.trans hb)
  | filePut _ _ _ | fileDelete _ => exact ⟨h.isKey, h.queued⟩
  | _ => exact h

/-- **What the memory answers brings no other path up.** -/
theorem namesOnly_exec (h : s.Named paths) (ho : o.NamesOnly paths) :
    e.NamesOnly paths (MemStore.exec e o s).1 := by
  cases e with
  | metaGet key =>
    intro value hvalue
    exact h.queued key value (Except.ok.inj hvalue)
  | hubChanges hub since => exact ho
  | _ => trivial

/-- A client that is online, on other stores and in memory. -/
structure Stands {σ : Type} (paths : Set Path) (R : σ → MemStore → Prop)
    (s : σ × Stream' HubAnswers) (t : MemStore × Stream' HubAnswers) : Prop where
  stores : R s.1 t.1
  named : t.1.Named paths
  answers : s.2 = t.2
  namesOnly : ∀ n, (t.2.get n).NamesOnly paths

/-- **Stores that stand for the memory call by call** stand for it under every
program that keeps to the paths. -/
theorem refines_of_stands {σ : Type} {R : σ → MemStore → Prop}
    {exec : ∀ ⦃β : Type⦄, EngineReq β → HubAnswers → σ → β × σ}
    (hexec : ∀ ⦃β : Type⦄ (e : EngineReq β) o s t, e.KeepsTo paths → R s t → t.Named paths →
      (exec e o s).1 = (MemStore.exec e o t).1 ∧ R (exec e o s).2 (MemStore.exec e o t).2) :
    Prog.Refines (online exec) (online MemStore.exec) (EngineReq.KeepsTo paths)
      (EngineReq.NamesOnly paths) (Stands paths R) where
  answer β e s t he h := by
    rw [online, online, h.answers]
    exact (hexec e t.2.head s.1 t.1 he h.stores h.named).1
  assumed β e s t _ h := namesOnly_exec h.named (h.namesOnly 0)
  related β e s t he h := by
    refine ⟨?_, named_exec h.named he, congrArg Stream'.tail h.answers,
      fun n => h.namesOnly (n + 1)⟩
    have hstep := (hexec e t.2.head s.1 t.1 he h.stores h.named).2
    rwa [online, online, h.answers]

end MemStore

end FileSync
