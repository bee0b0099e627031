import FileSync.Client.Tracking
/-!
# A pull keeps track

A pull may store the new checkpoint because every path it got has been put
in order, or was written again since the feed, or is queued.
-/

namespace FileSync

namespace Tracking

variable {ι : Type} [DecidableEq ι] {C : Couch} {env : HubEnv} {eng : SyncEngine}
  {origin : Origin} {i : ι} {hub : HubId} {s s' : State ι} {path : Path} {since : ℕ}
  {α β ε ε' : Type} {P Q B : State ι → Prop} {M : α → State ι → Prop}

/-! ## The hub's part of a pull -/

/-- The hub serves `v` under the path, or has written it since. -/
def Serves (hub : HubId) (since : ℕ) (path : Path) (v : Option Bytes) (s : State ι) : Prop :=
  (s.net.hubs hub).Changed since path ∨ (s.net.hubs hub).served path = v

/-- What is left to do of a batch that a hub sent when its log had length
`n`: the paths of the entries left, and no others, may differ. -/
structure Pulling (i : ι) (hub : HubId) (l : List PendingChange) (L : HubId → ℕ) (n : ℕ)
    (left : List ChangeEntry) (s : State ι) : Prop extends Base i l L s where
  since : L hub ≤ n
  length : n ≤ (s.net.hubs hub).log.length
  upTo : ∀ p, Routes.isSystemId p = false →
    Queued i p s ∨ (∃ e ∈ left, e.path = p) ∨ UpTo i hub n p s
  listed : ∀ e ∈ left, (s.net.hubs hub).Changed (s.checkpoint i hub) e.path
  deleted : ∀ e ∈ left, e.deleted = true → Serves hub n e.path none s

variable {n : ℕ} {left : List ChangeEntry} {entry : ChangeEntry} {v : Option Bytes}

omit [DecidableEq ι] in
theorem Serves.onward (hs : Serves hub n path v s) (h : Onward i hub s s')
    (hle : n ≤ (s.net.hubs hub).log.length) : Serves hub n path v s' := by
  rcases hs with hs | hs
  · exact .inl ((h.grows hub).changed hs)
  · rcases (h.grows hub).served_or hle path with hc | hc
    · exact .inl hc
    · exact .inr (hc.trans hs)

omit [DecidableEq ι] in
theorem lasts_pulling : Lasts i hub (Pulling i hub l L n left) := by
  intro s s' hs h
  refine ⟨lasts_base hs.toBase h, hs.since, hs.length.trans (h.grows hub).length_le,
    fun p hsys => ?_, fun e he => ?_, fun e he hd => (hs.deleted e he hd).onward h hs.length⟩
  · rcases hs.upTo p hsys with hq | he | hu
    · exact .inl (hq.onward h)
    · exact .inr (.inl he)
    · exact .inr (.inr (hu.onward h hs.length))
  · rw [h.checkpoint]
    exact (h.grows hub).changed (hs.listed e he)

/-- **The feed**: what is at the device otherwise than the hub serves it is
queued or listed. -/
theorem does_hubChanges {since : Option Checkpoint} :
    EngineDoes C env .sync i (fun s => Base i l L s ∧ since.getD 0 = s.checkpoint i hub)
      (SyncEngine.ask (.hubChanges hub since)) (Base i l L) fun resp s =>
        Pulling i hub l L resp.checkpoint resp.changes s ∧ s.peer i = hub := by
  have hbase : Lasts i hub (Base i l L) := lasts_base
  have hP : Lasts i hub fun s => Base i l L s ∧ since.getD 0 = s.checkpoint i hub :=
    hbase.and fun s s' hs h => by rw [h.checkpoint, hs]
  have hfacing : Lasts i hub fun s => s.peer i = hub := fun s s' hs h => h.peer hs
  have hreq : Triple (semantics C) Redelivers contract i
      (fun s => Base i l L s ∧ since.getD 0 = s.checkpoint i hub)
      (.perform (.couch hub (.changes since)))
      (Post (Base i l L) fun raw => Pulling i hub l L raw.lastSeq (Routes.toResponse raw).changes :
        Except HttpFailure RawChangesResponse → State ι → Prop) := by
    refine triple_couch trivial (fun r => ?_) (fun s hs => hs.1) fun s ⟨hs, hsince⟩ ho => ?_
    · cases r with
      | ok raw => exact lasts_pulling
      | error x => exact hbase
    · have hcovers : FeedCovers i hub s := ho.2 hub rfl rfl
      have honward : Onward i hub s ((semantics C).exec i (.couch hub (.changes since))
          .delivered s).2 := onward_couch (e := .changes since) trivial hub .delivered s
      show Pulling i hub l L (s.net.hubs hub).log.length
        (Routes.toResponse (Couch.changesSince (s.net.hubs hub) since)).changes _
      refine lasts_pulling ⟨hs, hs.reached hub, le_refl _, fun p hsys => ?_, fun e he => ?_,
        fun e he hd => ?_⟩ honward
      · have hheard : UpTo i hub (s.checkpoint i hub) p s → (∃ e ∈ (Routes.toResponse
            (Couch.changesSince (s.net.hubs hub) since)).changes, e.path = p) ∨
              UpTo i hub (s.net.hubs hub).log.length p s := by
          rintro (hchanged | hsame)
          · rw [← hsince] at hchanged
            obtain ⟨w, hw⟩ := (hs.numbered hub).exists_winner hchanged
            exact .inl ⟨⟨p, w.deleted, w.rev⟩, Db.mem_changes.2 ⟨hchanged, hsys, w, hw, rfl⟩, rfl⟩
          · exact .inr (.inr hsame)
        rcases hs.settled hub p hsys id with hq | ha | hu
        · exact .inl hq
        · exact (hcovers p ha hsys).imp_right hheard
        · exact .inr (hheard hu)
      · rw [← hsince]
        exact (Db.mem_changes.1 he).1
      · obtain ⟨-, -, w, hw, heq⟩ := Db.mem_changes.1 he
        rw [heq] at hd
        exact .inr (Db.served_of_deleted hw hd)
  refine Does.ask hbase.stable (fun _ => (lasts_pulling.and hfacing).stable) ?_
  refine triple_overLink hP hbase (fun _ => lasts_pulling) (fun s hs => hs.1)
    (fun _ s hs => hs.toBase) (Does.adapt hbase.stable (fun _ => lasts_pulling.stable) ?_)
  unfold Routes.getChanges
  refine Does.bind (fun raw => Pulling i hub l L raw.lastSeq (Routes.toResponse raw).changes)
    hbase.stable (Does.adapt hbase.stable (fun _ => lasts_pulling.stable)
      (Does.ask hbase.stable (fun _ => lasts_pulling.stable) hreq)) fun raw => ?_
  exact Does.pure lasts_pulling.stable fun _ h => h

/-- **A file** is what the hub serves, unless it has written the path
since. -/
theorem does_hubGetFile (hP : Lasts i hub P)
    (hle : ∀ s, P s → n ≤ (s.net.hubs hub).log.length) :
    EngineDoes C env .sync i P (SyncEngine.ask (.hubGetFile hub path)) P fun file s =>
      (P s ∧ ∀ f, file = some f → Serves hub n path (some f.content) s) ∧ s.peer i = hub := by
  have hserves : ∀ v, Lasts i hub fun s => P s ∧ Serves hub n path v s := fun v s s' ⟨hs, h⟩ hon =>
    ⟨hP hs hon, h.onward hon (hle s hs)⟩
  have hM : ∀ file : Option FileContent, Lasts i hub fun s =>
      P s ∧ ∀ f, file = some f → Serves hub n path (some f.content) s :=
    fun file s s' ⟨hs, h⟩ hon => ⟨hP hs hon, fun f hf => (h f hf).onward hon (hle s hs)⟩
  have hfacing : Lasts i hub fun s => s.peer i = hub := fun s s' hs h => h.peer hs
  have hbytes : HubDoes C i hub P (CouchClient.getAttachment path none) P fun bytes s =>
      P s ∧ Serves hub n path (some bytes) s := by
    refine Does.ask hP.stable (fun _ => (hserves _).stable) (triple_couch trivial (fun r => ?_)
      (fun s hs => hs) fun s hs _ => ?_)
    · cases r with
      | ok bytes => exact hserves _
      | error x => exact hP
    · have honward : Onward i hub s ((semantics C).exec i (.couch hub (.getAttachment path none))
          .delivered s).2 := onward_couch (e := .getAttachment path none) trivial hub .delivered s
      simp only [Couch.answer]
      cases hb : ((s.net.hubs hub).docs path).content? none with
      | some bytes => exact hserves _ ⟨hs, .inr hb⟩ honward
      | none => exact hP hs honward
  have hroute : HubDoes C i hub P (Routes.getFile path) P fun f s =>
      P s ∧ Serves hub n path (some f.content) s := by
    unfold Routes.getFile
    refine Does.bind _ hP.stable (does_keeps hP (.adapt (all_call (CouchReq.numbered_calls.getDoc _) _)))
      fun doc => ?_
    cases doc with
    | none => exact Does.throw hP.stable fun _ h => h
    | some doc =>
      exact Does.bind _ hP.stable (Does.adapt hP.stable (fun _ => (hserves _).stable) hbytes)
        fun bytes => Does.pure (hserves _).stable fun _ h => h
  refine Does.ask hP.stable (fun file => ((hM file).and hfacing).stable) ?_
  refine triple_overLink hP hP hM (fun _ h => h) (fun _ _ h => h.1) ?_
  refine HubClient.does_getFile hP.stable (fun file => (hM file).stable)
    (fun s hs => ⟨hs, fun f h => by cases h⟩) (Does.mono hroute (fun _ h => h) fun f s hs =>
      ⟨hs.1, fun f' hf => ?_⟩)
  obtain rfl := Option.some.inj hf
  exact hs.2

/-! ## The device's part of it -/

/-- The operation puts `v` under the path, and nothing else. -/
structure Writes (path : Path) (v : Option Bytes) (e : EngineReq (Except StoreError Unit)) :
    Prop where
  blobs : ∀ t, (MemStore.exec e .unreachable t).2.blobs = t.blobs
  files : ∀ t p, (MemStore.exec e .unreachable t).2.files.lookup p =
    if p = path then v else t.files.lookup p
  settles : ∀ t, settles t e = [path]
  checkpoints : ∀ k, storesCheckpoint k e = false

theorem writes_filePut {data : Bytes} {mtime : ℤ} :
    Writes path (some data) (.filePut path data mtime) where
  blobs _ := rfl
  files t p := by
    by_cases hp : p = path
    · subst hp
      exact (AList.lookup_insert _).trans (if_pos rfl).symm
    · exact (AList.lookup_insert_ne hp).trans (if_neg hp).symm
  settles _ := rfl
  checkpoints _ := rfl

theorem writes_fileDelete : Writes path none (.fileDelete path) where
  blobs _ := rfl
  files t p := by
    by_cases hp : p = path
    · subst hp
      exact (AList.lookup_erase _ _).trans (if_pos rfl).symm
    · exact (AList.lookup_erase_ne hp).trans (if_neg hp).symm
  settles _ := rfl
  checkpoints _ := rfl

/-- **An entry is put in order**: for this hub there is one less left to do,
for the others the path is set aside. -/
theorem pulling_written {e : EngineReq (Except StoreError Unit)} {o : Delivery}
    (he : Writes entry.path v e) (hs : Pulling i hub l L n (entry :: left) s)
    (hq : ¬ Queued i entry.path s) (hv : Serves hub n entry.path v s) (hpeer : s.peer i = hub) :
    Pulling i hub l L n left ((semantics C).exec i (.store .sync e) o s).2 := by
  set s' := ((semantics C).exec i (.store .sync e) o s).2
  have hstore : s'.store i = (MemStore.exec e .unreachable (s.store i)).2 :=
    Function.update_self ..
  have hblobs : (s'.store i).blobs = (s.store i).blobs := by rw [hstore, he.blobs]
  have hpending : (s'.store i).pending = (s.store i).pending := by
    unfold MemStore.pending
    rw [hblobs]
  have hcheckpoint : ∀ k, s'.checkpoint i k = s.checkpoint i k := fun k => by
    unfold State.checkpoint
    rw [hblobs]
  have hfiles : ∀ p, p ≠ entry.path →
      (s'.store i).files.lookup p = (s.store i).files.lookup p := fun p hp => by
    rw [hstore, he.files, if_neg hp]
  have hwritten : (s'.store i).files.lookup entry.path = v := by rw [hstore, he.files, if_pos rfl]
  have haside : ∀ k, s'.aside i k =
      if k = hub then s.aside i k else entry.path :: s.aside i k := by
    intro k
    refine (congrFun (Function.update_self ..) k).trans ?_
    simp only [State.asideAfter, he.checkpoints k, he.settles, hpeer, Bool.false_eq_true, if_false,
      List.singleton_append]
  have hother : ∀ {k m p}, p ≠ entry.path → UpTo i k m p s → UpTo i k m p s' := by
    intro k m p hp h
    rw [UpTo, hfiles p hp]
    exact h
  have hqueued : ∀ {p}, Queued i p s → Queued i p s' := by
    intro p h
    unfold Queued
    rwa [hpending]
  -- the entry's path is in order for this hub and set aside for the others; no other path changes
  refine ⟨⟨⟨hs.numbered, fun k => ?_, fun c hc hd _ => ?_, fun k p hsys _ => ?_⟩,
    hpending.trans hs.queue, hs.reached⟩, hs.since, hs.length, fun p hsys => ?_, fun e' he' => ?_,
    fun e' he' => hs.deleted e' (List.mem_cons_of_mem _ he')⟩
  · rw [hcheckpoint]
    exact hs.within k
  · rw [hpending] at hc
    rw [hfiles]
    · exact hs.gone c hc hd id
    · exact fun heq => hq ⟨c, hc, heq⟩
  · rw [hcheckpoint, haside]
    by_cases hp : p = entry.path
    · subst hp
      by_cases hk : k = hub
      · subst hk
        exact .inr (.inr (.inl (hs.listed entry List.mem_cons_self)))
      · rw [if_neg hk]
        exact .inr (.inl List.mem_cons_self)
    · rcases hs.settled k p hsys id with h | h | h
      · exact .inl (hqueued h)
      · refine .inr (.inl ?_)
        split
        · exact h
        · exact List.mem_cons_of_mem _ h
      · exact .inr (.inr (hother hp h))
  · by_cases hp : p = entry.path
    · subst hp
      refine .inr (.inr ?_)
      rcases hv with hv | hv
      · exact .inl hv
      · exact .inr (hwritten.trans hv.symm)
    · rcases hs.upTo p hsys with h | ⟨e', he', rfl⟩ | h
      · exact .inl (hqueued h)
      · rcases List.mem_cons.1 he' with rfl | he'
        · exact absurd rfl hp
        · exact .inr (.inl ⟨e', he', rfl⟩)
      · exact .inr (.inr (hother hp h))
  · rw [hcheckpoint]
    exact hs.listed e' (List.mem_cons_of_mem _ he')

/-- Writing an entry's file. -/
theorem does_written {e : EngineReq (Except StoreError Unit)} {g : StoreError → SyncError}
    (he : Writes entry.path v e) (hopen : NetReq.opened env .sync e = .perform (.store .sync e))
    (hok : ∀ t, ∃ a, (MemStore.exec e .unreachable t).1 = .ok a) :
    EngineDoes C env .sync i (fun s => ((Pulling i hub l L n (entry :: left) s ∧ s.peer i = hub) ∧
        ¬ Queued i entry.path s) ∧ Serves hub n entry.path v s) (.ask g e) (Base i l L)
      fun _ s => Pulling i hub l L n left s ∧ s.peer i = hub := by
  have hfacing : Lasts i hub fun s => s.peer i = hub := fun s s' hs h => h.peer hs
  have hbase : Lasts i hub (Base i l L) := lasts_base
  refine does_store hopen hok hbase (fun _ => lasts_pulling.and hfacing)
    fun o s hs _ _ => ⟨pulling_written he hs.1.1.1 hs.1.2 hs.2 hs.1.1.2, ?_⟩
  exact (Function.update_self ..).trans hs.1.1.2

/-- **One entry.** -/
theorem does_applyRemote {rep : PullReport} :
    EngineDoes C env .sync i (fun s => Pulling i hub l L n (entry :: left) s ∧ s.peer i = hub)
      (SyncEngine.applyRemote hub entry rep) (Base i l L) fun rep' s =>
        (Pulling i hub l L n left s ∧ s.peer i = hub) ∧ rep'.hub = rep.hub := by
  have hbase : Lasts i hub (Base i l L) := lasts_base
  have hfacing : Lasts i hub fun s => s.peer i = hub := fun s s' hs h => h.peer hs
  have hstart : Lasts i hub fun s => Pulling i hub l L n (entry :: left) s ∧ s.peer i = hub :=
    lasts_pulling.and hfacing
  have hdone : Lasts i hub fun s => Pulling i hub l L n left s ∧ s.peer i = hub :=
    lasts_pulling.and hfacing
  have hend : ∀ rep' : PullReport, Lasts i hub fun s =>
      (Pulling i hub l L n left s ∧ s.peer i = hub) ∧ rep'.hub = rep.hub := fun _ =>
    hdone.and fun _ _ h _ => h
  have hfree : Lasts i hub fun s => (Pulling i hub l L n (entry :: left) s ∧ s.peer i = hub) ∧
      ¬ Queued i entry.path s := hstart.and fun s s' hs h hq => hs (by
    unfold Queued at hq ⊢
    rwa [h.pending] at hq)
  have hcontains : EngineDoes C env .sync i
      (fun s => Pulling i hub l L n (entry :: left) s ∧ s.peer i = hub)
      (SyncEngine.pendingContains entry.path) (Base i l L) fun b s =>
        (Pulling i hub l L n (entry :: left) s ∧ s.peer i = hub) ∧
          (b = true ↔ Queued i entry.path s) := by
    refine Does.bind _ hbase.stable (does_loadPending hstart hbase) fun pending => ?_
    refine Does.pure (hstart.and fun s s' hs h => ?_).stable fun s hs => ⟨hs.1, ?_⟩
    · rw [hs]
      unfold Queued
      rw [h.pending]
    · unfold Queued
      rw [hs.2]
      simp
  unfold SyncEngine.applyRemote
  refine Does.bind _ hbase.stable hcontains fun queued => ?_
  split
  · rename_i hqueued
    refine Does.pure (hend _).stable fun s ⟨⟨hs, hpeer⟩, hq⟩ => ⟨⟨⟨hs.toBase, hs.since, hs.length,
      fun p hsys => ?_, fun e he => hs.listed e (List.mem_cons_of_mem _ he), fun e he =>
        hs.deleted e (List.mem_cons_of_mem _ he)⟩, hpeer⟩, rfl⟩
    -- nothing is done to a path something is queued for
    rcases hs.upTo p hsys with h | ⟨e, he, rfl⟩ | h
    · exact .inl h
    · rcases List.mem_cons.1 he with rfl | he
      · exact .inl (hq.1 hqueued)
      · exact .inr (.inl ⟨e, he, rfl⟩)
    · exact .inr (.inr h)
  rename_i hqueued
  refine Does.pre (P := fun s => (Pulling i hub l L n (entry :: left) s ∧ s.peer i = hub) ∧
    ¬ Queued i entry.path s) ?_ fun s hs => ⟨hs.1, fun hq => hqueued (hs.2.2 hq)⟩
  split
  · rename_i hdel
    refine Does.bind _ hbase.stable (Does.pre (does_written (v := none) writes_fileDelete rfl
      fun _ => ⟨(), rfl⟩) fun s hs => ⟨hs, hs.1.1.deleted entry List.mem_cons_self hdel⟩) fun _ => ?_
    have hmeta : Quiet (EngineReq.metaDelete (fileKey entry.path)) :=
      ⟨fileKey_ne_pending _, fileKey_ne_checkpointKey _⟩
    refine Does.bind _ hbase.stable (Does.mono (does_quietly hdone (SyncEngine.all_store hmeta))
      (fun s hs => hs.1.toBase) fun _ _ h => h) fun _ => ?_
    exact Does.pure (hend _).stable fun s hs => ⟨hs, rfl⟩
  · refine Does.bind _ hbase.stable (Does.mono (does_hubGetFile (n := n) hfree
      fun s hs => hs.1.1.length) (fun s hs => hs.1.1.toBase) fun _ _ h => h) fun file => ?_
    cases file with
    | none => exact Does.throw hbase.stable fun s hs => hs.1.1.1.1.toBase
    | some f =>
      refine Does.bind _ hbase.stable (Does.pre (does_written (v := some f.content)
        writes_filePut rfl fun _ => ⟨(), rfl⟩) fun s hs => ⟨hs.1.1, hs.1.2 f rfl⟩) fun _ => ?_
      refine Does.bind _ hbase.stable (Does.mono (does_quietly hdone
        (SyncEngine.all_store (quiet_fileMeta _ _))) (fun s hs => hs.1.toBase) fun _ _ h => h)
          fun _ => ?_
      exact Does.pure (hend _).stable fun s hs => ⟨hs, rfl⟩

theorem does_applyAll {rep : PullReport} :
    EngineDoes C env .sync i (fun s => Pulling i hub l L n left s ∧ s.peer i = hub)
      (SyncEngine.applyAll hub left rep) (Base i l L) fun rep' s =>
        (Pulling i hub l L n [] s ∧ s.peer i = hub) ∧ rep'.hub = rep.hub := by
  induction left generalizing rep with
  | nil =>
    have hfacing : Lasts i hub fun s => s.peer i = hub := fun s s' hs h => h.peer hs
    exact Does.pure ((lasts_pulling.and hfacing).and fun _ _ h _ => h).stable
      fun s hs => ⟨hs, rfl⟩
  | cons entry left ih =>
    unfold SyncEngine.applyAll
    have hbase : Lasts i hub (Base i l L) := lasts_base
    refine Does.bind _ hbase.stable does_applyRemote fun rep₁ =>
      Triple.of_pure (fun s hs => hs.2) fun hrep => ?_
    exact Does.mono (Does.pre ih fun s hs => hs.1) (fun _ h => h) fun rep' s hs =>
      ⟨hs.1, hs.2.trans hrep⟩

/-- What a pull from a hub has come to: every path of the hub's is accounted
for by a checkpoint that is not older than the pull. -/
structure Pulled (i : ι) (l : List PendingChange) (L : HubId → ℕ) (hub : HubId) (s : State ι) :
    Prop extends Base i l L s where
  covered : s.aside i hub = []
  since : L hub ≤ s.checkpoint i hub

omit [DecidableEq ι] in
theorem lasts_pulled {k : HubId} : Lasts i k (Pulled i l L hub) := fun s s' hs h =>
  ⟨lasts_base hs.toBase h, by rw [h.aside, hs.covered], by rw [h.checkpoint]; exact hs.since⟩

/-- **The checkpoint may be stored** once no entry is left. -/
theorem pulled_checkpoint {o : Delivery} (hs : Pulling i hub l L n [] s) (hpeer : s.peer i = hub) :
    Pulled i l L hub ((semantics C).exec i
      (.store .sync (.metaPut (checkpointKey hub) (.checkpoint n))) o s).2 := by
  set s' := ((semantics C).exec i
    (.store .sync (.metaPut (checkpointKey hub) (.checkpoint n))) o s).2
  have hstore : s'.store i =
      ⟨(s.store i).blobs.insert (checkpointKey hub) (.checkpoint n), (s.store i).files⟩ :=
    Function.update_self ..
  have hself : s'.checkpoint i hub = n := by
    unfold State.checkpoint
    rw [hstore]
    simp [Blob.toCheckpoint?]
  have hother : ∀ k, k ≠ hub → s'.checkpoint i k = s.checkpoint i k := fun k hk => by
    unfold State.checkpoint
    rw [hstore, AList.lookup_insert_ne (by simpa using hk)]
  have hpending : (s'.store i).pending = (s.store i).pending := by
    rw [hstore]
    simp [MemStore.pending]
  have hfiles : (s'.store i).files = (s.store i).files := by rw [hstore]
  have haside : ∀ k, s'.aside i k = if k = hub then [] else s.aside i k := by
    intro k
    refine (congrFun (Function.update_self ..) k).trans ?_
    by_cases hk : k = hub
    · subst hk
      simp [State.asideAfter, storesCheckpoint]
    · have hkey : storesCheckpoint k
          (EngineReq.metaPut (checkpointKey hub) (.checkpoint n)) = false :=
        decide_eq_false (by simpa using Ne.symm hk)
      simp only [State.asideAfter, hkey, hpeer, if_neg hk, settles, Bool.false_eq_true, if_false,
        checkpointKey_ne_pending, List.nil_append]
  have hqueued : ∀ {p}, Queued i p s → Queued i p s' := by
    intro p h
    unfold Queued
    rwa [hpending]
  -- what this hub's checkpoint now covers was in its feed; the other checkpoints stand
  refine ⟨⟨⟨hs.numbered, fun k => ?_, fun c hc hd _ => ?_, fun k p hsys _ => ?_⟩,
    hpending.trans hs.queue, hs.reached⟩, by rw [haside, if_pos rfl], hself.symm ▸ hs.since⟩
  · by_cases hk : k = hub
    · subst hk
      rw [hself]
      exact hs.length
    · rw [hother k hk]
      exact hs.within k
  · rw [hpending] at hc
    rw [hfiles]
    exact hs.gone c hc hd id
  · by_cases hk : k = hub
    · subst hk
      rw [hself, UpTo, hfiles]
      rcases hs.upTo p hsys with h | ⟨e, he, -⟩ | h
      · exact .inl (hqueued h)
      · exact absurd he List.not_mem_nil
      · exact .inr (.inr h)
    · rw [hother k hk, haside, if_neg hk, UpTo, hfiles]
      rcases hs.settled k p hsys id with h | h | h
      · exact .inl (hqueued h)
      · exact .inr (.inl h)
      · exact .inr (.inr h)

theorem does_pullFrom : EngineDoes C env .sync i (Base i l L) (SyncEngine.pullFrom hub)
    (Base i l L) fun rep => Pulled i l L rep.hub := by
  have hbase : Lasts i hub (Base i l L) := lasts_base
  have hfacing : Lasts i hub fun s => s.peer i = hub := fun s s' hs h => h.peer hs
  have hsince : ∀ v : Option Blob, Lasts i hub fun s => Base i l L s ∧
      (v.bind Blob.toCheckpoint?).getD 0 = s.checkpoint i hub := fun v =>
    hbase.and fun s s' hs h => by rw [h.checkpoint, hs]
  unfold SyncEngine.pullFrom
  refine Does.bind (fun v s => Base i l L s ∧
    (v.bind Blob.toCheckpoint?).getD 0 = s.checkpoint i hub) hbase.stable
    (does_quiet trivial (fun _ => ⟨_, rfl⟩) hbase hsince ?_) fun v => ?_
  · rintro s hs v ⟨⟩
    exact ⟨hs, rfl⟩
  refine Does.bind _ hbase.stable does_hubChanges fun resp => ?_
  refine Does.bind _ hbase.stable does_applyAll fun rep =>
    Triple.of_pure (fun s hs => hs.2) fun hrep => ?_
  refine Does.bind (fun _ => Pulled i l L rep.hub) hbase.stable
    (does_store rfl (fun t => ⟨(), rfl⟩) hbase (fun _ => lasts_pulled) fun o s hs _ _ => ?_)
      fun _ => does_pure (lasts_pulled (k := hub)) fun _ h => h
  rw [hrep]
  exact pulled_checkpoint hs.1.1 hs.1.2

/-- **A pull that succeeds** accounts for every path of the hub it got the
feed from. -/
theorem does_pull : EngineDoes C env .sync i (Base i l L) eng.pull (Base i l L) fun rep =>
    Pulled i l L rep.hub := by
  have hbase : Lasts i "" (Base i l L) := lasts_base
  exact SyncEngine.does_failover hbase.stable (fun rep => (lasts_pulled (k := rep.hub)).stable)
    (fun _ => triple_quiet trivial hbase) (fun _ => does_pullFrom) _ _

end Tracking

end FileSync
