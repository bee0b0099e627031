import FileSync.Client.HeldPush
/-!
# No device overwrites what it never held

A pull brings a revision with its content, unless another revision became
the visible one between the hub's two reads. So whatever a device records
is on a revision whose content it has held, except where the revision was
only named to it: and the answer of a stale push is, until a pull has
brought it.
-/

namespace FileSync

namespace HeldContent

variable {ι : Type} [DecidableEq ι] {C : Couch} {env : HubEnv} {eng : SyncEngine}
  {origin : Origin} {i : ι} {hub : HubId} {s s' : State ι} {path : Path} {rev : Rev}
  {but : Path → Prop} {α β ε ε' : Type} {P Q B : State ι → Prop} {M : α → State ι → Prop}

/-! ## Fetching a file -/

/-- The revision was the visible one when the hub looked. -/
def Looked (i : ι) (hub : HubId) (path : Path) (rev : Rev) (s : State ι) : Prop :=
  s.looked i = some rev ∧ ((s.tree hub path).find? rev).isSome

omit [DecidableEq ι] in
theorem stable_looked : (contract hub).Stable i (Looked i hub path rev) := by
  rintro s s' ⟨hlooked, hsome⟩ ⟨honward, hsame⟩
  obtain ⟨n, hn⟩ := Option.isSome_iff_exists.1 hsome
  exact ⟨hsame.trans hlooked, by rw [Tree.find?_of_grown (honward.docs path) hn]; rfl⟩

/-- The content is what the revision shows, or the revision was only named. -/
def Fetched (i : ι) (hub : HubId) (path : Path) (rev : Rev) (bytes : Bytes) (s : State ι) : Prop :=
  (path, rev) ∈ s.named i ∨ Shows hub path rev [bytes] s

omit [DecidableEq ι] in
theorem lasts_fetched {bytes : Bytes} : Lasts i hub (Fetched i hub path rev bytes) := by
  intro s s' hs h
  rcases hs with hn | hshows
  · exact .inl (h.named hn)
  · exact .inr (hshows.onward (h.docs path) (List.Subset.refl _))

/-- **The first read** of a file request. -/
theorem does_look (hP : Lasts i hub P) :
    HubDoes C hub true i P (CouchClient.getDoc path) P fun doc s =>
      P s ∧ ∀ d ∈ doc, Looked i hub path d.rev s := by
  refine does_getDoc hP (fun r => stable_looked) fun s hs w hvis => ⟨?_, ?_⟩
  · show Function.update s.looked i ((s.tree hub path).visible.map Node.rev) i = _
    rw [Function.update_self, hvis]
    rfl
  · obtain ⟨m, hm⟩ := Tree.exists_find? (Tree.mem_of_mem_leaves
      (Tree.mem_liveLeaves.1 (Tree.visible_mem hvis)).1)
    have hdocs : s.tree hub path <+: ((semantics C).exec i
        ⟨true, .couch hub (.getDoc path)⟩ .delivered s).2.tree hub path :=
      docs_exec .delivered s path
    rw [Tree.find?_of_grown hdocs hm]
    rfl

/-- **The second read**: the content is of the revision that was looked at,
or that one is only named. -/
theorem does_attach (hP : Lasts i hub P) :
    HubDoes C hub true i (fun s => P s ∧ Looked i hub path rev s)
      (CouchClient.getAttachment path none) P fun bytes s =>
        P s ∧ Fetched i hub path rev bytes s := by
  have hM : ∀ bytes, Lasts i hub fun s => P s ∧ Fetched i hub path rev bytes s := fun _ =>
    hP.and lasts_fetched
  refine Does.ask hP.stable (fun bytes => (hM bytes).stable) (triple_couch trivial
    (stable_post hP.stable fun bytes => (hM bytes).stable)
      (fun o s hs => hP hs.1 (onward_couch hub o s)) fun s ⟨hs, hlooked, hsome⟩ => ?_)
  have honward : Onward i hub s ((semantics C).exec i
      ⟨true, .couch hub (.getAttachment path none)⟩ .delivered s).2 :=
    onward_couch hub .delivered s
  simp only [Couch.answer]
  cases hb : (s.tree hub path).content? none with
  | none => exact hP hs honward
  | some bytes =>
    refine ⟨hP hs honward, ?_⟩
    by_cases hsame : (s.tree hub path).content? (some rev) = (s.tree hub path).content? none
    · refine lasts_fetched (.inr ⟨hsome, fun b hbytes => ?_⟩) honward
      rw [hsame, hb] at hbytes
      exact List.mem_singleton.2 (Option.some.inj hbytes).symm
    · refine .inl ?_
      rw [named_exec]
      refine List.mem_append_right _ ?_
      simp only [State.names, hlooked, Option.toList_some]
      rw [List.filter_cons_of_pos (by simpa using hsame)]
      exact List.mem_cons_self

/-- **The file request**, there and back. -/
theorem does_hubGetFile (hP : Lasts i hub P) :
    EngineDoes C env hub origin i P (SyncEngine.ask (.hubGetFile hub path)) P fun file s =>
      P s ∧ ∀ f ∈ file, ∀ r ∈ f.rev, Fetched i hub path r f.content s := by
  have hM : ∀ file : Option FileContent, Lasts i hub fun s =>
      P s ∧ ∀ f ∈ file, ∀ r ∈ f.rev, Fetched i hub path r f.content s := fun file s s' hs h =>
    ⟨hP hs.1 h, fun f hf r hr => lasts_fetched (hs.2 f hf r hr) h⟩
  have hroute : HubDoes C hub true i P (Routes.getFile path) P fun f s =>
      P s ∧ ∀ r ∈ f.rev, Fetched i hub path r f.content s := by
    have hfile : ∀ f : FileContent, Lasts i hub fun s =>
        P s ∧ ∀ r ∈ f.rev, Fetched i hub path r f.content s := fun f s s' hs h =>
      ⟨hP hs.1 h, fun r hr => lasts_fetched (hs.2 r hr) h⟩
    have hlook : ∀ doc : Option Doc, (contract hub).Stable i fun s =>
        P s ∧ ∀ d ∈ doc, Looked i hub path d.rev s := fun doc s s' hs h =>
      ⟨hP.stable hs.1 h, fun d hd => stable_looked (hs.2 d hd) h⟩
    unfold Routes.getFile
    refine Does.bind _ hP.stable (Does.adapt hP.stable hlook (does_look hP)) fun doc => ?_
    cases doc with
    | none => exact Does.throw hP.stable fun _ h => h.1
    | some doc =>
      refine Does.bind _ hP.stable (Does.adapt hP.stable
        (fun bytes => (hP.and lasts_fetched).stable)
        (Does.pre (does_attach hP) fun s hs => ⟨hs.1, hs.2 doc rfl⟩)) fun bytes => ?_
      refine Does.pure (hfile _).stable fun s hs => ⟨hs.1, fun r hr => ?_⟩
      obtain rfl := Option.some.inj hr
      exact hs.2
  refine Does.ask hP.stable (fun file => (hM file).stable) ?_
  refine triple_overLink hP hP hM (fun _ h => h) (fun _ _ h => h.1) ?_
  refine HubClient.does_getFile hP.stable (fun file => (hM file).stable)
    (fun s hs => ⟨hs, fun f h => by cases h⟩) (Does.mono hroute (fun _ h => h) fun f s hs =>
      ⟨hs.1, fun f' hf => ?_⟩)
  obtain rfl := Option.some.inj hf
  exact hs.2

/-! ## Writing a file -/

variable (C i hub) in
/-- What a file that is written leaves. -/
theorem after_filePut (origin : Origin) (path : Path) (data : Bytes) (mtime : ℤ) (o : Delivery)
    (s : State ι) :
    let s' := ((semantics C).exec i ⟨false, .store origin (.filePut path data mtime)⟩ o s).2
    s'.store i = ⟨(s.store i).blobs, (s.store i).files.insert path data⟩ ∧
      s'.had i = Function.update (s.had i) path (data :: s.had i path) ∧
      s'.before i = s.beforeAfter i (.store origin (.filePut path data mtime)) ∧
      s.named i ⊆ s'.named i ∧ ∀ p, s.tree hub p <+: s'.tree hub p := by
  refine ⟨Function.update_self .., Function.update_self .., Function.update_self .., ?_,
    docs_exec o s⟩
  rw [named_exec]
  exact List.subset_append_left _ _

omit [DecidableEq ι] in
theorem subset_update {had : Path → List Bytes} {data : Bytes} (p : Path) :
    had p ⊆ Function.update had path (data :: had path) p := by
  by_cases hp : p = path
  · subst hp
    rw [Function.update_self]
    exact List.subset_cons_self _ _
  · rw [Function.update_of_ne hp]
    exact List.Subset.refl _

omit [DecidableEq ι] in
/-- What is set down as held before the write is what had been. -/
theorem beforeAfter_filePut (origin : Origin) (path : Path) (data : Bytes) (mtime : ℤ)
    (h : ∀ p, s.before i p ⊆ s.had i p) (p : Path) : s.before i p ⊆ s.beforeAfter i (.store origin (.filePut path data mtime)) p ∧
      s.beforeAfter i (.store origin (.filePut path data mtime)) p ⊆ s.had i p := by
  cases origin with
  | sync => exact ⟨List.Subset.refl _, h p⟩
  | record =>
    show s.before i p ⊆ Function.update (s.before i) path (s.had i path) p ∧
      Function.update (s.before i) path (s.had i path) p ⊆ s.had i p
    by_cases hp : p = path
    · subst hp
      rw [Function.update_self]
      exact ⟨h p, List.Subset.refl _⟩
    · rw [Function.update_of_ne hp]
      exact ⟨List.Subset.refl _, h p⟩

omit [DecidableEq ι] in
theorem Accounted.grown {rev : Option Rev} (hs : Accounted i hub path rev s)
    (hhad : s.had i path ⊆ s'.had i path) (hnamed : s.named i ⊆ s'.named i)
    (hdocs : s.tree hub path <+: s'.tree hub path) : Accounted i hub path rev s' := by
  intro r hr
  rcases hs r hr with hn | hshows
  · exact .inl (hnamed hn)
  · exact .inr (hshows.onward hdocs hhad)

/-- **A file is written**: the path has held one content more. -/
theorem keeps_filePut {data : Bytes} {mtime : ℤ} {o : Delivery} (hs : Keeps i hub but s) :
    Keeps i hub but ((semantics C).exec i
      ⟨false, .store origin (.filePut path data mtime)⟩ o s).2 := by
  obtain ⟨hstore, hhad, hbefore, hnamed, hdocs⟩ :=
    after_filePut C i hub origin path data mtime o s
  have hwas : ∀ p, _ := beforeAfter_filePut origin path data mtime hs.before
  refine ⟨fun p bytes hb => ?_, fun p => ?_, fun p m hm => ?_, fun c hc hd r hr => ?_,
    fun c hc hd hbut => ?_⟩
  · rw [hstore] at hb
    rw [hhad]
    by_cases hp : p = path
    · subst hp
      rw [AList.lookup_insert] at hb
      obtain rfl := Option.some.inj hb
      rw [Function.update_self]
      exact List.mem_cons_self
    · rw [AList.lookup_insert_ne hp] at hb
      exact subset_update p (hs.files p bytes hb)
  · rw [hbefore, hhad]
    exact List.Subset.trans (hwas p).2 (subset_update p)
  · rw [hstore] at hm
    refine (hs.synced p m hm).grown ?_ hnamed (hdocs p)
    rw [hhad]
    exact subset_update p
  · rw [hstore] at hc
    refine (hs.queued c hc hd r hr).onward (hdocs _) ?_
    rw [hbefore]
    exact (hwas _).1
  · rw [hstore] at hc ⊢
    by_cases hp : c.path = path
    · rw [hp, AList.lookup_insert]
      rfl
    · rw [AList.lookup_insert_ne hp]
      exact hs.present c hc hd hbut

/-- **A file is deleted** that nothing is queued for, those left out apart. -/
theorem keeps_fileDelete {o : Delivery} (hs : Keeps i hub but s)
    (hfree : ∀ c ∈ (s.store i).pending, c.deleted = false → ¬ but c.path → c.path ≠ path) :
    Keeps i hub but ((semantics C).exec i ⟨false, .store origin (.fileDelete path)⟩ o s).2 := by
  set s' := ((semantics C).exec i ⟨false, .store origin (.fileDelete path)⟩ o s).2
  have hstore : s'.store i = ⟨(s.store i).blobs, (s.store i).files.erase path⟩ :=
    Function.update_self ..
  have hforward : Forward i hub s s' := forward_exec o s rfl (by cases origin <;> rfl)
  refine ⟨fun p bytes hb => ?_, fun p => ?_, fun p m hm => ?_, fun c hc hd r hr => ?_,
    fun c hc hd hbut => ?_⟩
  · rw [hstore] at hb
    rw [hforward.had]
    by_cases hp : p = path
    · subst hp
      rw [AList.lookup_erase] at hb
      cases hb
    · rw [AList.lookup_erase_ne hp] at hb
      exact hs.files p bytes hb
  · rw [hforward.before, hforward.had]
    exact hs.before p
  · rw [hstore] at hm
    exact (hs.synced p m hm).forward hforward
  · rw [hstore] at hc
    rw [hforward.before]
    exact (hs.queued c hc hd r hr).onward (hforward.docs _) (List.Subset.refl _)
  · rw [hstore] at hc ⊢
    rw [AList.lookup_erase_ne (hfree c hc hd hbut)]
    exact hs.present c hc hd hbut

/-- A path's metadata is deleted. -/
theorem keeps_metaDelete {o : Delivery} (hs : Keeps i hub but s) : Keeps i hub but
    ((semantics C).exec i ⟨false, .store origin (.metaDelete (fileKey path))⟩ o s).2 := by
  have hstore : ((semantics C).exec i ⟨false, .store origin
      (.metaDelete (fileKey path))⟩ o s).2.store i =
        ⟨(s.store i).blobs.erase (fileKey path), (s.store i).files⟩ := Function.update_self ..
  refine hs.forward (forward_exec o s rfl (by cases origin <;> rfl)) (by rw [hstore]) ?_
    fun p m hm => .inl ?_
  · rw [hstore]
    unfold MemStore.pending
    rw [AList.lookup_erase_ne (pending_ne_fileKey path)]
  · rw [hstore] at hm
    unfold MemStore.fileMeta? at hm
    by_cases hp : p = path
    · subst hp
      rw [AList.lookup_erase] at hm
      cases hm
    · rwa [AList.lookup_erase_ne (by simpa using hp)] at hm

/-! ## Pulling -/

/-- Nothing is queued for the path. -/
def Free (i : ι) (path : Path) (s : State ι) : Prop := ∀ c ∈ (s.store i).pending, c.path ≠ path

omit [DecidableEq ι] in
theorem lasts_free : Lasts i hub (Free i path) := fun s s' hs h => by
  unfold Free
  rw [h.pending]
  exact hs

/-- **One entry of a feed**: its file is written with the revision it was
fetched as. -/
theorem does_applyRemote {entry : ChangeEntry} {rep : PullReport} :
    EngineDoes C env hub origin i (KeepsAll i hub) (SyncEngine.applyRemote hub entry rep)
      (KeepsAll i hub) fun _ => KeepsAll i hub := by
  have hkeeps : Lasts i hub (KeepsAll i hub) := lasts_keeps
  have hfree : Lasts i hub fun s => KeepsAll i hub s ∧ Free i entry.path s :=
    hkeeps.and lasts_free
  have hM : ∀ queued : Bool, Lasts i hub fun s =>
      KeepsAll i hub s ∧ (queued = false → Free i entry.path s) := fun queued =>
    hkeeps.and fun s s' hs h hq => lasts_free (hs hq) h
  have hcontains : EngineDoes C env hub origin i (KeepsAll i hub)
      (SyncEngine.pendingContains entry.path) (KeepsAll i hub) fun queued s =>
        KeepsAll i hub s ∧ (queued = false → Free i entry.path s) := by
    refine Does.bind _ hkeeps.stable (does_loadPending hkeeps hkeeps) fun pending => ?_
    refine does_pure (hM _) fun s ⟨hs, hl⟩ => ⟨hs, fun hq c hc hpath => ?_⟩
    have hany : (pending.any fun p => p.path = entry.path) = true :=
      List.any_eq_true.2 ⟨c, hl ▸ hc, by simpa using hpath⟩
    rw [hany] at hq
    cases hq
  -- only the file of a path that has nothing queued is touched
  unfold SyncEngine.applyRemote
  refine Does.bind _ hkeeps.stable hcontains fun queued => ?_
  split
  · exact does_pure hkeeps fun _ h => h.1
  rename_i hqueued
  refine Does.pre (P := fun s => KeepsAll i hub s ∧ Free i entry.path s) ?_
    fun s hs => ⟨hs.1, hs.2 (by simpa using hqueued)⟩
  split
  · refine Does.bind (fun _ => KeepsAll i hub) hkeeps.stable (does_store rfl (fun _ => ⟨_, rfl⟩)
      hkeeps (fun _ => hkeeps) fun o s hs _ _ _ =>
        keeps_fileDelete hs.1 fun c hc _ _ => hs.2 c hc) fun _ => ?_
    refine Does.bind (fun _ => KeepsAll i hub) hkeeps.stable (does_store rfl (fun _ => ⟨_, rfl⟩)
      hkeeps (fun _ => hkeeps) fun o s hs _ _ _ => keeps_metaDelete hs) fun _ => ?_
    exact does_pure hkeeps fun _ h => h
  · refine Does.bind _ hkeeps.stable (Does.pre (does_hubGetFile hkeeps) fun s hs => hs.1)
      fun file => ?_
    cases file with
    | none => exact Does.throw hkeeps.stable fun _ h => h.1
    | some f =>
      have hsynced : Lasts i hub fun s => KeepsAll i hub s ∧ Accounted i hub entry.path f.rev s :=
        hkeeps.and lasts_accounted
      refine Does.bind (fun _ s => KeepsAll i hub s ∧ Accounted i hub entry.path f.rev s)
        hkeeps.stable (does_store rfl (fun _ => ⟨_, rfl⟩) hkeeps (fun _ => hsynced)
          fun o s ⟨hs, hfetched⟩ _ _ _ => ⟨keeps_filePut hs, fun r hr => ?_⟩) fun _ => ?_
      · obtain ⟨-, hhad, -, hnamed, hdocs⟩ :=
          after_filePut C i hub origin entry.path f.content f.mtime o s
        rcases hfetched f rfl r hr with hn | hshows
        · exact .inl (hnamed hn)
        · refine .inr (hshows.onward (hdocs _) ?_)
          rw [hhad, Function.update_self]
          exact fun b hb => List.mem_singleton.1 hb ▸ List.mem_cons_self
      refine Does.bind (fun _ => KeepsAll i hub) hkeeps.stable (does_store opened_metaPut
        (fun _ => ⟨_, rfl⟩) hkeeps (fun _ => hkeeps) fun o s hs _ _ _ =>
          keeps_fileMeta hs.1 hs.2) fun _ => ?_
      exact does_pure hkeeps fun _ h => h

/-- **A pull**, wherever it stops, leaves every revision accounted for. -/
theorem does_pull {notifier : Bool} :
    EngineDoes C env hub origin i (KeepsAll i hub) (SyncEngine.pull ⟨[hub], notifier⟩)
      (KeepsAll i hub) fun _ => KeepsAll i hub := by
  have hkeeps : Lasts i hub (KeepsAll i hub) := lasts_keeps
  have hquiet : ∀ token : Checkpoint,
      Quiet (EngineReq.metaPut (checkpointKey hub) (.checkpoint token)) := fun token =>
    ⟨checkpointKey_ne_pending hub, checkpointKey_ne_fileKey hub⟩
  have hall : ∀ entries rep, EngineDoes C env hub origin i (KeepsAll i hub)
      (SyncEngine.applyAll hub entries rep) (KeepsAll i hub) fun _ => KeepsAll i hub := by
    intro entries
    induction entries with
    | nil => exact fun rep => does_pure hkeeps fun _ h => h
    | cons entry entries ih => exact fun rep => Does.bind _ hkeeps.stable does_applyRemote ih
  have hchanges : ∀ since, EngineDoes C env hub origin i (KeepsAll i hub)
      (SyncEngine.ask (.hubChanges hub since)) (KeepsAll i hub) fun _ => KeepsAll i hub := by
    intro since
    refine Does.ask hkeeps.stable (fun _ => hkeeps.stable) (triple_overLink hkeeps hkeeps
      (fun _ => hkeeps) (fun _ h => h) (fun _ _ h => h) ?_)
    refine Does.adapt hkeeps.stable (fun _ => hkeeps.stable) (does_plainly hkeeps ?_)
    exact .bind (.adapt (all_call trivial _)) fun _ => Fallible.all_pure _
  unfold SyncEngine.pull
  refine SyncEngine.does_failover_one hkeeps.stable (fun _ => hkeeps.stable)
    (fun e => triple_quiet (e := .notifyError e) trivial hkeeps) ?_ none
  unfold SyncEngine.pullFrom
  refine Does.bind _ hkeeps.stable (does_quiet trivial (fun _ => ⟨_, rfl⟩) hkeeps
    (fun _ => hkeeps) fun _ hs _ _ => hs) fun v => ?_
  refine Does.bind _ hkeeps.stable (hchanges _) fun resp => ?_
  refine Does.bind _ hkeeps.stable (hall _ _) fun rep => ?_
  refine Does.bind _ hkeeps.stable (does_quiet (hquiet _) (fun _ => ⟨_, rfl⟩) hkeeps
    (fun _ => hkeeps) fun _ hs _ _ => hs) fun _ => ?_
  exact does_pure hkeeps fun _ h => h

/-! ## Recording -/

variable {c : LocalCall} {baseRev : Option Rev} {l : List PendingChange}

/-- The path's file is as the call says, and what an upsert is recorded on
had been held. -/
def Recorded (i : ι) (hub : HubId) (c : LocalCall) (baseRev : Option Rev) (s : State ι) : Prop :=
  Keeps i hub (· = c.path) s ∧ ((c.change baseRev).deleted = false →
    (∀ r ∈ baseRev, Shows hub c.path r (s.before i c.path) s) ∧
      ((s.store i).files.lookup c.path).isSome)

omit [DecidableEq ι] in
theorem lasts_recorded : Lasts i hub (Recorded i hub c baseRev) :=
  lasts_keeps.and fun s s' hs h hd => by
    obtain ⟨hbase, hfile⟩ := hs hd
    rw [h.before, h.files]
    exact ⟨fun r hr => (hbase r hr).onward (h.docs _) (List.Subset.refl _), hfile⟩

/-- The revision the path was last synced at. -/
def Synced (i : ι) (hub : HubId) (path : Path) (baseRev : Option Rev) (s : State ι) : Prop :=
  KeepsAll i hub s ∧ baseRev = ((s.store i).fileMeta? path).bind FileMeta.rev

omit [DecidableEq ι] in
theorem lasts_synced : Lasts i hub (Synced i hub path baseRev) :=
  lasts_keeps.and fun s s' hs h => by rw [h.fileMeta]; exact hs

/-- **What an upsert is recorded on had been held**, as the condition makes
up for the revisions that were only named. -/
theorem recorded_filePut {mtime : ℤ} {contentType : String} {content : Bytes} {o : Delivery}
    (hs : Synced i hub path baseRev s) (hbase : BaseHeld i hub path s) :
    Recorded i hub (.upsert path mtime contentType content) baseRev ((semantics C).exec i
      ⟨false, .store .record (.filePut path content mtime)⟩ o s).2 := by
  obtain ⟨hkeeps, rfl⟩ := hs
  obtain ⟨hstore, -, hbefore, -, hdocs⟩ :=
    after_filePut C i hub .record path content mtime o s
  refine ⟨keeps_filePut (hkeeps.mono fun _ h => h.elim), fun _ => ⟨fun r hr => ?_, ?_⟩⟩
  · obtain ⟨m, hm, hrev⟩ := Option.bind_eq_some_iff.1 hr
    have hheld : Shows hub path r (s.had i path) s := by
      rcases hkeeps.synced path m hm r hrev with hn | hshows
      exacts [hbase m hm r hrev hn, hshows]
    refine hheld.onward (hdocs path) ?_
    rw [hbefore]
    show _ ⊆ Function.update (s.before i) path (s.had i path) path
    rw [Function.update_self]
    exact List.Subset.refl _
  · rw [hstore]
    show (((s.store i).files.insert path content).lookup path).isSome
    rw [AList.lookup_insert]
    rfl

theorem recorded_fileMeta {mtime : ℤ} {contentType : String} {content : Bytes} {o : Delivery}
    (hs : Recorded i hub (.upsert path mtime contentType content) baseRev s) :
    Recorded i hub (.upsert path mtime contentType content) baseRev ((semantics C).exec i
      ⟨false, .store origin (.metaPut (fileKey path) (.fileMeta ⟨baseRev, mtime, contentType⟩))⟩
        o s).2 := by
  obtain ⟨hkeeps, hnew⟩ := hs
  obtain ⟨hbase, hfile⟩ := hnew rfl
  have hforward : Forward i hub s ((semantics C).exec i ⟨false, .store origin
      (.metaPut (fileKey path) (.fileMeta ⟨baseRev, mtime, contentType⟩))⟩ o s).2 :=
    forward_metaPut o s
  refine ⟨keeps_fileMeta hkeeps fun r hr => .inr ((hbase r hr).onward List.prefix_rfl
    (hkeeps.before path)), fun _ => ⟨fun r hr => ?_, ?_⟩⟩
  · rw [hforward.before]
    exact (hbase r hr).onward (hforward.docs _) (List.Subset.refl _)
  · have hstore : ((semantics C).exec i ⟨false, .store origin (.metaPut (fileKey path)
        (.fileMeta ⟨baseRev, mtime, contentType⟩))⟩ o s).2.store i =
          ⟨(s.store i).blobs.insert (fileKey path) (.fileMeta ⟨baseRev, mtime, contentType⟩),
            (s.store i).files⟩ := Function.update_self ..
    rw [hstore]
    exact hfile

/-- **A recorded change is queued.** -/
theorem keeps_enqueue {o : Delivery} (hs : Recorded i hub c baseRev s)
    (hl : (s.store i).pending = l) : KeepsAll i hub ((semantics C).exec i ⟨false, .store origin
      (.metaPut keyPending (.queue (SyncEngine.enqueue l (c.change baseRev))))⟩ o s).2 := by
  set s' := ((semantics C).exec i ⟨false, .store origin
    (.metaPut keyPending (.queue (SyncEngine.enqueue l (c.change baseRev))))⟩ o s).2
  obtain ⟨hkeeps, hnew⟩ := hs
  have hforward : Forward i hub s s' := forward_metaPut o s
  have hstore : s'.store i = ⟨(s.store i).blobs.insert keyPending
      (.queue (SyncEngine.enqueue l (c.change baseRev))), (s.store i).files⟩ :=
    Function.update_self ..
  have hpending : (s'.store i).pending = SyncEngine.enqueue l (c.change baseRev) := by
    rw [hstore]
    simp [MemStore.pending, Blob.toQueue?]
  have hpath : (c.change baseRev).path = c.path := c.change_path baseRev
  have hrev : (c.change baseRev).baseRev = baseRev := by cases c <;> rfl
  refine ⟨fun p => ?_, fun p => ?_, fun p m hm => ?_, fun d hd hdel r hr => ?_,
    fun d hd hdel _ => ?_⟩
  · rw [hstore, hforward.had]
    exact hkeeps.files p
  · rw [hforward.before, hforward.had]
    exact hkeeps.before p
  · rw [hstore] at hm
    unfold MemStore.fileMeta? at hm
    rw [AList.lookup_insert_ne (fileKey_ne_pending p)] at hm
    exact (hkeeps.synced p m hm).forward hforward
  · rw [hpending] at hd
    rw [hforward.before]
    rcases SyncEngine.mem_enqueue.1 hd with rfl | ⟨hd, -⟩
    · rw [hrev] at hr
      rw [hpath]
      exact ((hnew hdel).1 r hr).onward (hforward.docs _) (List.Subset.refl _)
    · exact (hkeeps.queued d (hl ▸ hd) hdel r hr).onward (hforward.docs _) (List.Subset.refl _)
  · rw [hpending] at hd
    rw [hstore]
    rcases SyncEngine.mem_enqueue.1 hd with rfl | ⟨hd, hne⟩
    · rw [hpath]
      exact (hnew hdel).2
    · exact hkeeps.present d (hl ▸ hd) hdel fun heq => hne (heq.trans hpath.symm)

/-- **Recording a change.** -/
theorem does_record (c : LocalCall) :
    EngineDoes C env hub .record i (KeepsAll i hub) (c.record eng) (KeepsAll i hub)
      fun _ => KeepsAll i hub := by
  have hkeeps : Lasts i hub (KeepsAll i hub) := lasts_keeps
  have hfalse : Lasts i hub fun _ => False := fun _ _ h _ => h
  have hrecorded : ∀ r, Lasts i hub (Recorded i hub c r) := fun _ => lasts_recorded
  refine Does.mono (B := fun _ => False) (M := fun _ => KeepsAll i hub) ?_ (fun _ h => h.elim)
    fun _ _ h => h
  rw [LocalCall.record_eq]
  refine SyncEngine.does_report hfalse.stable (fun _ => hkeeps.stable)
    (fun e => triple_quiet (e := .notifyError e) trivial hfalse) ?_
  refine Does.bind (fun baseRev => Synced i hub c.path baseRev) hfalse.stable ?_ fun baseRev => ?_
  · unfold SyncEngine.knownRev
    refine Does.bind (fun v => Synced i hub c.path ((v.bind Blob.toFileMeta?).bind FileMeta.rev))
      hfalse.stable (does_quiet trivial (fun _ => ⟨_, rfl⟩) hfalse (fun _ => lasts_synced) ?_)
        fun v => does_pure lasts_synced fun _ h => h
    rintro s hs v ⟨⟩
    exact ⟨hs, rfl⟩
  refine Does.bind (fun _ => Recorded i hub c baseRev) hfalse.stable ?_ fun _ => ?_
  · cases c with
    | upsert path mtime contentType content =>
      refine Does.bind (fun _ => Recorded i hub _ baseRev) hfalse.stable (does_store rfl
        (fun _ => ⟨_, rfl⟩) hfalse (fun _ => hrecorded _) fun o s hs ho _ _ =>
          recorded_filePut hs (ho path rfl)) fun _ => ?_
      exact does_store opened_metaPut (fun _ => ⟨_, rfl⟩) hfalse (fun _ => hrecorded _)
        fun o s hs _ _ _ => recorded_fileMeta hs
    | delete path mtime =>
      refine Does.bind (fun _ => Recorded i hub _ baseRev) hfalse.stable (does_store rfl
        (fun _ => ⟨_, rfl⟩) hfalse (fun _ => hrecorded _) fun o s hs _ _ _ =>
          ⟨keeps_fileDelete (hs.1.mono fun _ h => h.elim) fun d _ _ hd => hd,
            fun hd => by cases hd⟩) fun _ => ?_
      exact does_store rfl (fun _ => ⟨_, rfl⟩) hfalse (fun _ => hrecorded _) fun o s hs _ _ _ =>
        ⟨keeps_metaDelete hs.1, fun hd => by cases hd⟩
  · unfold SyncEngine.upsertPending
    refine Does.bind _ hfalse.stable (does_loadPending (hrecorded baseRev) hfalse) fun pending => ?_
    exact does_store opened_metaPut (fun _ => ⟨_, rfl⟩) hfalse (fun _ => hkeeps)
      fun o s hs _ _ _ => keeps_enqueue hs.1 hs.2

/-! ## The devices together -/

theorem does_run {notifier : Bool} (c : DeviceCall) :
    EngineDoes C env hub c.origin i (KeepsAll i hub) (c.run ⟨[hub], notifier⟩) (KeepsAll i hub)
      fun _ => KeepsAll i hub := by
  have hkeeps : Lasts i hub (KeepsAll i hub) := lasts_keeps
  cases c with
  | record call => exact does_record call
  | push => exact Does.bind _ hkeeps.stable does_push fun _ => does_pure hkeeps fun _ h => h
  | pull => exact Does.bind _ hkeeps.stable does_pull fun _ => does_pure hkeeps fun _ h => h
  | sync =>
    unfold DeviceCall.run SyncEngine.sync
    refine Does.bind (fun _ => KeepsAll i hub) hkeeps.stable ?_
      fun _ => does_pure hkeeps fun _ h => h
    refine Does.bind _ hkeeps.stable does_push fun _ => ?_
    exact Does.bind _ hkeeps.stable does_pull fun _ => does_pure hkeeps fun _ h => h

theorem triple_script {notifier : Bool} (calls : List DeviceCall) :
    Triple (semantics C) (RecordsOnHeld hub) (contract hub) i (KeepsAll i hub)
      (script env ⟨[hub], notifier⟩ calls) fun _ => KeepsAll i hub := by
  have hkeeps : Lasts i hub (KeepsAll i hub) := lasts_keeps
  induction calls with
  | nil => exact Triple.done hkeeps.stable fun _ h => h
  | cons c calls ih =>
    refine Triple.bind (fun _ => KeepsAll i hub) (Triple.post (does_run c) fun r s hs => ?_)
      fun _ => ih
    cases r <;> exact hs

/-- Each device has its calls to make and nothing in its stores; the hub has
what it has. -/
def start (env : HubEnv) (hub : HubId) (notifier : ι → Bool) (calls : ι → List DeviceCall)
    (db : Db) : Config ι Req Unit (State ι) where
  task i := script env ⟨[hub], notifier i⟩ (calls i)
  state := ⟨⟨fun _ => .empty, fun _ => db⟩, fun _ _ => [], fun _ _ => [], fun _ => none,
    fun _ => [], []⟩

omit [DecidableEq ι] in
theorem keeps_start {notifier : ι → Bool} {calls : ι → List DeviceCall} {db : Db} :
    KeepsAll i hub (start env hub notifier calls db).state where
  files p bytes hb := by cases hb
  before p := List.Subset.refl _
  synced p m hm := by cases hm
  queued c hc := absurd hc List.not_mem_nil
  present c hc := absurd hc List.not_mem_nil

/-- **No device overwrites content it never held**, in a run of any number of
devices, with any failures and anybody writing at the hub, as long as no
upsert is recorded on a revision that was only named to the device and
shows what the path has not held there: what the hub shows when it accepts
an upsert on the current revision had been held before the upsert was
recorded. -/
theorem overwritten_was_held (C : Couch) (env : HubEnv) (hub : HubId) (notifier : ι → Bool)
    (calls : ι → List DeviceCall) (db : Db) (ms : List (Move ι Delivery Arrival))
    (h : (start env hub notifier calls db).Meets (semantics C) (RecordsOnHeld hub) ms) :
    OverwritesHeld ((start env hub notifier calls db).runs (semantics C) ms).state := by
  have hsafe : PoolSafe (semantics C) (RecordsOnHeld hub) (contract hub)
      (fun i _ => KeepsAll i hub) (start env hub notifier calls db) :=
    PoolSafe.init (fun i => (show Lasts i hub (KeepsAll i hub) from lasts_keeps).stable)
      (fun _ => keeps_start) fun i => triple_script (calls i)
  exact hsafe.invariant fits (fun _ _ _ hguar => hguar.2) (fun _ _ _ hs => hs) h
    fun w hw => absurd hw List.not_mem_nil

/-! ## An answer that was never fetched -/

/-- The phone has a newer version of a file than the laptop, which edits its
own after it has synced. -/
def twoDevices : Config Bool Req Unit (State Bool) :=
  start .plain "hub" (fun _ => true)
    (fun phone => if phone then [.record (.upsert "a" 5 octetStream [2]), .sync]
      else [.record (.upsert "a" 1 octetStream [3]), .sync,
        .record (.upsert "a" 6 octetStream [4]), .sync]) .empty

/-- The phone syncs first. The laptop's push is stale, and of its pull the
first message is as `o` says. -/
def laptopAfterPhone (o : Delivery) : List (Move Bool Delivery Arrival) :=
  List.replicate 27 (.run true .delivered) ++ List.replicate 28 (.run false .delivered) ++
    .run false o :: List.replicate 40 (.run false .delivered)

/-- **The phone's content is overwritten by a laptop that never had it**: its
pull is lost, and it edits its own file on the revision its push was
answered. -/
theorem unfetched_answer_overwritten :
    let c := twoDevices.runs (semantics (.counting true)) (laptopAfterPhone .unsent)
    c.state.overwrites.map (fun w => (w.path, w.shown, w.held)) = [("a", some [2], [[3]])] ∧
      ¬ OverwritesHeld c.state := by
  decide +kernel

/-- Had the pull got through, the laptop would have had it. -/
theorem fetched_answer_was_held :
    let c := twoDevices.runs (semantics (.counting true)) (laptopAfterPhone .delivered)
    c.state.overwrites.map (fun w => (w.path, w.shown, w.held)) = [("a", some [2], [[2], [3]])] ∧
      OverwritesHeld c.state :=
  ⟨by decide +kernel, overwritten_was_held (.counting true) .plain "hub" (fun _ => true) _ .empty
    (laptopAfterPhone .delivered) (by decide +kernel)⟩

end HeldContent

end FileSync
