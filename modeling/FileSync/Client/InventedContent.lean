import FileSync.Client.Device
import FileSync.Client.Faults
/-!
# What a push sends as a file's content

A queued upsert names a path, and its content is read from the file store
when it is pushed; a file that is not there is sent as an empty one. So
every queued upsert must have its file. A delete that is recorded takes the
file away before it takes the upsert out of the queue, and if it fails in
between, the upsert stays behind without its file.
-/

namespace FileSync

namespace InventedContent

/-- An operation of the engine, and the device's operation it is part of. -/
structure Op (β : Type) where
  call : DeviceCall
  req : EngineReq β

/-- The file `record_upsert` writes. -/
def Op.records {β : Type} (op : Op β) : Option (Path × Bytes) :=
  match op.req with
  | .filePut path data _ => match op.call with
    | .record (.upsert ..) => some (path, data)
    | _ => none
  | _ => none

/-- One operation of the device after another, whatever became of the last. -/
def script (eng : SyncEngine) : List DeviceCall → Prog Op Unit
  | [] => .done ()
  | c :: calls => ((c.run eng).run.expand fun _ e => .perform ⟨c, e⟩) >>= fun _ => script eng calls

/-- What an upsert in a batch carried, the bytes last written to its file by
recording a local change, and the file when it was sent. -/
structure Upsert where
  path : Path
  content : Option Bytes
  written : Option Bytes
  file : Option Bytes
deriving DecidableEq, Repr

structure State where
  store : MemStore
  /-- The bytes `record_upsert` last wrote. -/
  written : Path → Option Bytes
  /-- Every upsert that was sent. -/
  sent : List Upsert

/-- The bytes a change carries. -/
def contentOf (change : PushChange) : Option Bytes :=
  match change.contentBase64 with
  | some (.encode bytes) => some bytes
  | _ => none

namespace State

variable (s : State)

/-- The upserts of a batch. -/
def upserts (changes : List PushChange) : List Upsert :=
  (changes.filter fun c => !c.deleted).map fun c =>
    ⟨c.path, contentOf c, s.written c.path, s.store.files.lookup c.path⟩

/-- Note what is about to be sent. -/
def note {β : Type} : EngineReq β → State
  | .hubPush _ changes => { s with sent := s.sent ++ s.upserts changes }
  | _ => s

/-- What an operation does when it is done. -/
def took {β : Type} (op : Op β) (answers : HubAnswers) : β × State :=
  let r := MemStore.exec op.req answers s.store
  (r.1, { s with
    store := r.2
    written := op.records.elim s.written fun w => Function.update s.written w.1 (some w.2) })

end State

/-- What becomes of an operation, and what the hubs answer. -/
structure Chance where
  fate : Fate
  answers : HubAnswers

def semantics : Semantics Unit Op Chance Empty State where
  exec _ _ op o s := o.fate.deal op.req ((s.note op.req).took op o.answers) (s.note op.req)
  env a := a.elim

def start (eng : SyncEngine) (calls : List DeviceCall) : Config Unit Op Unit State :=
  ⟨fun _ => script eng calls, ⟨.empty, fun _ => none, []⟩⟩

/-- **What was sent is what was written**, and the file was there. -/
def Genuine (s : State) : Prop :=
  ∀ u ∈ s.sent, u.file.isSome ∧ u.content.isSome ∧ u.content = u.written

instance (s : State) : Decidable (Genuine s) := inferInstanceAs (Decidable (∀ u ∈ _, _))

/-- Failing here, `record_delete` leaves the file deleted and the queue as it
was. -/
def LeavesQueue {β : Type} (e : EngineReq β) (fate : Fate) : Prop :=
  match e with
  | .fileDelete _ => fate = .lost
  | .metaDelete _ => fate ≠ .done
  | .metaGet key => key = keyPending ∧ fate ≠ .done
  | .metaPut _ _ => fate = .refused
  | _ => False

instance {β : Type} (e : EngineReq β) (fate : Fate) : Decidable (LeavesQueue e fate) := by
  unfold LeavesQueue
  cases e <;> infer_instance

/-- An upsert is queued for the path. -/
def Upserts (s : MemStore) (path : Path) : Prop :=
  ∃ p ∈ s.pending, p.path = path ∧ p.deleted = false

instance (s : MemStore) (path : Path) : Decidable (Upserts s path) :=
  inferInstanceAs (Decidable (∃ p ∈ _, _))

/-- The path a delete is being recorded for. -/
def deletes : DeviceCall → Option Path
  | .record (.delete path _) => some path
  | _ => none

/-- No `record_delete` fails between its file and the queue while an upsert
is queued for the path. -/
def DeletesWhole : StepCond Unit Op Chance Empty State where
  call _ _ op o s := ∀ path ∈ deletes op.call,
    LeavesQueue op.req o.fate → ¬ Upserts s.store path
  env _ _ := True

instance {β : Type} {op : Op β} {i : Unit} {o : Chance} {s : State} :
    Decidable (DeletesWhole.call i op o s) :=
  inferInstanceAs (Decidable (∀ path ∈ deletes op.call, _))

instance (a : Empty) (s : State) : Decidable (DeletesWhole.env a s) := a.elim

variable {eng : SyncEngine} {c : DeviceCall} {s s' : State} {path : Path} {α ε : Type}
  {P B : State → Prop} {M : α → State → Prop} {content : Bytes}

/-! ## What operations leave alone -/

/-- Neither the queue nor a file is written, and nothing is sent. -/
def Steady ⦃β : Type⦄ : EngineReq β → Prop
  | .filePut .. => False
  | .fileDelete _ => False
  | .hubPush .. => False
  | e => e.KeepsQueue

theorem steady_fileMeta (path : Path) (m : FileMeta) :
    Steady (EngineReq.metaPut (fileKey path) (.fileMeta m)) := by
  have hkeep := EngineReq.keepsQueue_fileMeta path m
  exact hkeep

/-- Nothing has changed that the invariant is about. -/
structure Unmoved (s s' : State) : Prop where
  pending : s'.store.pending = s.store.pending
  files : s'.store.files = s.store.files
  written : s'.written = s.written
  sent : s'.sent = s.sent

/-- What does not change as long as nothing moves. -/
def Lasts (P : State → Prop) : Prop := ∀ ⦃s s'⦄, P s → Unmoved s s' → P s'

theorem Lasts.and {P' : State → Prop} (h : Lasts P) (h' : Lasts P') : Lasts fun s => P s ∧ P' s :=
  fun _ _ hs hu => ⟨h hs.1 hu, h' hs.2 hu⟩

theorem unmoved_of_steady {β : Type} {e : EngineReq β} (he : Steady e) (answers : HubAnswers) :
    s.note e = s ∧ Unmoved s (s.took ⟨c, e⟩ answers).2 := by
  cases e with
  | filePut path data mtime => exact he.elim
  | fileDelete path => exact he.elim
  | hubPush hub changes => exact he.elim
  | metaPut key value =>
    have hkeep : (EngineReq.metaPut key value).KeepsQueue := he
    exact ⟨rfl, MemStore.exec_pending (o := answers) hkeep, rfl, rfl, rfl⟩
  | metaDelete key =>
    have hkeep : (EngineReq.metaDelete key).KeepsQueue := he
    exact ⟨rfl, MemStore.exec_pending (o := answers) hkeep, rfl, rfl, rfl⟩
  | _ => exact ⟨rfl, rfl, rfl, rfl, rfl⟩

/-- Every queued upsert has its file, as it was recorded; those of one path
excepted. -/
structure BackedBut (but : Path → Prop) (s : State) : Prop where
  genuine : Genuine s
  queued : ∀ p ∈ s.store.pending, p.deleted = false → ¬ but p.path →
    ∃ b, s.store.files.lookup p.path = some b ∧ s.written p.path = some b

/-- Every queued upsert has its file, as it was recorded. -/
abbrev Backed : State → Prop := BackedBut fun _ => False

theorem lasts_backedBut {but : Path → Prop} : Lasts (BackedBut but) := fun s s' hs h =>
  ⟨fun u hu => hs.genuine u (h.sent ▸ hu), fun p hp hd hb => by
    rw [h.files, h.written]
    exact hs.queued p (h.pending ▸ hp) hd hb⟩

/-- What an engine's program does as part of an operation of the device. -/
abbrev OpDoes (c : DeviceCall) (P : State → Prop) (x : Engine α) (B : State → Prop)
    (M : α → State → Prop) : Prop :=
  Does semantics DeletesWhole (.solo Genuine) () (fun _ e => .perform ⟨c, e⟩) P x (Post B M)

/-- **One operation**: what it leaves when it is done, and when it fails. -/
theorem does_op {e : EngineReq (Except ε α)} {g : ε → SyncError}
    (hfail : ∃ x, e.failure = .error x) (hB : ∀ s, B s → Genuine s)
    (hM : ∀ b s, M b s → Genuine s)
    (hdone : ∀ o s, P s → (∀ b, ((s.note e).took ⟨c, e⟩ o).1 = .ok b →
      M b ((s.note e).took ⟨c, e⟩ o).2) ∧
        ∀ x, ((s.note e).took ⟨c, e⟩ o).1 = .error x → B ((s.note e).took ⟨c, e⟩ o).2)
    (hfailed : ∀ o s, P s → DeletesWhole.call () ⟨c, e⟩ o s →
      (o.fate = .refused → B (s.note e)) ∧
        (o.fate = .lost → B ((s.note e).took ⟨c, e⟩ o.answers).2)) :
    OpDoes c P (.ask g e) B M := by
  refine Does.ask_perform rfl Contract.solo_stable (fun _ => Contract.solo_stable)
    fun o s hs hcond => ?_
  obtain ⟨x, hx⟩ := hfail
  show Genuine (o.fate.deal e ((s.note e).took ⟨c, e⟩ o.answers) (s.note e)).2 ∧ _
  have hexec : semantics.exec () (⟨c, e⟩ : Op _) o s =
      o.fate.deal e ((s.note e).took ⟨c, e⟩ o.answers) (s.note e) := rfl
  rw [hexec]
  cases hfate : o.fate with
  | done =>
    obtain ⟨hok, herr⟩ := hdone o.answers s hs
    refine ⟨?_, hok, herr⟩
    cases hr : ((s.note e).took ⟨c, e⟩ o.answers).1 with
    | ok b => exact hM b _ (hok b hr)
    | error x => exact hB _ (herr x hr)
  | refused =>
    have h := (hfailed o s hs hcond).1 hfate
    exact ⟨hB _ h, fun b hb => absurd (hx.symm.trans hb) (by rintro ⟨⟩), fun _ _ => h⟩
  | lost =>
    have h := (hfailed o s hs hcond).2 hfate
    exact ⟨hB _ h, fun b hb => absurd (hx.symm.trans hb) (by rintro ⟨⟩), fun _ _ => h⟩

/-- **A steady operation** keeps what lasts, done or not. -/
theorem does_steady {e : EngineReq (Except ε α)} {g : ε → SyncError} (he : Steady e)
    (hfail : ∃ x, e.failure = .error x) (hP : Lasts P) (hPB : ∀ s, P s → B s)
    (hB : ∀ s, B s → Genuine s) (hM : ∀ b, Lasts (M b)) (hMG : ∀ b s, M b s → Genuine s)
    (hstep : ∀ o s, P s → ∀ b, (MemStore.exec e o s.store).1 = .ok b → M b s) :
    OpDoes c P (.ask g e) B M := by
  have hunmoved : ∀ s o, s.note e = s ∧ Unmoved s ((s.note e).took ⟨c, e⟩ o).2 := fun s o => by
    obtain ⟨hnote, hu⟩ := unmoved_of_steady (c := c) (s := s) he o
    exact ⟨hnote, by rw [hnote]; exact hu⟩
  refine does_op hfail hB hMG (fun o s hs => ⟨fun b hb => ?_, fun x _ => ?_⟩)
    fun o s hs _ => ⟨fun _ => ?_, fun _ => ?_⟩
  · refine hM b (hstep o s hs b ?_) (hunmoved s o).2
    rw [(hunmoved s o).1] at hb
    exact hb
  · exact hPB _ (hP hs (hunmoved s o).2)
  · rw [(hunmoved s o.answers).1]
    exact hPB _ hs
  · exact hPB _ (hP hs (hunmoved s o.answers).2)

theorem does_pure {b : α} (h : ∀ s, P s → M b s) : OpDoes c P (pure b : Engine α) B M :=
  Does.pure Contract.solo_stable h

/-- A notification. -/
theorem triple_notify (hP : Lasts P) (hG : ∀ s, P s → Genuine s) (error : SyncError) :
    Triple semantics DeletesWhole (.solo Genuine) () P
      (.perform (⟨c, .notifyError error⟩ : Op Unit)) fun _ => P :=
  Triple.perform (fun _ => Contract.solo_stable) fun o s hs _ => by
    have he : Steady (EngineReq.notifyError error) := trivial
    have hlater : P (semantics.exec () (⟨c, .notifyError error⟩ : Op Unit) o s).2 := by
      have hu := (unmoved_of_steady (c := c) (s := s) he o.answers).2
      show P (o.fate.deal _ (s.took ⟨c, .notifyError error⟩ o.answers) s).2
      rcases Fate.deal_snd o.fate (.notifyError error)
        (s.took ⟨c, .notifyError error⟩ o.answers) s with h | h
      · rw [h]
        exact hs
      · rw [h]
        exact hP hs hu
    exact ⟨hG _ hlater, hlater⟩

/-- Programs that make steady calls only. -/
theorem does_steadily {x : Engine α} (hP : Lasts P) (hG : ∀ s, P s → Genuine s)
    (hx : Fallible.All Steady x) : OpDoes c P x P fun _ => P := by
  refine Does.of_all Contract.solo_stable (fun β e he => ?_) hx
  refine Triple.perform (fun _ => Contract.solo_stable) fun o s hs _ => ?_
  obtain ⟨hnote, hu⟩ := unmoved_of_steady (c := c) (s := s) he o.answers
  have hlater : P (semantics.exec () (⟨c, e⟩ : Op β) o s).2 := by
    show P (o.fate.deal e ((s.note e).took ⟨c, e⟩ o.answers) (s.note e)).2
    rw [hnote]
    rcases Fate.deal_snd o.fate e (s.took ⟨c, e⟩ o.answers) s with h | h
    · rw [h]
      exact hs
    · rw [h]
      exact hP hs hu
  exact ⟨hG _ hlater, hlater⟩

/-- Loading the queue. -/
theorem does_loadPending (hP : Lasts P) (hPB : ∀ s, P s → B s) (hB : ∀ s, B s → Genuine s) :
    OpDoes c P SyncEngine.loadPending B fun l s => P s ∧ s.store.pending = l := by
  have hM : ∀ l, Lasts fun s => P s ∧ s.store.pending = l := fun l =>
    hP.and fun _ _ hs h => h.pending.trans hs
  unfold SyncEngine.loadPending
  refine Does.bind (fun v s => P s ∧ s.store.pending = (v.bind Blob.toQueue?).getD [])
    Contract.solo_stable
    (does_steady trivial ⟨_, rfl⟩ hP hPB hB (fun _ => hM _) (fun _ s hs => hB s (hPB s hs.1)) ?_)
    fun v => ?_
  · rintro o s hs v ⟨⟩
    exact ⟨hs, rfl⟩
  · cases v with
    | none => exact does_pure fun _ h => h
    | some bytes => exact does_pure fun _ h => h

/-! ## Recording -/

/-- The upserts that stay queued have their files; the new one's is as
`BackedBut` left it. -/
theorem backed_enqueue {change : PendingChange} {l : List PendingChange}
    (hs : BackedBut (· = change.path) s) (hl : s.store.pending = l)
    (hchange : change.deleted = false → ∃ b, s.store.files.lookup change.path = some b ∧
      s.written change.path = some b) {o : HubAnswers} :
    Backed (s.took ⟨c, .metaPut keyPending (.queue (SyncEngine.enqueue l change))⟩ o).2 := by
  refine ⟨hs.genuine, fun p hp hd _ => ?_⟩
  have hpending : (s.took ⟨c, .metaPut keyPending (.queue (SyncEngine.enqueue l change))⟩
      o).2.store.pending = SyncEngine.enqueue l change := by
    simp [State.took, MemStore.exec, MemStore.pending, Blob.toQueue?]
  rw [hpending] at hp
  rcases SyncEngine.mem_enqueue.1 hp with rfl | ⟨hp, hne⟩
  · exact hchange hd
  · exact hs.queued p (hl ▸ hp) hd hne

theorem BackedBut.mono {but but' : Path → Prop} (hs : BackedBut but s)
    (h : ∀ p, but p → but' p) : BackedBut but' s :=
  ⟨hs.genuine, fun p hp hd hb => hs.queued p hp hd fun hbut => hb (h _ hbut)⟩

/-- Where no upsert is queued for it, a path need not be excepted. -/
theorem backed_of_not_upserts (hs : BackedBut (· = path) s) (h : ¬ Upserts s.store path) :
    Backed s := by
  refine ⟨hs.genuine, fun p hp hd _ => hs.queued p hp hd ?_⟩
  rintro rfl
  exact h ⟨p, hp, rfl, hd⟩

theorem genuine_backed {but : Path → Prop} : ∀ s, BackedBut but s → Genuine s := fun _ hs =>
  hs.genuine

/-- The file of a path is the one an upsert has just recorded. -/
def Fresh (path : Path) (content : Bytes) (s : State) : Prop :=
  Backed s ∧ s.store.files.lookup path = some content ∧ s.written path = some content

theorem lasts_fresh : Lasts (Fresh path content) := fun _ _ ⟨hs, hf, hw⟩ h =>
  ⟨lasts_backedBut hs h, by rw [h.files, hf], by rw [h.written, hw]⟩

theorem does_knownRev : OpDoes c Backed (SyncEngine.knownRev path) Backed fun _ => Backed :=
  does_steadily lasts_backedBut genuine_backed
    (.bind (SyncEngine.all_store trivial) fun _ => Fallible.all_pure _)

/-- **Recording an upsert** writes the file before it queues it. -/
theorem does_recordUpsert {mtime : ℤ} {contentType : String}
    (hc : c = .record (.upsert path mtime contentType content)) :
    OpDoes c Backed (eng.recordUpsert path mtime contentType content) Backed fun _ => Backed := by
  have hfresh : ∀ s, Fresh path content s → Backed s := fun _ h => h.1
  refine SyncEngine.does_report Contract.solo_stable (fun _ => Contract.solo_stable)
    (triple_notify lasts_backedBut genuine_backed) ?_
  refine Does.bind _ Contract.solo_stable does_knownRev fun baseRev => ?_
  refine Does.bind (fun _ => Fresh path content) Contract.solo_stable ?_ fun _ => ?_
  · have hwrites : ∀ s o, Backed s →
        Fresh path content (s.took ⟨c, .filePut path content mtime⟩ o).2 := by
      intro s o hs
      subst hc
      refine ⟨⟨hs.genuine, fun p hp hd hb => ?_⟩, AList.lookup_insert _, Function.update_self ..⟩
      by_cases hpath : p.path = path
      · exact ⟨content, by rw [hpath]; exact AList.lookup_insert _,
          by rw [hpath]; exact Function.update_self ..⟩
      · obtain ⟨b, hf, hw⟩ := hs.queued p hp hd hb
        exact ⟨b, (AList.lookup_insert_ne hpath).trans hf,
          (Function.update_of_ne hpath ..).trans hw⟩
    refine does_op ⟨_, rfl⟩ genuine_backed (fun _ s h => h.1.genuine)
      (fun o s hs => ⟨fun _ _ => hwrites s o hs, fun x hx => by cases hx⟩)
      fun o s hs _ => ⟨fun _ => hs, fun _ => (hwrites s _ hs).1⟩
  refine Does.bind (fun _ => Fresh path content) Contract.solo_stable
    (does_steady (steady_fileMeta _ _) ⟨_, rfl⟩ lasts_fresh hfresh genuine_backed
      (fun _ => lasts_fresh) (fun _ s h => h.1.genuine) fun _ _ hs _ _ => hs) fun _ => ?_
  refine Does.bind _ Contract.solo_stable (does_loadPending lasts_fresh hfresh genuine_backed)
    fun l => ?_
  have hqueued : ∀ s o, Fresh path content s ∧ s.store.pending = l → Backed (s.took
      ⟨c, .metaPut keyPending (.queue (SyncEngine.enqueue l
        ⟨path, false, baseRev, mtime, some contentType⟩))⟩ o).2 := fun s o ⟨hs, hl⟩ =>
    backed_enqueue (hs.1.mono fun _ h => h.elim) hl fun _ => ⟨content, hs.2⟩
  exact does_op ⟨_, rfl⟩ genuine_backed (fun _ => genuine_backed)
    (fun o s hs => ⟨fun _ _ => hqueued s o hs, fun x hx => by cases hx⟩)
    fun o s hs _ => ⟨fun _ => hs.1.1, fun _ => hqueued s _ hs⟩

/-- **Recording a delete** takes the file away before it takes an upsert of
it out of the queue. -/
theorem does_recordDelete {mtime : ℤ} (hc : c = .record (.delete path mtime)) :
    OpDoes c Backed (eng.recordDelete path mtime) Backed fun _ => Backed := by
  have hcond : ∀ {β : Type} {e : EngineReq β} {o : Chance} {s : State},
      DeletesWhole.call () ⟨c, e⟩ o s → LeavesQueue e o.fate → ¬ Upserts s.store path := by
    intro β e o s h
    subst hc
    exact h path rfl
  have hbut : ∀ s, BackedBut (· = path) s → ∀ s', Unmoved s s' → ¬ Upserts s.store path →
      Backed s' := fun s hs s' hu hnot => lasts_backedBut (backed_of_not_upserts hs hnot) hu
  refine SyncEngine.does_report Contract.solo_stable (fun _ => Contract.solo_stable)
    (triple_notify lasts_backedBut genuine_backed) ?_
  refine Does.bind _ Contract.solo_stable does_knownRev fun baseRev => ?_
  refine Does.bind (fun _ => BackedBut (· = path)) Contract.solo_stable ?_ fun _ => ?_
  · have hgone : ∀ s o, Backed s → BackedBut (· = path) (s.took ⟨c, .fileDelete path⟩ o).2 := by
      intro s o hs
      refine ⟨hs.genuine, fun p hp hd hne => ?_⟩
      obtain ⟨b, hf, hw⟩ := hs.queued p hp hd id
      exact ⟨b, (AList.lookup_erase_ne hne).trans hf, hw⟩
    refine does_op ⟨_, rfl⟩ genuine_backed (fun _ => genuine_backed)
      (fun o s hs => ⟨fun _ _ => hgone s o hs, fun x hx => by cases hx⟩)
      fun o s hs h => ⟨fun _ => hs, fun hlost => ?_⟩
    exact backed_of_not_upserts (hgone s _ hs) (hcond h hlost)
  refine Does.bind (fun _ => BackedBut (· = path)) Contract.solo_stable ?_ fun _ => ?_
  · have hkeep : Steady (EngineReq.metaDelete (fileKey path)) := fileKey_ne_pending path
    refine does_op ⟨_, rfl⟩ genuine_backed (fun _ => genuine_backed) (fun o s hs => ⟨fun _ _ =>
      lasts_backedBut hs (unmoved_of_steady hkeep o).2, fun x hx => by cases hx⟩)
      fun o s hs h => ⟨fun hfate => ?_, fun hfate => ?_⟩
    · exact backed_of_not_upserts hs (hcond h (by simp [LeavesQueue, hfate]))
    · exact hbut s hs _ (unmoved_of_steady hkeep _).2 (hcond h (by simp [LeavesQueue, hfate]))
  refine Does.bind (fun l s => BackedBut (· = path) s ∧ s.store.pending = l) Contract.solo_stable
    ?_ fun l => ?_
  · unfold SyncEngine.loadPending
    refine Does.bind (fun v s => BackedBut (· = path) s ∧
      s.store.pending = (v.bind Blob.toQueue?).getD []) Contract.solo_stable ?_ fun v => ?_
    · refine does_op ⟨_, rfl⟩ genuine_backed (fun _ s h => h.1.genuine)
        (fun o s hs => ⟨?_, fun x hx => by cases hx⟩) fun o s hs h => ⟨fun hfate => ?_,
          fun hfate => ?_⟩
      · rintro v ⟨⟩
        exact ⟨hs, rfl⟩
      · exact backed_of_not_upserts hs (hcond h ⟨rfl, by rw [hfate]; decide⟩)
      · exact backed_of_not_upserts hs (hcond h ⟨rfl, by rw [hfate]; decide⟩)
    · cases v with
      | none => exact does_pure fun _ h => h
      | some bytes => exact does_pure fun _ h => h
  have hqueued : ∀ s o, BackedBut (· = path) s ∧ s.store.pending = l → Backed (s.took
      ⟨c, .metaPut keyPending (.queue (SyncEngine.enqueue l ⟨path, true, baseRev, mtime, none⟩))⟩
        o).2 := fun s o ⟨hs, hl⟩ => backed_enqueue hs hl (by rintro ⟨⟩)
  exact does_op ⟨_, rfl⟩ genuine_backed (fun _ => genuine_backed)
    (fun o s hs => ⟨fun _ _ => hqueued s o hs, fun x hx => by cases hx⟩)
    fun o s hs h => ⟨fun hfate => backed_of_not_upserts hs.1 (hcond h hfate),
      fun _ => hqueued s _ hs⟩

/-! ## Pushing -/

/-- Every upsert of the batch carries its file. -/
def Carried (changes : List PushChange) (s : State) : Prop :=
  ∀ change ∈ changes, change.deleted = false → ∃ b, contentOf change = some b ∧
    s.store.files.lookup change.path = some b ∧ s.written change.path = some b

theorem lasts_carried {changes : List PushChange} : Lasts (Carried changes) :=
  fun s s' hs h change hc hd => by
    rw [h.files, h.written]
    exact hs change hc hd

/-- What is ready to be sent. -/
def Ready (changes : List PushChange) (s : State) : Prop := Backed s ∧ Carried changes s

theorem lasts_ready {changes : List PushChange} : Lasts (Ready changes) :=
  lasts_backedBut.and lasts_carried

/-- One queued change, whatever else lasts. -/
theorem does_buildPushChange {pending : List PendingChange} {p : PendingChange} {R : State → Prop}
    (hp : p ∈ pending) (hR : Lasts R) :
    OpDoes c (fun s => (Backed s ∧ s.store.pending = pending) ∧ R s) (SyncEngine.buildPushChange p)
      Backed fun change s =>
        (Backed s ∧ s.store.pending = pending) ∧ R s ∧ Carried [change] s := by
  have hbase : Lasts fun s => (Backed s ∧ s.store.pending = pending) ∧ R s :=
    (lasts_backedBut.and fun _ _ hs h => h.pending.trans hs).and hR
  unfold SyncEngine.buildPushChange
  split
  · rename_i hdel
    refine does_pure fun s hs => ⟨hs.1, hs.2, fun change hc hd => ?_⟩
    obtain rfl := List.mem_singleton.1 hc
    cases hd
  rename_i hdel
  -- what is read is the file the queued upsert has
  have hread : ∀ v : Option Bytes, Lasts fun s => ((Backed s ∧ s.store.pending = pending) ∧ R s) ∧
      ∃ b, v = some b ∧ s.store.files.lookup p.path = some b ∧ s.written p.path = some b :=
    fun v => hbase.and fun s s' ⟨b, hv, hf, hw⟩ h => ⟨b, hv, by rw [h.files, hf], by rw [h.written, hw]⟩
  refine Does.bind (fun v s => ((Backed s ∧ s.store.pending = pending) ∧ R s) ∧
      ∃ b, v = some b ∧ s.store.files.lookup p.path = some b ∧ s.written p.path = some b)
    Contract.solo_stable (does_steady trivial ⟨_, rfl⟩ hbase (fun _ h => h.1.1) genuine_backed hread
      (fun _ s h => h.1.1.1.genuine) ?_) fun v => ?_
  · rintro o s hs v ⟨⟩
    obtain ⟨b, hf, hw⟩ := hs.1.1.queued p (hs.1.2 ▸ hp) (by simpa using hdel) id
    exact ⟨hs, b, hf, hf, hw⟩
  refine Does.bind (fun _ s => ((Backed s ∧ s.store.pending = pending) ∧ R s) ∧
      ∃ b, v = some b ∧ s.store.files.lookup p.path = some b ∧ s.written p.path = some b)
    Contract.solo_stable (does_steady trivial ⟨_, rfl⟩ (hread v) (fun _ h => h.1.1.1) genuine_backed
      (fun _ => hread v) (fun _ s h => h.1.1.1.genuine) fun _ _ hs _ _ => hs) fun stored => ?_
  refine does_pure fun s ⟨hs, b, hv, hf, hw⟩ => ⟨hs.1, hs.2, fun change hc _ => ?_⟩
  obtain rfl := List.mem_singleton.1 hc
  exact ⟨b, by rw [hv]; rfl, hf, hw⟩

theorem does_buildPushChanges {pending : List PendingChange} (ps : List PendingChange)
    {R : State → Prop} (hps : ∀ p ∈ ps, p ∈ pending) (hR : Lasts R) :
    OpDoes c (fun s => (Backed s ∧ s.store.pending = pending) ∧ R s)
      (SyncEngine.buildPushChanges ps) Backed fun changes s =>
        (Backed s ∧ s.store.pending = pending) ∧ R s ∧ Carried changes s := by
  induction ps generalizing R with
  | nil => exact does_pure fun s hs => ⟨hs.1, hs.2, fun change hc => by cases hc⟩
  | cons p ps ih =>
    refine Does.bind _ Contract.solo_stable (does_buildPushChange (hps p List.mem_cons_self) hR)
      fun change => ?_
    refine Does.bind _ Contract.solo_stable (ih (fun q hq => hps q (List.mem_cons_of_mem _ hq))
      (hR.and lasts_carried)) fun changes => does_pure fun s ⟨hs, ⟨hr, hone⟩, hrest⟩ =>
        ⟨hs, hr, fun ch hc hd => ?_⟩
    rcases List.mem_cons.1 hc with rfl | hc
    exacts [hone _ List.mem_cons_self hd, hrest ch hc hd]

/-- **Sending a batch that is ready.** -/
theorem does_hubPush {changes : List PushChange} (hub : HubId) :
    OpDoes c (Ready changes) (SyncEngine.ask (.hubPush hub changes)) (Ready changes)
      fun _ => Ready changes := by
  have hsent : ∀ s, Ready changes s → Ready changes (s.note (.hubPush hub changes)) := by
    intro s hs
    refine ⟨⟨fun u hu => ?_, hs.1.queued⟩, hs.2⟩
    rcases List.mem_append.1 hu with hu | hu
    · exact hs.1.genuine u hu
    · obtain ⟨change, hc, rfl⟩ := List.mem_map.1 hu
      obtain ⟨hc, hd⟩ := List.mem_filter.1 hc
      obtain ⟨b, hb, hf, hw⟩ := hs.2 change hc (by simpa using hd)
      exact ⟨by simp [hf], by simp [hb], by simp [hb, hw]⟩
  exact does_op ⟨_, rfl⟩ (fun s h => h.1.genuine) (fun _ s h => h.1.genuine)
    (fun o s hs => ⟨fun _ _ => hsent s hs, fun _ _ => hsent s hs⟩)
    fun o s hs _ => ⟨fun _ => hsent s hs, fun _ => hsent s hs⟩

theorem does_pushTo {pending : List PendingChange} {changes : List PushChange} (hub : HubId) :
    OpDoes c (Ready changes) (SyncEngine.pushTo pending changes hub) (Ready changes)
      fun _ => Ready changes := by
  refine Does.bind _ Contract.solo_stable (does_hubPush hub) fun results => ?_
  refine Does.bind _ Contract.solo_stable (does_steadily lasts_ready (fun s h => h.1.genuine)
    (SyncEngine.all_bumpRevs (fun _ => trivial) steady_fileMeta _ _)) fun pushed => ?_
  dsimp only
  split
  · have hempty : ∀ s o, Ready changes s →
        Ready changes (s.took ⟨c, .metaPut keyPending (.queue [])⟩ o).2 := by
      refine fun s o hs => ⟨⟨hs.1.genuine, fun p hp => ?_⟩, hs.2⟩
      have hpending : (s.took ⟨c, .metaPut keyPending (.queue [])⟩ o).2.store.pending = [] := by
        simp [State.took, MemStore.exec, MemStore.pending, Blob.toQueue?]
      rw [hpending] at hp
      cases hp
    refine Does.bind (fun _ => Ready changes) Contract.solo_stable
      (does_op ⟨_, rfl⟩ (fun s h => h.1.genuine) (fun _ s h => h.1.genuine)
        (fun o s hs => ⟨fun _ _ => hempty s o hs, fun x hx => by cases hx⟩)
        fun o s hs _ => ⟨fun _ => hs, fun _ => hempty s _ hs⟩) fun _ => does_pure fun _ h => h
  · exact does_pure fun _ h => h

/-- **A push** sends what is queued as it was recorded. -/
theorem does_push : OpDoes c Backed eng.push Backed fun _ => Backed := by
  have hnotify := fun e => triple_notify (c := c) (P := Backed) lasts_backedBut genuine_backed e
  refine Does.bind _ Contract.solo_stable (SyncEngine.does_report Contract.solo_stable
    (fun _ => Contract.solo_stable) hnotify
      (does_loadPending lasts_backedBut (fun _ h => h) genuine_backed)) fun pending => ?_
  split
  · exact does_pure fun s hs => hs.1
  refine Does.bind (fun changes => Ready changes) Contract.solo_stable
    (SyncEngine.does_report Contract.solo_stable (fun _ => Contract.solo_stable) hnotify ?_)
    fun changes => ?_
  · have hbuild : OpDoes c (fun s => (Backed s ∧ s.store.pending = pending) ∧ True)
        (SyncEngine.buildPushChanges pending) Backed fun changes s =>
          (Backed s ∧ s.store.pending = pending) ∧ True ∧ Carried changes s :=
      does_buildPushChanges pending (fun _ h => h) fun _ _ _ _ => trivial
    exact Does.mono (hbuild.pre fun s hs => ⟨hs, trivial⟩) (fun _ h => h) fun changes s hs =>
      ⟨hs.1.1, hs.2.2⟩
  · exact Does.mono (SyncEngine.does_failover Contract.solo_stable (fun _ => Contract.solo_stable)
      (triple_notify lasts_ready fun s h => h.1.genuine) (fun hub => does_pushTo hub) _ _)
      (fun s h => h.1) fun _ s h => h.1

/-! ## Pulling -/

theorem does_applyRemote (hub : HubId) (entry : ChangeEntry) (rep : PullReport) :
    OpDoes c Backed (SyncEngine.applyRemote hub entry rep) Backed fun _ => Backed := by
  have hnot : Lasts fun s => Backed s ∧ ∀ p ∈ s.store.pending, p.path ≠ entry.path :=
    lasts_backedBut.and fun s s' hs h => by rw [h.pending]; exact hs
  have hcontains : OpDoes c Backed (SyncEngine.pendingContains entry.path) Backed fun b s =>
      Backed s ∧ (b = false → ∀ p ∈ s.store.pending, p.path ≠ entry.path) := by
    refine Does.bind _ Contract.solo_stable
      (does_loadPending lasts_backedBut (fun _ h => h) genuine_backed) fun l =>
        does_pure fun s ⟨hs, hl⟩ => ⟨hs, fun hb p hp hpath => ?_⟩
    have hany : (l.any fun p => p.path = entry.path) = true :=
      List.any_eq_true.2 ⟨p, hl ▸ hp, by simpa using hpath⟩
    rw [hany] at hb
    cases hb
  refine Does.bind _ Contract.solo_stable hcontains fun queued => ?_
  split
  · exact does_pure fun s hs => hs.1
  rename_i hqueued
  refine Does.pre (P := fun s => Backed s ∧ ∀ p ∈ s.store.pending, p.path ≠ entry.path) ?_
    fun s hs => ⟨hs.1, hs.2 (by simpa using hqueued)⟩
  -- a file nothing is queued for may go or change
  have hother : ∀ s, (Backed s ∧ ∀ p ∈ s.store.pending, p.path ≠ entry.path) →
      ∀ s' : State, s'.store.pending = s.store.pending → s'.sent = s.sent →
        (∀ p, p ≠ entry.path → s'.store.files.lookup p = s.store.files.lookup p ∧
          s'.written p = s.written p) → Backed s' := by
    intro s ⟨hs, hq⟩ s' hp hsent hfiles
    refine ⟨fun u hu => hs.genuine u (hsent ▸ hu), fun p hmem hd hb => ?_⟩
    rw [hp] at hmem
    obtain ⟨hf, hw⟩ := hfiles p.path (hq p hmem)
    rw [hf, hw]
    exact hs.queued p hmem hd hb
  split
  · have hgone : ∀ s o, (Backed s ∧ ∀ p ∈ s.store.pending, p.path ≠ entry.path) →
        Backed (s.took ⟨c, .fileDelete entry.path⟩ o).2 := fun s o hs =>
      hother s hs _ rfl rfl fun p hne => ⟨AList.lookup_erase_ne hne, rfl⟩
    refine Does.bind (fun _ => Backed) Contract.solo_stable (does_op ⟨_, rfl⟩ genuine_backed
      (fun _ => genuine_backed) (fun o s hs => ⟨fun _ _ => hgone s o hs, fun x hx => by cases hx⟩)
      fun o s hs _ => ⟨fun _ => hs.1, fun _ => hgone s _ hs⟩) fun _ => ?_
    have hmeta : Steady (EngineReq.metaDelete (fileKey entry.path)) := fileKey_ne_pending _
    exact Does.bind _ Contract.solo_stable (does_steadily lasts_backedBut genuine_backed
      (SyncEngine.all_store hmeta)) fun _ => does_pure fun _ h => h
  · refine Does.bind (fun _ s => Backed s ∧ ∀ p ∈ s.store.pending, p.path ≠ entry.path)
      Contract.solo_stable (Does.mono (does_steadily hnot (fun s h => h.1.genuine)
        (SyncEngine.all_ask trivial)) (fun s h => h.1) fun _ _ h => h) fun file => ?_
    cases file with
    | none => exact Does.throw Contract.solo_stable fun s h => h.1
    | some file =>
      have hput : ∀ s o, (Backed s ∧ ∀ p ∈ s.store.pending, p.path ≠ entry.path) →
          Backed (s.took ⟨c, .filePut entry.path file.content file.mtime⟩ o).2 := by
        intro s o hs
        refine hother s hs _ rfl rfl fun p hne => ⟨AList.lookup_insert_ne hne, ?_⟩
        unfold State.took Op.records
        dsimp only
        split <;> simp [Function.update_of_ne hne]
      refine Does.bind (fun _ => Backed) Contract.solo_stable (does_op ⟨_, rfl⟩ genuine_backed
        (fun _ => genuine_backed) (fun o s hs => ⟨fun _ _ => hput s o hs, fun x hx => by cases hx⟩)
        fun o s hs _ => ⟨fun _ => hs.1, fun _ => hput s _ hs⟩) fun _ => ?_
      exact Does.bind _ Contract.solo_stable (does_steadily lasts_backedBut genuine_backed
        (SyncEngine.all_store (steady_fileMeta _ _))) fun _ => does_pure fun _ h => h

/-- **A pull** writes no file something is queued for. -/
theorem does_pull : OpDoes c Backed eng.pull Backed fun _ => Backed := by
  have hall : ∀ hub entries rep,
      OpDoes c Backed (SyncEngine.applyAll hub entries rep) Backed fun _ => Backed := by
    intro hub entries
    induction entries with
    | nil => exact fun rep => does_pure fun _ h => h
    | cons entry entries ih =>
      intro rep
      exact Does.bind _ Contract.solo_stable (does_applyRemote hub entry rep) ih
  refine SyncEngine.does_failover Contract.solo_stable (fun _ => Contract.solo_stable)
    (triple_notify lasts_backedBut genuine_backed) (fun hub => ?_) _ _
  have hcheckpoint : ∀ token : Checkpoint,
      Steady (.metaPut (checkpointKey hub) (.checkpoint token)) := fun token => by
    have hkeep := EngineReq.keepsQueue_checkpoint hub token
    exact hkeep
  refine Does.bind _ Contract.solo_stable (does_steadily lasts_backedBut genuine_backed
    (SyncEngine.all_store trivial)) fun since => ?_
  refine Does.bind _ Contract.solo_stable (does_steadily lasts_backedBut genuine_backed
    (SyncEngine.all_ask trivial)) fun resp => ?_
  refine Does.bind _ Contract.solo_stable (hall hub _ _) fun rep => ?_
  exact Does.bind _ Contract.solo_stable (does_steadily lasts_backedBut genuine_backed
    (SyncEngine.all_store (hcheckpoint _))) fun _ => does_pure fun _ h => h

/-! ## Operations one after another -/

theorem does_run : OpDoes c Backed (c.run eng) Backed fun _ => Backed := by
  cases c with
  | record call =>
    cases call with
    | upsert path mtime contentType content => exact does_recordUpsert rfl
    | delete path mtime => exact does_recordDelete rfl
  | push => exact Does.bind _ Contract.solo_stable does_push fun _ => does_pure fun _ h => h
  | pull => exact Does.bind _ Contract.solo_stable does_pull fun _ => does_pure fun _ h => h
  | sync =>
    have hsync : OpDoes .sync Backed eng.sync Backed fun _ => Backed :=
      Does.bind _ Contract.solo_stable does_push fun _ =>
        Does.bind _ Contract.solo_stable does_pull fun _ => does_pure fun _ h => h
    exact Does.bind _ Contract.solo_stable hsync fun _ => does_pure fun _ h => h

theorem triple_script (calls : List DeviceCall) :
    Triple semantics DeletesWhole (.solo Genuine) () Backed (script eng calls) fun _ => Backed := by
  induction calls with
  | nil => exact Triple.done Contract.solo_stable fun _ h => h
  | cons c calls ih =>
    exact Triple.bind (fun _ => Backed) (Triple.post does_run fun r s hs => by
      cases r <;> exact hs) fun _ => ih

/-- **A push never sends invented content** in a run whose deletes do not
fail half-way on a path with a queued upsert: every upsert that was sent
carried the bytes last recorded for its path, and the file was there. -/
theorem sent_is_written (eng : SyncEngine) (calls : List DeviceCall)
    (ms : List (Move Unit Chance Empty))
    (h : (start eng calls).Meets semantics DeletesWhole ms) :
    Genuine ((start eng calls).runs semantics ms).state := by
  have hempty : Backed (start eng calls).state :=
    ⟨fun u hu => absurd hu List.not_mem_nil, fun p hp => absurd hp List.not_mem_nil⟩
  exact PoolSafe.solo_invariant (triple_script calls) hempty hempty.genuine h

/-! ## A delete that fails half-way -/

/-- A file is recorded, then its deletion, then the queue is pushed. -/
def recordDeletePush : Config Unit Op Unit State :=
  start (oneHub true) [.record (.upsert "a" 5 octetStream [1]), .record (.delete "a" 6), .push]

/-- The operation after the first `n` is refused. -/
def refusing (n : ℕ) : List (Move Unit Chance Empty) :=
  List.replicate n (.run () ⟨.done, .unreachable⟩) ++ .run () ⟨.refused, .unreachable⟩ ::
    List.replicate 12 (.run () ⟨.done, .unreachable⟩)

/-- **A deletion that stops before the metadata is pushed as an empty
file.** -/
theorem deleted_file_sent_as_empty :
    let c := recordDeletePush.runs semantics (refusing 7)
    c.state.sent = [⟨"a", some [], some [1], none⟩] ∧ ¬ Genuine c.state := by
  decide +kernel

/-- One that stops before the file is not. -/
theorem deletion_refused_sent_as_written :
    Genuine (recordDeletePush.runs semantics (refusing 6)).state :=
  sent_is_written (oneHub true)
    [.record (.upsert "a" 5 octetStream [1]), .record (.delete "a" 6), .push] (refusing 6)
    (by decide +kernel)

end InventedContent

end FileSync
