import FileSync.Client.UserWrites
/-!
# A pass over the watched file

The watched file through each part of a pass: what the part may find it in
and what it leaves it in. Recording secures what it has read, a push empties
the queue only of what it has sent, and a pull leaves alone what is queued.
-/

namespace FileSync

namespace UserWrites

open Desktop

variable {eng : SyncEngine} {mimeOf : Path → String} {q : Place} {s s' : State} {o : HubAnswers}
  {path : Path} {c : Bytes} {m : ℤ} {seen files : List (Path × ℤ)} {α : Type}
  {P B : State → Prop} {M : α → State → Prop}

/-- What part of the desktop client does to the watched file. -/
abbrev DesktopDoes (q : Place) (P : State → Prop) (x : DesktopM α)
    (Q : Except DesktopError α → State → Prop) : Prop :=
  Does (semantics q) (Respected q) (contract q) () (fun _ e => .perform e) P x Q

/-- What part of its engine does. -/
abbrev EngineDoes (q : Place) (P : State → Prop) (x : Engine α)
    (Q : Except SyncError α → State → Prop) : Prop :=
  Does (semantics q) (Respected q) (contract q) () (fun _ e => .perform (inEngine e)) P x Q

/-- No quiet call and no action of the user undoes it. -/
def Lasting (q : Place) (P : State → Prop) : Prop := ∀ ⦃s s'⦄, P s → Later q s s' → P s'

theorem Lasting.stable (hP : Lasting q P) : (contract q).Stable () P := fun _ _ hs h => hP hs h.2

theorem Lasting.and {P' : State → Prop} (hP : Lasting q P) (hP' : Lasting q P') :
    Lasting q fun s => P s ∧ P' s := fun _ _ hs h => ⟨hP hs.1 h, hP' hs.2 h⟩

theorem lasting_secured : Lasting q (Secured q) := fun _ _ hs h => hs.later h

theorem lasting_held : Lasting q (Held q) := fun _ _ hs h => hs.later h

theorem lasting_allUnread : Lasting q (AllUnread q) := fun _ _ hs h => hs.later h

theorem lasting_hasRead {φ : Bytes → Prop} : Lasting q (HasRead q φ) := fun _ _ hs h => hs.later h

theorem lasting_readForGood : Lasting q ReadForGood := fun _ _ hs h => hs.later h

theorem lasting_pending {l : List PendingChange} : Lasting q fun s => s.desk.pending = l :=
  fun _ _ hs h => h.pending.trans hs

/-! ## Calls -/

/-- A quiet call keeps what lasts. -/
theorem triple_quiet {β : Type} {e : EngineReq β} (hP : Lasting q P) (hheld : ∀ s, P s → Held q s)
    (he : Quiet q e) :
    Triple (semantics q) (Respected q) (contract q) () P (.perform (inEngine e)) fun _ => P :=
  Triple.perform (fun _ => hP.stable) fun o s hs hcond => by
    have hlater : P ((semantics q).exec () (inEngine e) o s).2 := hP hs (later_of_quiet he hcond)
    exact ⟨(hheld _ hlater).kept, hlater⟩

/-- **And so do programs that make no others.** -/
theorem does_quiet {x : Engine α} (hP : Lasting q P) (hheld : ∀ s, P s → Held q s)
    (hx : Fallible.All (Quiet q) x) : EngineDoes q P x (Post P fun _ => P) :=
  Does.of_all hP.stable (fun _ _ he => triple_quiet hP hheld he) hx

/-- A quiet call that answers without a failure. -/
theorem does_store {e : EngineReq (Except StoreError α)} (hP : Lasting q P)
    (hheld : ∀ s, P s → Held q s) (he : Quiet q e) (hM : ∀ a, (contract q).Stable () (M a))
    (hB : (contract q).Stable () B)
    (hstep : ∀ o s, P s → P ((semantics q).exec () (inEngine e) o s).2 →
      ∃ a, ((semantics q).exec () (inEngine e) o s).1 = .ok a ∧
        M a ((semantics q).exec () (inEngine e) o s).2) :
    EngineDoes q P (SyncEngine.store e) (Post B M) := by
  refine Does.ask_perform rfl hB hM fun o s hs hcond => ?_
  have hlater : P ((semantics q).exec () (inEngine e) o s).2 := hP hs (later_of_quiet he hcond)
  obtain ⟨a, ha, hMa⟩ := hstep o s hs hlater
  refine ⟨(hheld _ hlater).kept, fun b hb => ?_, fun x hx => ?_⟩
  · obtain rfl := Except.ok.inj (ha.symm.trans hb)
    exact hMa
  · exact absurd (ha.symm.trans hx) (by rintro ⟨⟩)

/-- Loading the queue. -/
theorem does_loadPending (hP : Lasting q P) (hheld : ∀ s, P s → Held q s)
    (hB : (contract q).Stable () B) :
    EngineDoes q P SyncEngine.loadPending (Post B fun l s => P s ∧ s.desk.pending = l) := by
  have hst : ∀ l, (contract q).Stable () fun s => P s ∧ s.desk.pending = l := fun l =>
    (hP.and lasting_pending).stable
  unfold SyncEngine.loadPending
  refine Does.bind (fun v s => P s ∧ s.desk.pending = (v.bind Blob.toQueue?).getD []) hB
    (does_store hP hheld trivial (fun v => hst _) hB fun o s _ hs' => ⟨_, rfl, hs', ?_⟩) fun v => ?_
  · rw [exec_eq rfl (by rintro ⟨⟩) rfl]
    rfl
  · cases v with
    | none => exact Does.pure (hst _) fun s hs => hs
    | some bytes => exact Does.pure (hst _) fun s hs => hs

/-- The state with another queue. -/
def State.withQueue (s : State) (l : List PendingChange) : State :=
  { s with desk := { s.desk with blobs := s.desk.blobs.insert keyPending (.queue l) } }

@[simp] theorem pending_withQueue (l : List PendingChange) :
    (s.withQueue l).desk.pending = l := by
  simp [State.withQueue, pending, Blob.toQueue?]

theorem held_withQueue (h : Held q s) (l : List PendingChange) : Held q (s.withQueue l) where
  scanned := h.scanned
  wellFormed := h.wellFormed
  inside := h.inside
  bytes c m hl hs := by
    have htime : (s.withQueue l).desk.knownTime (Disk.relPath q) =
        s.desk.knownTime (Disk.relPath q) := by
      simp [State.withQueue, knownTime, fileMeta?]
    rw [htime]
    exact h.bytes c m hl hs

/-- **Queueing a change.** -/
theorem does_upsertPending {M : State → Prop} (change : PendingChange) (hP : Lasting q P)
    (hheld : ∀ s, P s → Held q s) (hB : (contract q).Stable () B) (hM : (contract q).Stable () M)
    (hstep : ∀ s, P s → M (s.withQueue (SyncEngine.enqueue s.desk.pending change))) :
    EngineDoes q P (SyncEngine.upsertPending change) (Post B fun _ => M) := by
  refine Does.bind _ hB (does_loadPending hP hheld hB) fun l => ?_
  refine Does.ask_perform rfl hB (fun _ => hM) fun o s ⟨hs, hl⟩ _ => ?_
  have hexec : ((semantics q).exec () (inEngine (.metaPut keyPending
      (.queue (SyncEngine.enqueue l change)))) o s).2 =
        s.withQueue (SyncEngine.enqueue s.desk.pending change) := by
    rw [exec_eq rfl (by rintro ⟨⟩) rfl, hl]
    rfl
  refine ⟨?_, fun _ _ => ?_, fun x hx => ?_⟩
  · exact hexec ▸ (held_withQueue (hheld s hs) _).kept
  · exact hexec ▸ hstep s hs
  · cases hx

/-- A queue with one more change keeps the watched file's. -/
theorem secured_enqueue {change : PendingChange} (hs : Secured q s)
    (hpath : change.path ≠ Disk.relPath q) :
    Secured q (s.withQueue (SyncEngine.enqueue s.desk.pending change)) where
  toHeld := held_withQueue hs.toHeld _
  queued c m hl hsent := (hs.queued c m hl hsent).imp_right fun ⟨e, he, hp, hd⟩ =>
    ⟨e, by
      rw [pending_withQueue]
      exact SyncEngine.mem_enqueue.2 (.inr ⟨he, fun h => hpath (h.symm.trans hp)⟩), hp, hd⟩

/-! ## Recording -/

/-- Reporting a failure is quiet. -/
theorem does_report {x : Engine α} (hB : Lasting q B) (hheld : ∀ s, B s → Held q s)
    (hM : ∀ a, (contract q).Stable () (M a)) (hx : EngineDoes q P x (Post B M)) :
    EngineDoes q P (eng.report x) (Post B M) :=
  SyncEngine.does_report hB.stable hM
    (fun e => triple_quiet (e := .notifyError e) hB hheld trivial) hx

/-- **Recording another path** keeps the watched file secured, and what
lasts. -/
theorem does_record_other {P : State → Prop} (call : LocalCall)
    (hpath : call.path ≠ Disk.relPath q)
    (hP : Lasting q P) (hsec : ∀ s, P s → Secured q s)
    (hqueue : ∀ s l, P s → Secured q (s.withQueue l) → P (s.withQueue l)) :
    EngineDoes q P (call.record eng) (Post (Secured q) fun _ => P) := by
  have hheld : ∀ s, P s → Held q s := fun s hs => (hsec s hs).toHeld
  rw [LocalCall.record_eq]
  refine does_report lasting_secured (fun _ h => h.toHeld) (fun _ => hP.stable) ?_
  have hquiet : Fallible.All (Quiet q) (SyncEngine.knownRev call.path) :=
    .bind (SyncEngine.all_store trivial) fun _ => Fallible.all_pure _
  refine Does.bind _ lasting_secured.stable
    (Does.mono (does_quiet hP hheld hquiet) hsec fun _ _ h => h) fun baseRev => ?_
  have happly : Fallible.All (Quiet q) (call.apply baseRev) := by
    cases call with
    | upsert path mtime contentType content =>
      exact .bind (SyncEngine.all_store hpath) fun _ =>
        SyncEngine.all_store ⟨fileKey_ne_pending path, fun _ _ => ⟨_, rfl⟩⟩
    | delete path mtime =>
      exact .bind (SyncEngine.all_store hpath) fun _ =>
        SyncEngine.all_store (fileKey_ne_pending path)
  refine Does.bind _ lasting_secured.stable
    (Does.mono (does_quiet hP hheld happly) hsec fun _ _ h => h) fun _ => ?_
  refine does_upsertPending _ hP hheld lasting_secured.stable hP.stable fun s hs => ?_
  exact hqueue s _ hs (secured_enqueue (hsec s hs) ((LocalCall.change_path _ _).trans_ne hpath))

/-- Nothing is owed: the user's bytes are gone by the user's own hand, or
were sent. -/
def NothingOwed (q : Place) (s : State) : Prop := Owes q s fun _ _ => False

theorem NothingOwed.secured (h : NothingOwed q s) (hscans : 1 ≤ s.scans)
    (hd : s.desk.disk.WellFormed) : Secured q s :=
  ⟨⟨hscans, hd, fun c m hl hs => (h c m hl hs).elim, fun c m hl hs => (h c m hl hs).elim⟩,
    fun c m hl hs => (h c m hl hs).elim⟩

/-- The watched file, when it is owed, is where its path points. -/
theorem Held.pathFor (h : Held q s) (hl : s.last = some (c, m)) (hs : ¬ Sent q s c) :
    FsFileStore.pathFor (Disk.relPath q) = .ok ⟨q, false⟩ ∧
      ∃ t, s.desk.disk.fileAt q = some (c, t) := by
  obtain ⟨⟨c', t⟩, hfile, hc⟩ := Option.map_eq_some_iff.1 (h.bytes c m hl hs).1
  obtain rfl : c' = c := hc
  exact ⟨h.wellFormed.pathFor_relPath (Disk.fileAt_eq_some.1 hfile) (h.inside _ m hl hs), t, hfile⟩

/-- **When the client may touch the watched file**, it has read what is
owed. -/
theorem read_of_touch {e : DesktopReq α} (hcond : (Respected q).call () e o s)
    (hw : writesFile e = some (Disk.relPath q)) (h : Held q s) (hl : s.last = some (c, m))
    (hs : ¬ Sent q s c) : s.desk.disk.shows q = true ∧ (s.scans ≤ 1 → s.unread = false) := by
  obtain ⟨-, t, hfile⟩ := h.pathFor hl hs
  exact (hcond.1 _ hw (FsFileStore.leads_relPath h.wellFormed (Disk.fileAt_eq_some.1 hfile)
    (h.inside c m hl hs))).2

theorem does_knownRev (hP : Lasting q P) (hheld : ∀ s, P s → Held q s)
    (hB : (contract q).Stable () B) :
    EngineDoes q P (SyncEngine.knownRev path) (Post B fun _ => P) := by
  have hstore : EngineDoes q P (SyncEngine.store (.metaGet (fileKey path)))
      (Post B fun _ => P) :=
    does_store hP hheld trivial (fun _ => hP.stable) hB fun o s _ hs' => ⟨_, rfl, hs'⟩
  exact Does.bind _ hB hstore fun v => Does.pure hP.stable fun s hs => hs

/-- **Recording the watched file** secures what was read of it. -/
theorem does_record_watched {mtime : ℤ} {contentType : String} {x : Bytes} :
    EngineDoes q (fun s => Held q s ∧ HasRead q (· = x) s ∧ ReadForGood s)
      (eng.recordUpsert (Disk.relPath q) mtime contentType x)
      (Post (Secured q) fun _ s => Secured q s ∧ ReadForGood s) := by
  have hread : Lasting q fun s => Held q s ∧ HasRead q (· = x) s ∧ ReadForGood s :=
    lasting_held.and (lasting_hasRead.and lasting_readForGood)
  have hput : Lasting q fun s => Held q s ∧ ReadForGood s := lasting_held.and lasting_readForGood
  have hdone : Lasting q fun s => Secured q s ∧ ReadForGood s :=
    lasting_secured.and lasting_readForGood
  refine does_report lasting_secured (fun _ h => h.toHeld) (fun _ => hdone.stable) ?_
  refine Does.bind _ lasting_secured.stable
    (does_knownRev hread (fun _ h => h.1) lasting_secured.stable) fun baseRev => ?_
  refine Does.bind (fun _ s => Held q s ∧ ReadForGood s) lasting_secured.stable ?_
    fun _ => ?_
  · refine Does.ask_perform rfl lasting_secured.stable (fun _ => hput.stable)
      fun o s ⟨hheld, hx, hgood⟩ hcond => ?_
    have hexec : ((semantics q).exec () (inEngine (.filePut (Disk.relPath q) x mtime)) o s).2 =
        { s with desk := (Desktop.exec (inEngine (.filePut (Disk.relPath q) x mtime)) o s.desk).2 } :=
      exec_eq rfl (by rintro ⟨⟩) rfl
    -- what is still owed was read since the user wrote it, so the file is put as it is
    have howed : ∀ c m, s.last = some (c, m) → ¬ Sent q s c → c = x ∧ s.unread = false ∧
        (FsFileStore.put s.desk.disk s.desk.now (Disk.relPath q) x mtime).1 = .ok () ∧
        ((FsFileStore.put s.desk.disk s.desk.now (Disk.relPath q) x mtime).2.fileAt q).map
          Prod.fst = some x := by
      intro c m hl hs
      obtain ⟨-, hfirst⟩ := read_of_touch (o := o) hcond rfl hheld hl hs
      have hunread : s.unread = false := by
        by_cases h1 : s.scans ≤ 1
        · exact hfirst h1
        · exact hgood (by omega)
      obtain ⟨-, t, hfile⟩ := hheld.pathFor hl hs
      have hin := hheld.inside c m hl hs
      refine ⟨(hx c m hl hs).resolve_left (by simp [hunread]), hunread,
        FsFileStore.put_existing hheld.wellFormed hfile hin _ _ x, ?_⟩
      rw [FsFileStore.fileAt_put_existing hheld.wellFormed hfile hin _ _ x]
      rfl
    have hheld' : Held q ((semantics q).exec ()
        (inEngine (.filePut (Disk.relPath q) x mtime)) o s).2 := by
      rw [hexec]
      refine ⟨hheld.scanned, FsFileStore.wellFormed_put hheld.wellFormed, hheld.inside,
        fun c m hl hs => ?_⟩
      obtain ⟨rfl, hunread, -, hbytes⟩ := howed c m hl hs
      exact ⟨hbytes, fun hu => by rw [hunread] at hu; cases hu⟩
    refine ⟨hheld'.kept, fun _ _ => ⟨hheld', hexec ▸ hgood⟩, fun e he => ?_⟩
    refine NothingOwed.secured (fun c m hl hs => ?_) hheld'.scanned hheld'.wellFormed
    rw [hexec] at hl hs
    exact absurd ((howed c m hl hs).2.2.1.symm.trans he) (by rintro ⟨⟩)
  refine Does.bind (fun _ s => Held q s ∧ ReadForGood s) lasting_secured.stable
    (does_store hput (fun _ h => h.1) ⟨fileKey_ne_pending _, fun _ _ => ⟨_, rfl⟩⟩
      (fun _ => hput.stable) lasting_secured.stable fun o s _ hs' => ⟨_, rfl, hs'⟩) fun _ => ?_
  refine does_upsertPending _ hput (fun _ h => h.1) lasting_secured.stable hdone.stable
    fun s ⟨hheld, hgood⟩ => ⟨⟨held_withQueue hheld _, fun c m _ _ => .inr ?_⟩, hgood⟩
  refine ⟨⟨Disk.relPath q, false, baseRev, mtime, some contentType⟩, ?_, rfl, rfl⟩
  rw [pending_withQueue]
  exact SyncEngine.mem_enqueue.2 (.inl rfl)

/-- What the rest of a recording half needs. -/
structure Recording (q : Place) (seen files : List (Path × ℤ)) (s : State) : Prop
    extends Secured q s where
  notSeen : NotSeen q seen s
  ahead : Ahead q files s

theorem lasting_recording : Lasting q (Recording q seen files) := fun _ _ hs h =>
  ⟨hs.toSecured.later h, hs.notSeen.later h, hs.ahead.later h⟩

/-- **Recording the watched file as deleted**: it was not seen, so if it is
there the user has just written it, and the client may not touch it. -/
theorem does_recordDelete_watched {mtime : ℤ} (hseen : Disk.relPath q ∉ seen.map Prod.fst) :
    EngineDoes q (Recording q seen files) (eng.recordDelete (Disk.relPath q) mtime)
      (Post (Secured q) fun _ => Recording q seen files) := by
  have hheld : ∀ s, Recording q seen files s → Held q s := fun s h => h.toHeld
  have hgone : Lasting q fun s => Recording q seen files s ∧ AllUnread q s :=
    lasting_recording.and lasting_allUnread
  refine does_report lasting_secured (fun _ h => h.toHeld) (fun _ => lasting_recording.stable) ?_
  refine Does.bind _ lasting_secured.stable
    (does_knownRev lasting_recording hheld lasting_secured.stable) fun baseRev => ?_
  refine Does.bind (fun _ s => Recording q seen files s ∧ AllUnread q s)
    lasting_secured.stable ?_ fun _ => ?_
  · refine Does.ask_perform rfl lasting_secured.stable (fun _ => hgone.stable) fun o s hs hcond => ?_
    have hexec : ((semantics q).exec () (inEngine (.fileDelete (Disk.relPath q))) o s).2 =
        { s with desk := (Desktop.exec (inEngine (.fileDelete (Disk.relPath q))) o s.desk).2 } :=
      exec_eq rfl (by rintro ⟨⟩) rfl
    have hnothing : NothingOwed q s := by
      intro c m hl hsent
      obtain ⟨hshows, hfirst⟩ := read_of_touch (o := o) hcond rfl hs.toHeld hl hsent
      obtain ⟨hunread, hscans⟩ := hs.notSeen hseen hshows c m hl hsent
      rw [hfirst hscans] at hunread
      cases hunread
    have hnothing' : NothingOwed q ((semantics q).exec ()
        (inEngine (.fileDelete (Disk.relPath q))) o s).2 := by
      rw [hexec]
      exact hnothing
    have hsec := hnothing'.secured (hexec ▸ hs.scanned)
      (hexec ▸ FsFileStore.wellFormed_delete hs.wellFormed)
    refine ⟨hsec.toHeld.kept, fun _ _ => ⟨⟨hsec, ?_, ?_⟩, ?_⟩, fun _ _ => hsec⟩
    · exact fun _ _ c m hl hs => (hnothing' c m hl hs).elim
    · exact fun _ _ c m hl hs => (hnothing' c m hl hs).elim
    · exact fun c m hl hs => (hnothing' c m hl hs).elim
  refine Does.bind (fun _ s => Recording q seen files s ∧ AllUnread q s)
    lasting_secured.stable (does_store hgone (fun _ h => hheld _ h.1) (fileKey_ne_pending _)
      (fun _ => hgone.stable) lasting_secured.stable fun o s _ hs' => ⟨_, rfl, hs'⟩) fun _ => ?_
  exact does_upsertPending _ hgone (fun _ h => hheld _ h.1) lasting_secured.stable
    lasting_recording.stable fun s ⟨hs, hunread⟩ =>
      ⟨⟨held_withQueue hs.toHeld _, fun c m hl hsent => .inl (hunread c m hl hsent)⟩,
        hs.notSeen, hs.ahead⟩

/-! ## The recording half -/

/-- An operation of the engine. -/
theorem does_engine {x : Engine α} (hB : (contract q).Stable () B)
    (hM : ∀ a, (contract q).Stable () (M a)) (hx : EngineDoes q P x (Post B M)) :
    DesktopDoes q P (engine x) (Post B M) := by
  refine Does.adapt hB hM ?_
  rw [Does, ExceptT.run_mk, Prog.expand_perform]
  exact hx

/-- A call of the system. -/
theorem does_os {e : OsReq α} (hM : ∀ a, (contract q).Stable () (M a))
    (hstep : ∀ o s, P s → Kept q ((semantics q).exec () (.inr e) o s).2 ∧
      M ((semantics q).exec () (.inr e) o s).1 ((semantics q).exec () (.inr e) o s).2) :
    DesktopDoes q P (os e) (Post B M) := by
  refine Does.iff_triple.2 ?_
  exact Triple.call M hM (fun o s hs _ => hstep o s hs) fun a =>
    Triple.done (Q := Post B M) (hM a) fun _ hs => hs

/-- A scanned path that is not the watched one. -/
theorem does_recordFile_other {mtime : ℤ} (hpath : path ≠ Disk.relPath q) :
    DesktopDoes q (Recording q seen files) (recordFile eng mimeOf path mtime)
      (Post (Secured q) fun _ => Recording q seen files) := by
  have hst : (contract q).Stable () (Recording q seen files) := lasting_recording.stable
  have hsec : ∀ s, Recording q seen files s → Secured q s := fun _ h => h.toSecured
  refine Does.bind (fun _ => Recording q seen files) lasting_secured.stable
    (does_engine lasting_secured.stable (fun _ => hst) ?_) fun known => ?_
  · exact Does.bind (fun _ => Recording q seen files) lasting_secured.stable
      (does_store lasting_recording (fun _ h => h.toHeld) trivial (fun _ => hst)
        lasting_secured.stable fun o s _ hs' => ⟨_, rfl, hs'⟩)
      fun _ => Does.pure hst fun _ h => h
  split
  · exact Does.pure hst fun _ h => h
  refine Does.bind (fun _ => Recording q seen files) lasting_secured.stable
    (does_os (fun _ => hst) fun o s hs => ?_) fun r => ?_
  · have hexec : ((semantics q).exec () (.inr (.readFile path)) o s).2 = s := by
      rw [exec_eq rfl (by simpa [readsFile] using hpath) rfl]
      simp only [Desktop.exec, osExec]
      split <;> rfl
    rw [hexec]
    exact ⟨hs.toHeld.kept, hs⟩
  rcases r with (_ | e) | content
  · exact Does.pure hst fun _ h => h
  · exact Does.throw lasting_secured.stable hsec
  · exact does_engine lasting_secured.stable (fun _ => hst)
      (does_record_other (.upsert path mtime (mimeOf path) content) hpath lasting_recording hsec
        fun s l hs hl => ⟨hl, hs.notSeen, hs.ahead⟩)

/-- The known time is the scanned one: the client has read the file, or it is
further on. -/
theorem Recording.skipped {mtime : ℤ} (hs : Recording q seen ((Disk.relPath q, mtime) :: files) s)
    (htime : (s.desk.fileMeta? (Disk.relPath q)).map FileMeta.mtime = some mtime) :
    Recording q seen files s := by
  refine ⟨hs.toSecured, hs.notSeen, ?_⟩
  intro hscans hshows c m hl hsent
  rcases hs.ahead hscans hshows c m hl hsent with hu | hmem
  · exact .inl hu
  rcases List.mem_cons.1 hmem with heq | hmem
  · refine .inl ?_
    by_contra hu
    have hu' : s.unread = true := by simpa using hu
    refine ((hs.bytes c m hl hsent).2 hu').2 ?_
    rw [knownTime, htime, (Prod.mk.inj heq).2]
  · exact .inr hmem

/-- **Reading the watched file**: the client has its bytes, if they are owed,
whatever comes. -/
theorem does_readFile_watched (hP : ∀ s, P s → Secured q s) :
    DesktopDoes q P (os (.readFile (Disk.relPath q)))
      (Post (Secured q) (Post (fun s => Secured q s ∧ ReadForGood s)
        fun x s => Held q s ∧ HasRead q (· = x) s ∧ ReadForGood s)) := by
  have hgood : Lasting q fun s => Secured q s ∧ ReadForGood s :=
    lasting_secured.and lasting_readForGood
  refine does_os (stable_post hgood.stable fun x =>
    (lasting_held.and (lasting_hasRead.and lasting_readForGood)).stable) fun o s hp => ?_
  have hs := hP s hp
  have hexec : ((semantics q).exec () (.inr (.readFile (Disk.relPath q))) o s).2 =
      { s with unread := false } := by
    have hdesk : (Desktop.exec (.inr (.readFile (Disk.relPath q))) o s.desk).2 = s.desk := by
      simp only [Desktop.exec, osExec]
      split <;> rfl
    simp [semantics, State.note, isScan, readsFile, sends, hdesk]
  have hread : ∀ c m, s.last = some (c, m) → ¬ Sent q s c →
      ((semantics q).exec () (.inr (.readFile (Disk.relPath q))) o s).1 = .ok c := by
    intro c m hl hsent
    obtain ⟨hpath, t, hfile⟩ := hs.toHeld.pathFor hl hsent
    show (osExec (.readFile (Disk.relPath q)) s.desk).1 = _
    simp only [osExec, hpath, FsFileStore.read_existing hs.wellFormed hfile]
  have hheld : Held q { s with unread := false } :=
    ⟨hs.scanned, hs.wellFormed, hs.inside, fun c m hl hsent =>
      ⟨(hs.bytes c m hl hsent).1, fun hu => by cases hu⟩⟩
  rw [hexec]
  refine ⟨hheld.kept, ?_⟩
  cases hr : ((semantics q).exec () (.inr (.readFile (Disk.relPath q))) o s).1 with
  | ok x =>
    refine ⟨hheld, fun c m hl hsent => .inr ?_, fun _ => rfl⟩
    exact Except.ok.inj ((hread c m hl hsent).symm.trans hr)
  | error e =>
    -- a file that is owed is read, so nothing is
    refine ⟨NothingOwed.secured (fun c m hl hsent => ?_) hs.scanned hs.wellFormed, fun _ => rfl⟩
    exact absurd ((hread c m hl hsent).symm.trans hr) (by rintro ⟨⟩)

/-- The watched path, when it was scanned. -/
theorem does_recordFile_watched {mtime : ℤ} (hseen : Disk.relPath q ∈ seen.map Prod.fst) :
    DesktopDoes q (Recording q seen ((Disk.relPath q, mtime) :: files))
      (recordFile eng mimeOf (Disk.relPath q) mtime)
      (Post (Secured q) fun _ => Recording q seen files) := by
  have hst : (contract q).Stable () (Recording q seen files) := lasting_recording.stable
  have hrec : ∀ s, Secured q s ∧ ReadForGood s → Recording q seen files s := fun s hs =>
    ⟨hs.1, fun h => absurd hseen h, fun hscans _ c m _ _ => .inl (hs.2 hscans)⟩
  have hstKnown : ∀ known, (contract q).Stable () fun s =>
      Recording q seen ((Disk.relPath q, mtime) :: files) s ∧
        s.desk.fileMeta? (Disk.relPath q) = known := fun known s s' hs h =>
    ⟨lasting_recording hs.1 h.2, by rw [fileMeta?, h.1]; exact hs.2⟩
  refine Does.bind (fun known s => Recording q seen ((Disk.relPath q, mtime) :: files) s ∧
      s.desk.fileMeta? (Disk.relPath q) = known) lasting_secured.stable
    (does_engine lasting_secured.stable hstKnown ?_) fun known => ?_
  · refine Does.bind (fun v s => Recording q seen ((Disk.relPath q, mtime) :: files) s ∧
        s.desk.fileMeta? (Disk.relPath q) = v.bind Blob.toFileMeta?) lasting_secured.stable
      (does_store lasting_recording (fun _ h => h.toHeld) trivial (fun v => hstKnown _)
        lasting_secured.stable fun o s _ hs' => ⟨_, rfl, hs', ?_⟩)
      fun v => Does.pure (hstKnown _) fun _ h => h
    rw [exec_eq rfl (by rintro ⟨⟩) rfl]
    rfl
  split
  · rename_i htime
    exact Does.pure hst fun s hs => hs.1.skipped (hs.2 ▸ htime)
  refine Does.bind (Post (fun s => Secured q s ∧ ReadForGood s)
      fun x s => Held q s ∧ HasRead q (· = x) s ∧ ReadForGood s) lasting_secured.stable
    (does_readFile_watched fun _ h => h.1.toSecured) fun r => ?_
  rcases r with (_ | e) | content
  · exact Does.pure hst fun s hs => hrec s hs
  · exact Does.throw lasting_secured.stable fun s hs => hs.1
  · exact does_engine lasting_secured.stable (fun _ => hst)
      (Does.mono does_record_watched (fun _ h => h) fun _ s hs => hrec s hs)

theorem does_recordFiles (hfiles : ∀ f ∈ files, f.1 ∈ seen.map Prod.fst) :
    DesktopDoes q (Recording q seen files) (recordFiles eng mimeOf files)
      (Post (Secured q) fun _ => Recording q seen []) := by
  induction files with
  | nil => exact Does.pure lasting_recording.stable fun _ h => h
  | cons f files ih =>
    obtain ⟨path, mtime⟩ := f
    have hrest := ih fun f hf => hfiles f (List.mem_cons_of_mem _ hf)
    refine Does.bind (fun _ => Recording q seen files) lasting_secured.stable ?_
      fun _ => hrest
    by_cases hpath : path = Disk.relPath q
    · subst hpath
      exact does_recordFile_watched (hfiles _ List.mem_cons_self)
    · refine (does_recordFile_other hpath).pre fun s hs => ⟨hs.toSecured, hs.notSeen, ?_⟩
      intro hscans hshows c m hl hsent
      refine (hs.ahead hscans hshows c m hl hsent).imp_right fun hmem => ?_
      exact (List.mem_cons.1 hmem).resolve_left fun heq => hpath (Prod.mk.inj heq).1.symm

theorem does_recordMissing (paths : List Path) :
    DesktopDoes q (Recording q seen files) (recordMissing eng seen paths)
      (Post (Secured q) fun _ => Recording q seen files) := by
  have hst : (contract q).Stable () (Recording q seen files) := lasting_recording.stable
  induction paths with
  | nil => exact Does.pure hst fun _ h => h
  | cons path paths ih =>
    unfold recordMissing
    split
    · rename_i hseen
      refine Does.bind (fun _ => Recording q seen files) lasting_secured.stable
        (does_os (fun _ => hst) fun o s hs => ?_) fun now => ?_
      · have hexec : ((semantics q).exec () (.inr .nowSecs) o s).2 = s :=
          exec_eq rfl (by rintro ⟨⟩) rfl
        rw [hexec]
        exact ⟨hs.toHeld.kept, hs⟩
      refine Does.bind (fun _ => Recording q seen files) lasting_secured.stable
        (does_engine lasting_secured.stable (fun _ => hst) ?_) fun _ => ih
      by_cases hpath : path = Disk.relPath q
      · subst hpath
        exact does_recordDelete_watched hseen
      · exact does_record_other (.delete path now) hpath lasting_recording
          (fun _ h => h.toSecured) fun s l hs hl => ⟨hl, hs.notSeen, hs.ahead⟩
    · exact ih

/-- A pass may start: at first with only the user having been at work. -/
def Ready (q : Place) (s : State) : Prop := Unscanned q s ∨ Secured q s

theorem lasting_ready : Lasting q (Ready q) := fun _ _ hs h =>
  hs.imp (fun hu => hu.later h) fun hs => hs.later h

/-- **The scan.** In the first pass all the user wrote is unread; in the
second it is secured or among what the scan lists. -/
theorem does_scan : DesktopDoes q (Ready q) (os .scan)
    (Post (Secured q) fun seen => Recording q seen seen) := by
  refine does_os (fun _ => lasting_recording.stable) fun o s hs => ?_
  have hexec : ((semantics q).exec () (.inr .scan) o s).2 = { s with scans := s.scans + 1 } := by
    simp [semantics, State.note, isScan, readsFile, sends, Desktop.exec, osExec]
  rw [hexec]
  suffices hrec : Recording q s.desk.disk.scan s.desk.disk.scan
      { s with scans := s.scans + 1 } from ⟨hrec.toHeld.kept, hrec⟩
  rcases hs with ⟨hscans, hd, hfresh⟩ | hs
  · refine ⟨⟨⟨Nat.le_add_left .., hd, fun c m hl hsent => (hfresh c m hl hsent).inside,
      fun c m hl hsent => ?_⟩, fun c m hl hsent => ?_⟩, fun _ _ c m hl hsent => ?_, fun h2 => ?_⟩
    · have hf := (hfresh c m hl hsent).file
      exact ⟨by rw [bytesAt, hf]; rfl, fun _ => ⟨hf, (hfresh c m hl hsent).time⟩⟩
    · exact .inl (hfresh c m hl hsent).unread
    · exact ⟨(hfresh c m hl hsent).unread, by simp [hscans]⟩
    · simp only [hscans] at h2
      omega
  · have hlisted : ∀ c t, s.desk.disk.shows q = true → s.desk.disk.fileAt q = some (c, t) →
        (Disk.relPath q, max 0 t) ∈ s.desk.disk.scan := fun c t hshows hf =>
      Disk.mem_scan.2 ⟨q, c, t, ⟨hf, hshows⟩, rfl, rfl⟩
    refine ⟨⟨⟨Nat.le_add_left .., hs.wellFormed, hs.inside, hs.bytes⟩, hs.queued⟩,
      fun hseen hshows c m hl hsent => ?_, fun _ hshows c m hl hsent => ?_⟩
    · obtain ⟨-, t, hf⟩ := hs.toHeld.pathFor hl hsent
      exact absurd (List.mem_map.2 ⟨_, hlisted c t hshows hf, rfl⟩) hseen
    · cases hu : s.unread with
      | false => exact .inl rfl
      | true => exact .inr (hlisted c m hshows ((hs.bytes c m hl hsent).2 hu).1)

/-- What a sync starts from and keeps. -/
structure Syncing (q : Place) (s : State) : Prop extends Secured q s where
  ahead : Ahead q [] s

theorem lasting_syncing : Lasting q (Syncing q) := fun _ _ hs h =>
  ⟨hs.toSecured.later h, hs.ahead.later h⟩

theorem does_recordChanges : DesktopDoes q (Ready q) (recordChanges eng mimeOf)
    (Post (Secured q) fun _ => Syncing q) := by
  refine Does.bind _ lasting_secured.stable does_scan fun seen => ?_
  refine Does.bind _ lasting_secured.stable
    (does_recordFiles fun f hf => List.mem_map.2 ⟨f, hf, rfl⟩) fun _ => ?_
  have hquiet : Fallible.All (Quiet q) SyncEngine.listFilePaths :=
    .bind (SyncEngine.all_store trivial) fun _ => Fallible.all_pure _
  refine Does.bind (fun _ => Recording q seen []) lasting_secured.stable
    (does_engine lasting_secured.stable (fun _ => lasting_recording.stable)
      (Does.mono (does_quiet lasting_recording (fun _ h => h.toHeld) hquiet)
        (fun _ h => h.toSecured) fun _ _ h => h)) fun known => ?_
  exact Does.mono (does_recordMissing known) (fun _ h => h) fun _ s hs =>
    ⟨hs.toSecured, hs.ahead⟩

/-! ## The push -/

/-- One of the changes carries the watched file's bytes. -/
def Carries (q : Place) (changes : List PushChange) (c : Bytes) : Prop :=
  ∃ change ∈ changes, change.path = Disk.relPath q ∧ change.contentBase64 = some (.encode c)

/-- The change is an upsert of the watched file. -/
def Watched (q : Place) (p : PendingChange) : Prop := p.path = Disk.relPath q ∧ p.deleted = false

theorem HasRead.mono {φ ψ : Bytes → Prop} (h : HasRead q φ s) (hφ : ∀ c, φ c → ψ c) :
    HasRead q ψ s := fun c m hl hs => (h c m hl hs).imp_right (hφ c)

theorem Carries.append {l l' : List PushChange} (h : Carries q l c) : Carries q (l ++ l') c :=
  h.imp fun _ ⟨hmem, hp⟩ => ⟨List.mem_append_left _ hmem, hp⟩

/-- Building the watched file's change reads the file. -/
theorem does_buildPushChange_watched {p : PendingChange} {pending : List PendingChange}
    (hp : Watched q p) (hmem : p ∈ pending) :
    EngineDoes q (fun s => Syncing q s ∧ s.desk.pending = pending) (SyncEngine.buildPushChange p)
      (Post (Syncing q) fun change s => (Syncing q s ∧ s.desk.pending = pending) ∧
        HasRead q (Carries q [change]) s) := by
  have hbase : Lasting q fun s => Syncing q s ∧ s.desk.pending = pending :=
    lasting_syncing.and lasting_pending
  have hread : ∀ v : Option Bytes, Lasting q fun s => (Syncing q s ∧ s.desk.pending = pending) ∧
      HasRead q (fun c => v = some c) s := fun v => hbase.and lasting_hasRead
  obtain ⟨hpath, hdel⟩ := hp
  unfold SyncEngine.buildPushChange
  rw [if_neg (by simp [hdel])]
  refine Does.bind (fun v s => (Syncing q s ∧ s.desk.pending = pending) ∧
      HasRead q (fun c => v = some c) s) lasting_syncing.stable ?_ fun v => ?_
  · refine Does.ask_perform rfl lasting_syncing.stable (fun v => (hread v).stable)
      fun o s hbuilding _ => ?_
    obtain ⟨hs, hpending⟩ := hbuilding
    have hexec : ((semantics q).exec () (inEngine (.fileGet p.path)) o s).2 =
        { s with unread := false } := by
      simp [semantics, State.note, isScan, readsFile, sends, hpath, Desktop.exec,
        engineExec]
    rw [hexec]
    have hsync : Syncing q { s with unread := false } :=
      ⟨⟨⟨hs.scanned, hs.wellFormed, hs.inside, fun c m hl hsent =>
          ⟨(hs.bytes c m hl hsent).1, fun hu => by cases hu⟩⟩,
        fun _ _ _ _ => .inr ⟨p, hpending.symm ▸ hmem, hpath, hdel⟩⟩,
        fun _ _ _ _ _ _ => .inl rfl⟩
    refine ⟨hsync.toHeld.kept, fun v hv => ⟨⟨hsync, hpending⟩, fun c m hl hsent => .inr ?_⟩,
      fun _ _ => hsync⟩
    obtain ⟨-, t, hfile⟩ := hs.toHeld.pathFor hl hsent
    have hget : FsFileStore.get s.desk.disk (Disk.relPath q) = .ok (some c) :=
      FsFileStore.get_existing hs.wellFormed hfile (hs.inside c m hl hsent)
    have hv' : FsFileStore.get s.desk.disk p.path = .ok v := hv
    rw [hpath, hget] at hv'
    exact (Except.ok.inj hv').symm
  refine Does.bind (fun _ s => (Syncing q s ∧ s.desk.pending = pending) ∧
      HasRead q (fun c => v = some c) s) lasting_syncing.stable
    (does_store (hread v) (fun _ h => h.1.1.toHeld) trivial (fun _ => (hread v).stable)
      lasting_syncing.stable fun o s _ hs' => ⟨_, rfl, hs'⟩) fun m => ?_
  refine Does.pure (hbase.and lasting_hasRead).stable fun s hbuilt => ?_
  obtain ⟨hs, hv⟩ := hbuilt
  exact ⟨hs, hv.mono fun c hc => ⟨_, List.mem_singleton.2 rfl, hpath, by rw [hc]; rfl⟩⟩

/-- Building the changes of the queue reads the watched file if its change is
one of them. -/
theorem does_buildPushChanges {pending : List PendingChange} (ps : List PendingChange)
    (hps : ∀ p ∈ ps, p ∈ pending) (built : List PushChange) :
    EngineDoes q (fun s => (Syncing q s ∧ s.desk.pending = pending) ∧
        (HasRead q (Carries q built) s ∨ ∃ p ∈ ps, Watched q p))
      (SyncEngine.buildPushChanges ps)
      (Post (Syncing q) fun changes s => Syncing q s ∧
        HasRead q (Carries q (built ++ changes)) s) := by
  have hbase : Lasting q fun s => Syncing q s ∧ s.desk.pending = pending :=
    lasting_syncing.and lasting_pending
  have hread : ∀ l, Lasting q fun s => Syncing q s ∧ HasRead q (Carries q l) s := fun l =>
    lasting_syncing.and lasting_hasRead
  induction ps generalizing built with
  | nil =>
    refine Does.pure (hread _).stable fun s ⟨⟨hs, _⟩, hr⟩ => ⟨hs, ?_⟩
    rw [List.append_nil]
    exact hr.resolve_right (by simp)
  | cons p ps ih =>
    -- a change of the watched file reads it, any other leaves what was read as it was
    have hrest := ih fun p hp => hps p (List.mem_cons_of_mem _ hp)
    refine Does.bind (fun change s => (Syncing q s ∧ s.desk.pending = pending) ∧
      (HasRead q (Carries q (built ++ [change])) s ∨ ∃ p ∈ ps, Watched q p))
      lasting_syncing.stable ?_ fun change => ?_
    · by_cases hp : Watched q p
      · refine Does.mono ((does_buildPushChange_watched hp (hps p List.mem_cons_self)).pre
          fun s hs => hs.1) (fun _ h => h) fun change s ⟨hs, hr⟩ => ⟨hs, .inl ?_⟩
        exact hr.mono fun c ⟨ch, hmem, h⟩ => ⟨ch, List.mem_append_right _ hmem, h⟩
      · have hquiet : Fallible.All (Quiet q) (SyncEngine.buildPushChange p) := by
          unfold SyncEngine.buildPushChange
          split
          · exact Fallible.all_pure _
          · rename_i hdel
            refine .bind (SyncEngine.all_store fun h => hp ⟨h, by simpa using hdel⟩) fun _ =>
              .bind (SyncEngine.all_store trivial) fun _ => Fallible.all_pure _
        have hlast : Lasting q fun s => (Syncing q s ∧ s.desk.pending = pending) ∧
            (HasRead q (Carries q built) s ∨ ∃ p ∈ ps, Watched q p) :=
          hbase.and fun _ _ hs h => hs.imp_left fun hr => hr.later h
        have htail : (∃ p' ∈ p :: ps, Watched q p') → ∃ p' ∈ ps, Watched q p' :=
          fun ⟨p', hp', hw⟩ =>
            ⟨p', (List.mem_cons.1 hp').resolve_left fun heq => hp (heq ▸ hw), hw⟩
        have hdoes : EngineDoes q (fun s => (Syncing q s ∧ s.desk.pending = pending) ∧
            (HasRead q (Carries q built) s ∨ ∃ p' ∈ p :: ps, Watched q p')) _ _ :=
          (does_quiet hlast (fun _ h => h.1.1.toHeld) hquiet).pre
            fun s hs => ⟨hs.1, hs.2.imp_right htail⟩
        exact Does.mono hdoes (fun _ h => h.1.1) fun change s ⟨hs, hr⟩ =>
          ⟨hs, hr.imp_left fun hr => hr.mono fun c hc => hc.append⟩
    · refine Does.bind _ lasting_syncing.stable (hrest (built ++ [change])) fun changes => ?_
      refine Does.pure (hread _).stable fun s hs => ?_
      rwa [List.append_assoc] at hs

/-- A push that is under way: what the client has read of the watched file
it is about to send. -/
structure Pushing (q : Place) (changes : List PushChange) (s : State) : Prop
    extends Syncing q s where
  built : HasRead q (Carries q changes) s

theorem lasting_pushing {changes : List PushChange} : Lasting q (Pushing q changes) :=
  fun _ _ hs h => ⟨lasting_syncing hs.toSyncing h, hs.built.later h⟩

/-- **Sending**: what the client has read is sent. -/
theorem does_hubPush {changes : List PushChange} (hub : HubId) :
    EngineDoes q (Pushing q changes) (SyncEngine.ask (.hubPush hub changes))
      (Post (Pushing q changes) fun _ s => Syncing q s ∧ AllUnread q s) := by
  refine Does.ask_perform rfl lasting_pushing.stable
    (fun _ => (lasting_syncing.and lasting_allUnread).stable) fun o s hs _ => ?_
  have hexec : ((semantics q).exec () (inEngine (.hubPush hub changes)) o s).2 =
      { s with sent := s.sent ++ changes } := by
    simp [semantics, State.note, isScan, readsFile, sends, Desktop.exec,
      engineExec]
  have hgrown : ∀ c, Sent q s c → Sent q { s with sent := s.sent ++ changes } c := by
    rintro c ⟨ch, hmem, h⟩
    exact ⟨ch, List.mem_append_left _ hmem, h⟩
  have howes : ∀ {φ : Bytes → ℤ → Prop}, Owes q s φ →
      Owes q { s with sent := s.sent ++ changes } φ := fun hφ c m hl hsent =>
    hφ c m hl fun h => hsent (hgrown c h)
  rw [hexec]
  have hsync : Syncing q { s with sent := s.sent ++ changes } :=
    ⟨⟨⟨hs.scanned, hs.wellFormed, howes hs.inside, howes hs.bytes⟩, howes hs.queued⟩,
      fun hscans hshows => howes (hs.ahead hscans hshows)⟩
  refine ⟨hsync.toHeld.kept, fun _ _ => ⟨hsync, fun c m hl hsent => ?_⟩,
    fun _ _ => ⟨hsync, howes hs.built⟩⟩
  refine (howes hs.built c m hl hsent).resolve_right fun hcarries => hsent ?_
  obtain ⟨ch, hmem, h⟩ := hcarries
  exact ⟨ch, List.mem_append_right _ hmem, h⟩

theorem does_pushTo {pending : List PendingChange} {changes : List PushChange} (hub : HubId) :
    EngineDoes q (Pushing q changes) (SyncEngine.pushTo pending changes hub)
      (Post (Pushing q changes) fun _ => Syncing q) := by
  have hlast : Lasting q fun s => Syncing q s ∧ AllUnread q s :=
    lasting_syncing.and lasting_allUnread
  have hpushing : ∀ s, Syncing q s ∧ AllUnread q s → Pushing q changes s := fun s hs =>
    ⟨hs.1, fun c m hl hsent => .inl (hs.2 c m hl hsent)⟩
  refine Does.bind _ lasting_pushing.stable (does_hubPush hub) fun results => ?_
  refine Does.bind (fun _ s => Syncing q s ∧ AllUnread q s) lasting_pushing.stable
    (Does.mono (does_quiet hlast (fun _ h => h.1.toHeld) (SyncEngine.all_bumpRevs
      (fun _ => trivial) (fun path m => ⟨fileKey_ne_pending path, fun _ _ => ⟨m, rfl⟩⟩) _ _))
      hpushing fun _ _ h => h) fun pushed => ?_
  dsimp only
  split
  · refine Does.bind (fun _ => Syncing q) lasting_pushing.stable
      (Does.ask_perform rfl lasting_pushing.stable (fun _ => lasting_syncing.stable)
        fun o s ⟨hs, hunread⟩ _ => ?_)
      fun _ => Does.pure lasting_syncing.stable fun _ h => h
    have hexec : ((semantics q).exec () (inEngine (.metaPut keyPending (.queue []))) o s).2 =
        s.withQueue [] :=
      exec_eq rfl (by rintro ⟨⟩) rfl
    rw [hexec]
    have hsync : Syncing q (s.withQueue []) :=
      ⟨⟨held_withQueue hs.toHeld _, fun c m hl hsent => .inl (hunread c m hl hsent)⟩, hs.ahead⟩
    exact ⟨hsync.toHeld.kept, fun _ _ => hsync, fun x hx => by cases hx⟩
  · exact Does.pure lasting_syncing.stable fun _ h => h.1

/-- **A push** empties the queue of nothing it has not sent. -/
theorem does_push : EngineDoes q (Syncing q) eng.push (Post (Syncing q) fun _ => Syncing q) := by
  have hheld : ∀ s, Syncing q s → Held q s := fun _ h => h.toHeld
  have hpending : ∀ l, Lasting q fun s => Syncing q s ∧ s.desk.pending = l := fun l =>
    lasting_syncing.and lasting_pending
  have hbuilt : ∀ l, Lasting q fun s => Syncing q s ∧ HasRead q (Carries q l) s := fun l =>
    lasting_syncing.and lasting_hasRead
  refine Does.bind _ lasting_syncing.stable
    (does_report lasting_syncing hheld (fun l => (hpending l).stable)
      (does_loadPending lasting_syncing hheld lasting_syncing.stable)) fun pending => ?_
  split
  · exact Does.pure lasting_syncing.stable fun _ h => h.1
  refine Does.bind (fun changes s => Syncing q s ∧ HasRead q (Carries q changes) s)
    lasting_syncing.stable (does_report lasting_syncing hheld (fun l => (hbuilt l).stable) ?_)
    fun changes => ?_
  · refine (does_buildPushChanges pending (fun _ h => h) []).pre
      fun s ⟨hs, hp⟩ => ⟨⟨hs, hp⟩, ?_⟩
    by_cases hw : ∃ p ∈ pending, Watched q p
    · exact .inr hw
    · refine .inl fun c m hl hsent => .inl ?_
      refine (hs.queued c m hl hsent).resolve_right fun ⟨p, hmem, hpath, hdel⟩ => hw ?_
      exact ⟨p, hp ▸ hmem, hpath, hdel⟩
  · have hnotify : ∀ e, Quiet q (.notifyError e) := fun _ => trivial
    exact (Does.mono (SyncEngine.does_failover lasting_pushing.stable
      (fun _ => lasting_syncing.stable)
      (fun e => triple_quiet lasting_pushing (fun _ h => h.toHeld) (hnotify e))
      (fun hub => does_pushTo hub) _ _) (fun s h => h.toSyncing) fun _ _ h => h).pre
        fun s hs => ⟨hs.1, hs.2⟩

/-! ## The pull -/

/-- No change is queued for the path. -/
def NotQueued (path : Path) (s : State) : Prop := ∀ p ∈ s.desk.pending, p.path ≠ path

theorem lasting_notQueued : Lasting q (NotQueued path) := fun s s' hs h => by
  rw [NotQueued, h.pending]
  exact hs

theorem does_pendingContains : EngineDoes q (Syncing q) (SyncEngine.pendingContains path)
    (Post (Syncing q) fun b s => Syncing q s ∧ (b = false → NotQueued path s)) := by
  have hM : ∀ b : Bool, Lasting q fun s => Syncing q s ∧ (b = false → NotQueued path s) :=
    fun b => lasting_syncing.and fun _ _ hs h hb => lasting_notQueued (hs hb) h
  refine Does.bind _ lasting_syncing.stable
    (does_loadPending lasting_syncing (fun _ h => h.toHeld) lasting_syncing.stable) fun l => ?_
  refine Does.pure (hM _).stable fun s ⟨hs, hl⟩ => ⟨hs, fun hb p hp hpath => ?_⟩
  have hany : (l.any fun p => p.path = path) = true :=
    List.any_eq_true.2 ⟨p, hl ▸ hp, by simpa using hpath⟩
  rw [hany] at hb
  cases hb

/-- **When a pull may touch the watched file, nothing is owed**: what the
client has read is queued unless it was sent, and the path is not queued. -/
theorem nothingOwed_of_touch {e : DesktopReq α} (hs : Syncing q s)
    (hcond : (Respected q).call () e o s) (hw : writesFile e = some (Disk.relPath q))
    (hnot : NotQueued (Disk.relPath q) s) : NothingOwed q s := by
  intro c m hl hsent
  obtain ⟨hshows, hfirst⟩ := read_of_touch hcond hw hs.toHeld hl hsent
  have hunread : s.unread = false := by
    by_cases h1 : s.scans ≤ 1
    · exact hfirst h1
    · exact (hs.ahead (by omega) hshows c m hl hsent).resolve_right List.not_mem_nil
  obtain ⟨p, hmem, hpath, -⟩ := (hs.queued c m hl hsent).resolve_left (by simp [hunread])
  exact hnot p hmem hpath

theorem syncing_of_nothingOwed (h : NothingOwed q s) (hscans : 1 ≤ s.scans)
    (hd : s.desk.disk.WellFormed) : Syncing q s :=
  ⟨h.secured hscans hd, fun _ _ c m hl hsent => (h c m hl hsent).elim⟩

/-- A call that writes a file neither reads one nor sends. -/
theorem of_writesFile {β : Type} {e : EngineReq β} (h : writesFile (inEngine e) = some path) :
    readsFile (inEngine e) = none ∧ sends (inEngine e) = [] := by
  cases e <;> first | exact ⟨rfl, rfl⟩ | cases h

/-- A file operation of the pull, on a path that is not queued. -/
theorem does_touch {e : EngineReq (Except StoreError Unit)} (hw : writesFile (inEngine e) = some path)
    (hquiet : path ≠ Disk.relPath q → Quiet q e)
    (hdisk : ∀ o (d : Desktop), d.disk.WellFormed →
      (Desktop.exec (inEngine e) o d).2.disk.WellFormed) :
    EngineDoes q (fun s => Syncing q s ∧ NotQueued path s)
      (SyncEngine.store e) (Post (Syncing q) fun _ => Syncing q) := by
  by_cases hpath : path = Disk.relPath q
  · subst hpath
    refine Does.ask_perform rfl lasting_syncing.stable (fun _ => lasting_syncing.stable)
      fun o s ⟨hs, hnot⟩ hcond => ?_
    obtain ⟨hread, hsend⟩ := of_writesFile hw
    have hexec : ((semantics q).exec () (inEngine e) o s).2 =
        { s with desk := (Desktop.exec (inEngine e) o s.desk).2 } :=
      exec_eq rfl (by rw [hread]; rintro ⟨⟩) hsend
    have hnothing := nothingOwed_of_touch (o := o) hs hcond hw hnot
    have hsync := syncing_of_nothingOwed
      (s := { s with desk := (Desktop.exec (inEngine e) o s.desk).2 }) hnothing hs.scanned
      (hdisk o s.desk hs.wellFormed)
    rw [hexec]
    exact ⟨hsync.toHeld.kept, fun _ _ => hsync, fun _ _ => hsync⟩
  · refine (does_quiet lasting_syncing (fun _ h => h.toHeld)
      (SyncEngine.all_store (hquiet hpath))).pre fun s hs => hs.1

theorem does_applyRemote (hub : HubId) (entry : ChangeEntry) (rep : PullReport) :
    EngineDoes q (Syncing q) (SyncEngine.applyRemote hub entry rep)
      (Post (Syncing q) fun _ => Syncing q) := by
  have hheld : ∀ s, Syncing q s → Held q s := fun _ h => h.toHeld
  have hst : (contract q).Stable () (Syncing q) := lasting_syncing.stable
  have hnot : Lasting q fun s => Syncing q s ∧ NotQueued entry.path s :=
    lasting_syncing.and lasting_notQueued
  refine Does.bind _ hst does_pendingContains fun queued => ?_
  split
  · exact Does.pure hst fun _ h => h.1
  rename_i hqueued
  refine Triple.pre (P := fun s => Syncing q s ∧ NotQueued entry.path s) ?_
    fun s hs => ⟨hs.1, hs.2 (by simpa using hqueued)⟩
  split
  · refine Does.bind (fun _ => Syncing q) hst
      (does_touch rfl (fun h => h) fun _ _ h => FsFileStore.wellFormed_delete h) fun _ => ?_
    refine Does.bind (fun _ => Syncing q) hst
      (does_store lasting_syncing hheld (fileKey_ne_pending _) (fun _ => hst) hst
        fun o s _ hs' => ⟨_, rfl, hs'⟩) fun _ => Does.pure hst fun _ h => h
  · refine Does.bind (fun _ s => Syncing q s ∧ NotQueued entry.path s) hst
      (Does.mono (does_quiet hnot (fun s h => hheld s h.1) (SyncEngine.all_ask trivial))
        (fun _ h => h.1) fun _ _ h => h) fun file => ?_
    cases file with
    | none => exact Does.throw hst fun _ h => h.1
    | some file =>
      refine Does.bind (fun _ => Syncing q) hst
        (does_touch rfl (fun h => h) fun _ _ h => FsFileStore.wellFormed_put h) fun _ => ?_
      refine Does.bind (fun _ => Syncing q) hst
        (does_store lasting_syncing hheld ⟨fileKey_ne_pending _, fun _ _ => ⟨_, rfl⟩⟩
          (fun _ => hst) hst fun o s _ hs' => ⟨_, rfl, hs'⟩) fun _ =>
            Does.pure hst fun _ h => h

theorem does_applyAll (hub : HubId) (entries : List ChangeEntry) (rep : PullReport) :
    EngineDoes q (Syncing q) (SyncEngine.applyAll hub entries rep)
      (Post (Syncing q) fun _ => Syncing q) := by
  induction entries generalizing rep with
  | nil => exact Does.pure lasting_syncing.stable fun _ h => h
  | cons entry entries ih =>
    exact Does.bind _ lasting_syncing.stable (does_applyRemote hub entry rep)
      fun rep => ih rep

/-- **A pull** keeps the watched file secured. -/
theorem does_pull : EngineDoes q (Syncing q) eng.pull (Post (Syncing q) fun _ => Syncing q) := by
  have hheld : ∀ s, Syncing q s → Held q s := fun _ h => h.toHeld
  have hst : (contract q).Stable () (Syncing q) := lasting_syncing.stable
  have hnotify : ∀ e, Quiet q (.notifyError e) := fun _ => trivial
  refine SyncEngine.does_failover hst (fun _ => hst)
    (fun e => triple_quiet lasting_syncing hheld (hnotify e)) (fun hub => ?_) _ _
  · have hcheckpoint : ∀ token, Quiet q (.metaPut (checkpointKey hub) (.checkpoint token)) :=
      fun token => EngineReq.keepsQueue_checkpoint hub token
    refine Does.bind (fun _ => Syncing q) hst
      (does_quiet lasting_syncing hheld (SyncEngine.all_store trivial)) fun since => ?_
    refine Does.bind (fun _ => Syncing q) hst
      (does_quiet lasting_syncing hheld (SyncEngine.all_ask trivial)) fun resp => ?_
    refine Does.bind (fun _ => Syncing q) hst (does_applyAll hub _ _) fun rep => ?_
    refine Does.bind (fun _ => Syncing q) hst
      (does_quiet lasting_syncing hheld (SyncEngine.all_store (hcheckpoint _))) fun _ => ?_
    exact Does.pure hst fun _ h => h

/-! ## The passes -/

/-- **A pass** secures the watched file. -/
theorem does_reconcileAndSync : DesktopDoes q (Ready q) (reconcileAndSync eng mimeOf)
    (Post (Secured q) fun _ => Secured q) := by
  have hst : (contract q).Stable () (Secured q) := lasting_secured.stable
  have hsync : EngineDoes q (Syncing q) eng.sync (Post (Syncing q) fun _ => Syncing q) :=
    Does.bind _ lasting_syncing.stable does_push fun _ =>
      Does.bind _ lasting_syncing.stable does_pull fun _ =>
        Does.pure lasting_syncing.stable fun _ h => h
  refine Does.bind _ hst does_recordChanges fun _ => ?_
  refine Does.bind (fun _ => Secured q) hst (does_engine hst (fun _ => hst) ?_)
    fun _ => Does.pure hst fun _ h => h
  exact Does.mono hsync (fun _ h => h.toSecured) fun _ _ h => h.toSecured

theorem does_passes : DesktopDoes q (Ready q) (passes eng mimeOf) (Post (Secured q) fun _ => Secured q) := by
  have hst : (contract q).Stable () (Secured q) := lasting_secured.stable
  refine Does.bind _ hst (Does.attempt hst (fun _ => hst) does_reconcileAndSync)
    fun r => does_reconcileAndSync.pre fun s hs => .inr ?_
  cases r <;> exact hs

/-- **The user's bytes survive.** In every run of two passes in which the
client respects the watched file, what the user last wrote in it is there or
was sent, at every moment. -/
theorem user_bytes_survive (eng : SyncEngine) (mimeOf : Path → String) (q : Place)
    (desk : Desktop) (ms : List (Move Unit HubAnswers Outside)) (hd : desk.disk.WellFormed)
    (h : (start eng mimeOf desk).Meets (semantics q) (Respected q) ms) :
    Kept q ((start eng mimeOf desk).runs (semantics q) ms).state := by
  have hready : Ready q (start eng mimeOf desk).state :=
    .inl ⟨rfl, hd, fun c m hl _ => by cases hl⟩
  have hpool : PoolSafe (semantics q) (Respected q) (contract q)
      (fun _ => Post (Secured q) fun _ => Secured q) (start eng mimeOf desk) :=
    PoolSafe.init (P := fun _ => Ready q) (fun _ => lasting_ready.stable) (fun _ => hready)
      fun _ => Does.iff_triple.1 does_passes
  refine hpool.invariant fits (fun _ _ _ hg _ => hg) (fun a s ha hs => ?_) h fun c m hl _ => ?_
  · exact (later_act ha).owes (φ := fun s c _ => s.desk.bytesAt q = some c) hs
      (fun hsame c m _ hφ => by rw [bytesAt, hsame.file]; exact hφ)
      fun _ c m hfresh => by rw [bytesAt, hfresh.file]; rfl
  · cases hl

/-! ## A run that destroys what the user wrote -/

/-- The user has a file `a`, not yet recorded. -/
def oneFile : Desktop := ⟨∅, (FsFileStore.put Disk.empty 5 "a" [1] 5).2, 7⟩

/-- The pass scans and reads `a`, the user writes it again, the pass goes on,
and another one follows. -/
def writeAfterRead : List (Move Unit HubAnswers Outside) :=
  List.replicate 3 (.run () .unreachable) ++ .env (.write ["a"] [2] 6) ::
    List.replicate 60 (.run () .unreachable)

/-- **Bytes written between the pass's read and its write are destroyed**:
the time they were written with is none the client knows, and after both
passes they are neither in the directory nor among what was sent. -/
theorem bytes_written_after_read_destroyed :
    let before := (start (oneHub true) anyType oneFile).runs (semantics ["a"]) (writeAfterRead.take 3)
    let c := (start (oneHub true) anyType oneFile).runs (semantics ["a"]) writeAfterRead
    before.state.desk.knownTime "a" = none ∧ c.Finished ∧ c.state.last = some ([2], 6) ∧
      c.state.desk.bytesAt ["a"] = some [1] ∧ ¬ Kept ["a"] c.state := by
  have hlast : ((start (oneHub true) anyType oneFile).runs (semantics ["a"])
      writeAfterRead).state.last = some ([2], 6) := by decide +kernel
  have hbytes : ((start (oneHub true) anyType oneFile).runs (semantics ["a"])
      writeAfterRead).state.desk.bytesAt ["a"] = some [1] := by decide +kernel
  refine ⟨by decide +kernel, by decide +kernel, hlast, hbytes, fun h => ?_⟩
  have hthere := h [2] 6 hlast (by decide +kernel)
  rw [hbytes] at hthere
  exact absurd hthere (by decide)

/-- The user writes the file again before the pass reads it. -/
def writeBeforeRead : List (Move Unit HubAnswers Outside) :=
  .run () .unreachable :: .env (.write ["a"] [2] 6) :: List.replicate 60 (.run () .unreachable)

theorem bytes_written_before_read_survive :
    Kept ["a"] ((start (oneHub true) anyType oneFile).runs (semantics ["a"]) writeBeforeRead).state :=
  user_bytes_survive (oneHub true) anyType ["a"] oneFile writeBeforeRead
    (FsFileStore.wellFormed_put Disk.wellFormed_empty) (by decide +kernel)

end UserWrites

end FileSync
