import FileSync.Client.Calls
import Mathlib.Data.Fintype.Option
/-!
# Recording while a pull is under way

One pull and any number of record calls share the stores. Each record call
writes its path's file and its metadata, and the state carries which calls
have done so, when each began, and the revision each found.

The pull looks at the queue before it fetches and writes after; what it
writes then may land on a record call's. Content is safe as long as nobody
writes a file or its metadata after an upsert that began later has.
-/

namespace FileSync

/-- The path whose file the call writes. -/
def EngineReq.filePath? ⦃β : Type⦄ : EngineReq β → Option Path
  | .filePut path _ _ => some path
  | .fileDelete path => some path
  | _ => none

/-- The key whose entry the call writes. -/
def EngineReq.metaKey? ⦃β : Type⦄ : EngineReq β → Option String
  | .metaPut key _ => some key
  | .metaDelete key => some key
  | _ => none

/-- The path whose file the call stores. -/
def EngineReq.putPath? ⦃β : Type⦄ : EngineReq β → Option Path
  | .filePut path _ _ => some path
  | _ => none

/-- The key whose entry the call stores. -/
def EngineReq.putKey? ⦃β : Type⦄ : EngineReq β → Option String
  | .metaPut key _ => some key
  | _ => none

namespace MemStore

variable {β : Type} {e : EngineReq β} {s : MemStore} {o : HubAnswers} {path : Path}

/-- A file changes only by a write to it. -/
theorem exec_files (h : e.filePath? ≠ some path) :
    (MemStore.exec e o s).2.files.lookup path = s.files.lookup path := by
  cases e with
  | filePut p data mtime =>
    exact AList.lookup_insert_ne fun hp => h (congrArg some hp.symm)
  | fileDelete p => exact AList.lookup_erase_ne fun hp => h (congrArg some hp.symm)
  | _ => rfl

/-- So does a path's metadata. -/
theorem exec_fileMeta? (h : e.metaKey? ≠ some (fileKey path)) :
    (MemStore.exec e o s).2.fileMeta? path = s.fileMeta? path := by
  cases e with
  | metaPut key value =>
    have hne : fileKey path ≠ key := fun hp => h (congrArg some hp.symm)
    simp only [MemStore.exec, fileMeta?, AList.lookup_insert_ne hne]
  | metaDelete key =>
    have hne : fileKey path ≠ key := fun hp => h (congrArg some hp.symm)
    simp only [MemStore.exec, fileMeta?, AList.lookup_erase_ne hne]
  | _ => rfl

end MemStore

namespace PullOverwrite

variable {ι : Type}

/-- The stores, and who has done what to them. -/
structure State (ι : Type) where
  store : MemStore
  clock : ℕ
  /-- When a record call made its first call; 0 before that. -/
  began : ι → ℕ
  /-- The revision it found then. -/
  found : ι → Option Rev
  /-- The upserts that have stored their path's file. -/
  fileWriters : List ι
  /-- The upserts that have stored their path's metadata. -/
  metaWriters : List ι

/-- Who makes a call: the pull, or one of the record calls. -/
abbrev Who (ι : Type) := Option ι

variable [DecidableEq ι] (calls : ι → LocalCall)

/-- What a call is noted as. -/
def State.note ⦃β : Type⦄ (s : State ι) : Who ι → EngineReq β → State ι
  | some i, .metaGet key =>
    if key = fileKey (calls i).path ∧ s.began i = 0 then
      { s with
        clock := s.clock + 1
        began := Function.update s.began i (s.clock + 1)
        found := Function.update s.found i
          ((s.store.fileMeta? (calls i).path).bind FileMeta.rev) }
    else s
  | some i, e =>
    { s with
      fileWriters := if e.putPath? = some (calls i).path then i :: s.fileWriters
        else s.fileWriters
      metaWriters := if e.putKey? = some (fileKey (calls i).path) then i :: s.metaWriters
        else s.metaWriters }
  | none, _ => s

/-- The stores never fail, the hubs answer anything. -/
def semantics : Semantics (Who ι) EngineReq HubAnswers Empty (State ι) where
  exec who _ e o s :=
    ((MemStore.exec e o s.store).1,
      { s.note calls who e with store := (MemStore.exec e o s.store).2 })
  env a _ := a.elim

/-- The writer may come after upsert `j`: it is a record call that began no
earlier. -/
def State.MayFollow (s : State ι) (j : ι) : Who ι → Prop
  | none => False
  | some i => s.began j ≤ s.began i

/-- **When nothing is overwritten.** The pull writes or removes no file and
no metadata that an upsert has stored before, and a record call none that
an upsert begun later has. -/
def NoneOvertaken : StepCond (Who ι) EngineReq HubAnswers Empty (State ι) where
  call who _ e _ s :=
    (∀ j ∈ s.fileWriters, e.filePath? = some (calls j).path → s.MayFollow j who) ∧
      ∀ j ∈ s.metaWriters, e.metaKey? = some (fileKey (calls j).path) → s.MayFollow j who
  env a _ := a.elim

instance (s : State ι) (j : ι) : ∀ who, Decidable (s.MayFollow j who)
  | none => .isFalse id
  | some i => inferInstanceAs (Decidable (s.began j ≤ s.began i))

instance (who : Who ι) (β : Type) (e : EngineReq β) (o : HubAnswers) (s : State ι) :
    Decidable ((NoneOvertaken calls).call who e o s) :=
  inferInstanceAs (Decidable ((∀ j ∈ s.fileWriters, _ → _) ∧ ∀ j ∈ s.metaWriters, _ → _))

instance (a : Empty) (s : State ι) : Decidable ((NoneOvertaken calls).env a s) := a.elim

/-- One pull and the record calls, all about to start. -/
def start (eng : SyncEngine) (store : MemStore) :
    Config (Who ι) EngineReq (Except SyncError Unit) (State ι) where
  task
    | none => (eng.pull >>= fun _ => pure () : Engine Unit).run
    | some i => ((calls i).record eng).run
  state := ⟨store, 0, fun _ => 0, fun _ => none, [], []⟩

/-- **Recorded content stands.** When an upsert has returned, every other
record call for its path began earlier, and its change is in the queue,
then the file has its content and the metadata the change's base. -/
def Stands (c : Config (Who ι) EngineReq (Except SyncError Unit) (State ι)) : Prop :=
  ∀ i path mtime contentType content, calls i = .upsert path mtime contentType content →
    (c.task (some i)).result? = some (.ok ()) →
    (∀ j, j ≠ i → (calls j).path = path → c.state.began j < c.state.began i) →
    ∀ change ∈ c.state.store.pending, change = (calls i).change (c.state.found i) →
      c.state.store.files.lookup path = some content ∧
        ∃ m, c.state.store.fileMeta? path = some m ∧ m.rev = change.baseRev

variable {calls} {i j : ι} {s s' : State ι} {who : Who ι} {β : Type} {e : EngineReq β}
  {o : HubAnswers}

/-! ## What a call is noted as -/

theorem note_began_of_ne (h : j ≠ i) : (s.note calls (some j) e).began i = s.began i := by
  cases e with
  | metaGet key =>
    simp only [State.note]
    split
    exacts [Function.update_of_ne h.symm _ _, rfl]
  | _ => rfl

theorem began_le_note (i : ι) : s.began i ≤ (s.note calls (some j) e).began i := by
  by_cases h : j = i
  · subst h
    cases e with
    | metaGet key =>
      simp only [State.note]
      split
      · rename_i hfirst
        rw [hfirst.2]
        exact Nat.zero_le _
      · exact le_rfl
    | _ => exact le_rfl
  · exact (note_began_of_ne h).ge

theorem note_found_of_ne (h : j ≠ i) : (s.note calls (some j) e).found i = s.found i := by
  cases e with
  | metaGet key =>
    simp only [State.note]
    split
    exacts [Function.update_of_ne h.symm _ _, rfl]
  | _ => rfl

theorem mem_note_fileWriters (h : i ∈ s.fileWriters) :
    i ∈ (s.note calls who e).fileWriters := by
  rcases who with _ | j
  · exact h
  · cases e with
    | metaGet key =>
      simp only [State.note]
      split <;> exact h
    | _ =>
      simp only [State.note]
      split
      exacts [List.mem_cons_of_mem _ h, h]

theorem mem_note_metaWriters (h : i ∈ s.metaWriters) :
    i ∈ (s.note calls who e).metaWriters := by
  rcases who with _ | j
  · exact h
  · cases e with
    | metaGet key =>
      simp only [State.note]
      split <;> exact h
    | _ =>
      simp only [State.note]
      split
      exacts [List.mem_cons_of_mem _ h, h]

/-! ## What record calls promise each other -/

variable (calls) in
/-- Another record call for the path of `i` began no earlier. -/
def Overtaken (i : ι) (s : State ι) : Prop :=
  ∃ j, j ≠ i ∧ (calls j).path = (calls i).path ∧ s.began i ≤ s.began j

variable (calls) in
/-- What record call `i` sees of another's step: once it has written its
file or its metadata, they change only if it is overtaken. -/
structure Seen (i : ι) (s s' : State ι) : Prop where
  began_eq : s'.began i = s.began i
  found_eq : s'.found i = s.found i
  began_le : ∀ j, s.began j ≤ s'.began j
  file : i ∈ s.fileWriters → i ∈ s'.fileWriters ∧
    (s'.store.files.lookup (calls i).path = s.store.files.lookup (calls i).path ∨
      Overtaken calls i s')
  fileMeta : i ∈ s.metaWriters → i ∈ s'.metaWriters ∧
    (s'.store.fileMeta? (calls i).path = s.store.fileMeta? (calls i).path ∨ Overtaken calls i s')

variable (calls) in
def contract : Contract (Who ι) (State ι) where
  rely who s s' := ∀ i, who = some i → Seen calls i s s'
  guar who s s' := ∀ i, who ≠ some i → Seen calls i s s'

theorem fits : (contract calls).Fits (semantics calls) (NoneOvertaken calls) where
  guar_rely _ _ hij _ _ h i hi := h i fun hw => hij (hw.trans hi.symm)
  env_rely _ a := a.elim

/-- The pull writes where no record call has. -/
theorem guar_pull (hcond : (NoneOvertaken calls).call none e o s) :
    (contract calls).guar none s ((semantics calls).exec none e o s).2 := fun i _ =>
  { began_eq := rfl
    found_eq := rfl
    began_le := fun _ => le_rfl
    file := fun hi => ⟨hi, .inl (MemStore.exec_files fun h => hcond.1 i hi h)⟩
    fileMeta := fun hi => ⟨hi, .inl (MemStore.exec_fileMeta? fun h => hcond.2 i hi h)⟩ }

/-- The call writes no file and no metadata but those of `path`. -/
def WritesOnly (path : Path) ⦃β : Type⦄ (e : EngineReq β) : Prop :=
  (∀ p, e.filePath? = some p → p = path) ∧ ∀ p, e.metaKey? = some (fileKey p) → p = path

theorem WritesOnly.of_none {path : Path} (hf : e.filePath? = none) (hm : e.metaKey? = none) :
    WritesOnly path e := by
  refine ⟨fun p hp => ?_, fun p hp => ?_⟩
  · rw [hf] at hp
    cases hp
  · rw [hm] at hp
    cases hp

/-- A record call writes where no later one has. -/
theorem guar_record (hown : WritesOnly (calls j).path e)
    (hcond : (NoneOvertaken calls).call (some j) e o s) :
    (contract calls).guar (some j) s ((semantics calls).exec (some j) e o s).2 := by
  intro i hi
  have hji : j ≠ i := fun h => hi (congrArg some h)
  have hover : s.began i ≤ s.began j → (calls i).path = (calls j).path →
      Overtaken calls i ((semantics calls).exec (some j) e o s).2 := fun hle hpath =>
    ⟨j, hji, hpath.symm, (note_began_of_ne hji).le.trans (hle.trans (began_le_note j))⟩
  refine ⟨note_began_of_ne hji, note_found_of_ne hji, began_le_note, fun hf => ?_, fun hm => ?_⟩
  · refine ⟨mem_note_fileWriters hf, ?_⟩
    by_cases hw : e.filePath? = some (calls i).path
    · exact .inr (hover (hcond.1 i hf hw) (hown.1 _ hw))
    · exact .inl (MemStore.exec_files hw)
  · refine ⟨mem_note_metaWriters hm, ?_⟩
    by_cases hw : e.metaKey? = some (fileKey (calls i).path)
    · exact .inr (hover (hcond.2 i hm hw) (hown.2 _ hw))
    · exact .inl (MemStore.exec_fileMeta? hw)

/-! ## What an upsert has done -/

variable (calls) in
/-- Record call `i` has written its file, and there it stands. -/
def Wrote (i : ι) (content : Bytes) (s : State ι) : Prop :=
  i ∈ s.fileWriters ∧
    (Overtaken calls i s ∨ s.store.files.lookup (calls i).path = some content)

variable (calls) in
/-- Record call `i` has written its metadata, and there it stands. -/
def Noted (i : ι) (m : FileMeta) (s : State ι) : Prop :=
  i ∈ s.metaWriters ∧ (Overtaken calls i s ∨ s.store.fileMeta? (calls i).path = some m)

omit [DecidableEq ι] in
theorem Overtaken.seen (h : Overtaken calls i s) (hs : Seen calls i s s') :
    Overtaken calls i s' := by
  obtain ⟨j, hj, hpath, hle⟩ := h
  exact ⟨j, hj, hpath, hs.began_eq.le.trans (hle.trans (hs.began_le j))⟩

omit [DecidableEq ι] in
theorem Wrote.seen {content : Bytes} (h : Wrote calls i content s) (hs : Seen calls i s s') :
    Wrote calls i content s' := by
  obtain ⟨hi, hover | hfile⟩ := h
  · exact ⟨(hs.file hi).1, .inl (hover.seen hs)⟩
  · exact ⟨(hs.file hi).1, (hs.file hi).2.symm.imp_right fun heq => heq.trans hfile⟩

omit [DecidableEq ι] in
theorem Noted.seen {m : FileMeta} (h : Noted calls i m s) (hs : Seen calls i s s') :
    Noted calls i m s' := by
  obtain ⟨hi, hover | hmeta⟩ := h
  · exact ⟨(hs.fileMeta hi).1, .inl (hover.seen hs)⟩
  · exact ⟨(hs.fileMeta hi).1, (hs.fileMeta hi).2.symm.imp_right fun heq => heq.trans hmeta⟩

/-! ## The record calls -/

/-- What an upsert knows once it has written: the revision it found, and
that its file and metadata stand. -/
structure Done (calls : ι → LocalCall) (i : ι) (baseRev : Option Rev) (content : Bytes)
    (m : FileMeta) (s : State ι) : Prop where
  found : s.found i = baseRev
  wrote : Wrote calls i content s
  noted : Noted calls i m s

omit [DecidableEq ι] in
theorem stable_done {baseRev : Option Rev} {content : Bytes} {m : FileMeta} :
    (contract calls).Stable (some i) (Done calls i baseRev content m) := fun _ _ h hr =>
  have hs := hr i rfl
  ⟨hs.found_eq.trans h.found, h.wrote.seen hs, h.noted.seen hs⟩

/-- The call touches bookkeeping of the queue only. -/
def QueueOnly ⦃β : Type⦄ : EngineReq β → Prop
  | .metaGet key => key = keyPending
  | .metaPut key _ => key = keyPending
  | .notifyError _ => True
  | _ => False

theorem QueueOnly.writesOnly (h : QueueOnly e) (path : Path) : WritesOnly path e := by
  cases e with
  | metaPut key value =>
    obtain rfl : key = keyPending := h
    refine ⟨fun p hp => ?_, fun p hp => absurd (Option.some.inj hp) (pending_ne_fileKey p)⟩
    cases hp
  | metaGet key => exact .of_none rfl rfl
  | notifyError error => exact .of_none rfl rfl
  | _ => exact h.elim

/-- A call on the queue undoes nothing of its own upsert. -/
theorem done_of_queueOnly {baseRev : Option Rev} {content : Bytes} {m : FileMeta}
    (he : QueueOnly e) (h : Done calls i baseRev content m s) :
    Done calls i baseRev content m ((semantics calls).exec (some i) e o s).2 := by
  have hstore : (MemStore.exec e o s.store).2.files.lookup (calls i).path =
        s.store.files.lookup (calls i).path ∧
      (MemStore.exec e o s.store).2.fileMeta? (calls i).path =
        s.store.fileMeta? (calls i).path := by
    constructor
    · refine MemStore.exec_files ?_
      cases e <;> first | exact he.elim | simp [EngineReq.filePath?]
    · refine MemStore.exec_fileMeta? ?_
      cases e with
      | metaPut key value =>
        obtain rfl : key = keyPending := he
        simp [EngineReq.metaKey?]
      | _ => first | exact he.elim | simp [EngineReq.metaKey?]
  have hnote : (s.note calls (some i) e).began = s.began ∧
      (s.note calls (some i) e).found = s.found := by
    cases e with
    | metaGet key =>
      obtain rfl : key = keyPending := he
      simp [State.note]
    | _ => exact ⟨rfl, rfl⟩
  obtain ⟨hfound, ⟨hfw, hfile⟩, ⟨hmw, hmeta⟩⟩ := h
  have hover : Overtaken calls i s →
      Overtaken calls i ((semantics calls).exec (some i) e o s).2 := by
    rintro ⟨j, hj, hpath, hle⟩
    refine ⟨j, hj, hpath, ?_⟩
    show (s.note calls (some i) e).began i ≤ (s.note calls (some i) e).began j
    rwa [hnote.1]
  refine ⟨?_, ⟨mem_note_fileWriters hfw, hfile.imp hover fun h => ?_⟩,
    ⟨mem_note_metaWriters hmw, hmeta.imp hover fun h => ?_⟩⟩
  · show (s.note calls (some i) e).found i = baseRev
    rw [hnote.2, hfound]
  · exact hstore.1.trans h
  · exact hstore.2.trans h

theorem queueOnly_upsertPending (c : PendingChange) :
    Fallible.All QueueOnly (SyncEngine.upsertPending c) := by
  refine .bind (.bind (SyncEngine.all_store rfl) fun r => ?_) fun _ => SyncEngine.all_store rfl
  cases r <;> exact Fallible.all_pure _

/-- Reading the revision a push will be based on. -/
theorem triple_knownRev (i : ι) :
    Triple (semantics calls) (NoneOvertaken calls) (contract calls) (some i)
      (fun s => s.began i = 0) (SyncEngine.knownRev (calls i).path).run
      fun r s => ∀ baseRev, r = .ok baseRev → s.found i = baseRev := by
  have hst : ∀ {ε : Type} (r : Except ε (Option Rev)), (contract calls).Stable (some i) fun s =>
      ∀ baseRev, r = .ok baseRev → s.found i = baseRev :=
    fun r s s' hs h baseRev hr => (h i rfl).found_eq.trans (hs baseRev hr)
  refine Triple.bindE (fun r s => ∀ baseRev,
    r.map (fun v => (v.bind Blob.toFileMeta?).bind FileMeta.rev) = .ok baseRev →
      s.found i = baseRev) (Triple.ask (fun r => hst _) fun o s hs hcond => ?_) (fun v => ?_)
    (fun e => hst _) fun e s _ baseRev h => by cases h
  · refine ⟨guar_record (.of_none rfl rfl) hcond, fun b hb => ?_⟩
    obtain rfl := Except.ok.inj hb
    simp [semantics, State.note, hs, MemStore.fileMeta?]
  · exact Triple.done (hst _) fun s hs => hs

/-- **What an upsert writes stands**, from its file on, while no later call
for its path is there. -/
theorem triple_apply {path : Path} {mtime : ℤ} {contentType : String} {content : Bytes}
    (hi : calls i = .upsert path mtime contentType content) (baseRev : Option Rev) :
    Triple (semantics calls) (NoneOvertaken calls) (contract calls) (some i)
      (fun s => s.found i = baseRev) ((calls i).apply baseRev).run
      fun r s => r = .ok () → Done calls i baseRev content ⟨baseRev, mtime, contentType⟩ s := by
  have hpath : (calls i).path = path := by rw [hi]; rfl
  have hwrote : ∀ r : Except SyncError Unit, (contract calls).Stable (some i) fun s =>
      r = .ok () → s.found i = baseRev ∧ Wrote calls i content s :=
    fun r s s' hs h hr =>
      ⟨(h i rfl).found_eq.trans (hs hr).1, (hs hr).2.seen (h i rfl)⟩
  have hdone : ∀ r : Except SyncError Unit, (contract calls).Stable (some i) fun s =>
      r = .ok () → Done calls i baseRev content ⟨baseRev, mtime, contentType⟩ s :=
    fun r s s' hs h hr => stable_done (hs hr) h
  rw [hi]
  unfold LocalCall.apply
  refine Triple.bindE _ (Triple.ask hwrote fun o s hs hcond => ?_) (fun _ => ?_)
    (fun _ => hwrote _) fun e s _ h => by cases h
  · refine ⟨guar_record ⟨fun p hp => ?_, fun p hp => by cases hp⟩ hcond, fun _ => ⟨hs, ?_, .inr ?_⟩⟩
    · rw [hpath]
      exact (Option.some.inj hp).symm
    · simp [semantics, State.note, EngineReq.putPath?, hpath]
    · rw [hpath]
      exact AList.lookup_insert _
  · refine Triple.ask hdone fun o s hs hcond => ?_
    obtain ⟨hfound, hfw, hfile⟩ := hs rfl
    refine ⟨guar_record ⟨fun p hp => ?_, fun p hp => ?_⟩ hcond, fun _ =>
      ⟨hfound, ⟨mem_note_fileWriters hfw, ?_⟩, ?_, .inr ?_⟩⟩
    · cases hp
    · rw [hpath]
      exact (fileKey_inj.1 (Option.some.inj hp)).symm
    · exact hfile
    · simp [semantics, State.note, EngineReq.putKey?, hpath]
    · rw [hpath]
      simp [semantics, MemStore.exec, MemStore.fileMeta?, Blob.toFileMeta?]

/-- Every record call keeps to its own path. -/
theorem writesOnly_record (eng : SyncEngine) (c : LocalCall) :
    Fallible.All (WritesOnly c.path) (c.record eng) := by
  have hqueue : ∀ ⦃β : Type⦄ (e : EngineReq β), QueueOnly e → WritesOnly c.path e :=
    fun _ _ h => h.writesOnly c.path
  rw [LocalCall.record_eq]
  refine SyncEngine.all_report (fun _ => .of_none rfl rfl) ?_
  refine .bind (.bind (SyncEngine.all_store (.of_none rfl rfl)) fun _ => Fallible.all_pure _)
    fun baseRev => .bind ?_ fun _ => Prog.All.mono hqueue (queueOnly_upsertPending _)
  have hfile : ∀ p q : Path, some q = some p → p = q := fun p q h => (Option.some.inj h).symm
  have hmeta : ∀ p q : Path, some (fileKey q) = some (fileKey p) → p = q := fun p q h =>
    (fileKey_inj.1 (Option.some.inj h)).symm
  cases c with
  | upsert path mtime contentType content =>
    refine .bind (SyncEngine.all_store ⟨fun p hp => hfile p path hp, fun p hp => ?_⟩)
      fun _ => SyncEngine.all_store ⟨fun p hp => ?_, fun p hp => hmeta p path hp⟩ <;> cases hp
  | delete path mtime =>
    refine .bind (SyncEngine.all_store ⟨fun p hp => hfile p path hp, fun p hp => ?_⟩)
      fun _ => SyncEngine.all_store ⟨fun p hp => ?_, fun p hp => hmeta p path hp⟩ <;> cases hp

variable (calls) in
/-- What a record call's return says. -/
def Returned (i : ι) (r : Except SyncError Unit) (s : State ι) : Prop :=
  ∀ path mtime contentType content, calls i = .upsert path mtime contentType content →
    r = .ok () → ∃ baseRev, Done calls i baseRev content ⟨baseRev, mtime, contentType⟩ s

theorem triple_record (eng : SyncEngine) (i : ι) :
    Triple (semantics calls) (NoneOvertaken calls) (contract calls) (some i)
      (fun s => s.began i = 0) ((calls i).record eng).run (Returned calls i) := by
  have hany : ∀ {α : Type} {p : Prog EngineReq α}, p.All (WritesOnly (calls i).path) →
      Triple (semantics calls) (NoneOvertaken calls) (contract calls) (some i)
        (fun _ => True) p fun _ _ => True := fun hp =>
    Triple.of_all (fun _ _ _ _ => trivial)
      (fun _ _ he _ _ _ hcond => ⟨guar_record he hcond, trivial⟩) hp
  cases hi : calls i with
  | delete path mtime =>
    rw [← hi]
    refine (hany (writesOnly_record eng (calls i))).conseq (fun _ _ => trivial) ?_
    intro r s _ path mtime contentType content hi'
    rw [hi] at hi'
    cases hi'
  | upsert path mtime contentType content =>
    have hdone : ∀ r : Except SyncError Unit, (contract calls).Stable (some i) fun s =>
        r = .ok () → ∃ b, Done calls i b content ⟨b, mtime, contentType⟩ s := by
      intro r s s' hs h hr
      obtain ⟨b, hb⟩ := hs hr
      exact ⟨b, stable_done hb h⟩
    have hinner : Triple (semantics calls) (NoneOvertaken calls) (contract calls) (some i)
        (fun s => s.began i = 0) (do
          let baseRev ← SyncEngine.knownRev (calls i).path
          (calls i).apply baseRev
          SyncEngine.upsertPending ((calls i).change baseRev) : Engine Unit).run
        fun r s => r = .ok () → ∃ b, Done calls i b content ⟨b, mtime, contentType⟩ s := by
      refine Triple.bindE _ (triple_knownRev i) (fun b => ?_)
        (fun e s s' hs h b hb => by cases hb) fun e s _ h => by cases h
      refine Triple.bindE _ ((triple_apply hi b).pre fun s hs => hs b rfl) (fun _ => ?_)
        (fun e s s' hs h hr => by cases hr) fun e s _ h => by cases h
      refine (Triple.of_all stable_done (fun _ _ he _ _ hs hcond =>
        ⟨guar_record (he.writesOnly _) hcond, done_of_queueOnly he hs⟩)
        (queueOnly_upsertPending _)).conseq (fun s hs => hs rfl) fun r s hs _ => ⟨b, hs⟩
    rw [← hi, LocalCall.record_eq]
    refine (SyncEngine.triple_report hdone (fun e o s _ hcond => ?_) hinner).post ?_
    · exact ⟨guar_record (.of_none rfl rfl) hcond, fun h => by cases h⟩
    · intro r s h path' mtime' contentType' content' hi' hr
      rw [hi] at hi'
      cases hi'
      exact h hr

/-- The pull promises what it does and returns nothing of interest. -/
theorem triple_pull (eng : SyncEngine) {P : State ι → Prop} :
    Triple (semantics calls) (NoneOvertaken calls) (contract calls) none P
      (eng.pull >>= fun _ => pure () : Engine Unit).run
      fun r s => ∀ i, none = some i → Returned calls i r s := by
  have hany : Triple (semantics calls) (NoneOvertaken calls) (contract calls) none
      (fun _ => True) (eng.pull >>= fun _ => pure () : Engine Unit).run fun _ _ => True :=
    Triple.of_all (fun _ _ _ _ => trivial)
      (fun _ _ _ _ _ _ hcond => ⟨guar_pull hcond, trivial⟩)
      (Prog.all_of_forall (fun _ _ => trivial) _)
  refine hany.conseq (fun _ _ => trivial) fun _ _ _ i hi => ?_
  cases hi

/-- **A pull destroys no recorded content**, in any run in which no file and
no metadata is written after an upsert that began later has stored it. -/
theorem recorded_content_stands (eng : SyncEngine) (calls : ι → LocalCall) (store : MemStore)
    (ms : List (Move (Who ι) HubAnswers Empty))
    (h : (start calls eng store).Meets (semantics calls) (NoneOvertaken calls) ms) :
    Stands calls ((start calls eng store).runs (semantics calls) ms) := by
  have hpool : PoolSafe (semantics calls) (NoneOvertaken calls) (contract calls)
      (fun who r s => ∀ i, who = some i → Returned calls i r s)
      ((start calls eng store).runs (semantics calls) ms) := by
    refine PoolSafe.runs fits (PoolSafe.init
      (P := fun who s => ∀ i, who = some i → s.began i = 0) ?_ (fun _ _ _ => rfl) ?_) h
    · intro who s s' hs hr i hi
      exact (hr i hi).began_eq.trans (hs i hi)
    · rintro (_ | i)
      · exact triple_pull eng
      · refine (triple_record eng i).conseq (fun s hs => hs i rfl) fun r s hs j hj => ?_
        cases hj
        exact hs
  intro i path mtime contentType content hi hret hlast change _ heq
  obtain ⟨baseRev, hfound, ⟨-, hfile⟩, ⟨-, hmeta⟩⟩ :=
    hpool.of_done (Prog.result?_eq_some.1 hret) i rfl path mtime contentType content hi rfl
  have hpath : (calls i).path = path := by rw [hi]; rfl
  have hnot : ¬ Overtaken calls i ((start calls eng store).runs (semantics calls) ms).state := by
    rintro ⟨j, hj, hpj, hle⟩
    exact absurd hle (not_le.2 (hlast j hj (hpj.trans hpath)))
  have hbase : change.baseRev = baseRev := by
    rw [heq, hi, ← hfound]
    rfl
  rw [← hpath, hbase]
  exact ⟨hfile.resolve_left hnot, _, hmeta.resolve_left hnot, rfl⟩

/-! ## A run that destroys content -/

def oneUpsert : Unit → LocalCall := fun _ => .upsert "a" 1 "text/plain" [1]

/-- The hub has a file `a` of its own. -/
def hubHasA : HubAnswers where
  changes := .ok ⟨[⟨"a", false, ⟨2, "x"⟩⟩], 1⟩
  file := .ok (some ⟨some ⟨2, "x"⟩, 9, "text/plain", [9]⟩)
  push := .error (.transport "")

/-- The pull finds nothing queued and fetches; the upsert is recorded; the
pull writes what it fetched. -/
def recordDuringPull : List (Move (Who Unit) HubAnswers Empty) :=
  List.replicate 4 (.run none hubHasA) ++ List.replicate 5 (.run (some ()) hubHasA) ++
    List.replicate 3 (.run none hubHasA)

/-- **Content recorded while the pull fetches is destroyed**: both calls
succeed, the change is queued, and the file is the hub's. -/
theorem content_recorded_during_pull_destroyed :
    let c := (start oneUpsert (oneHub false) MemStore.empty).runs (semantics oneUpsert) recordDuringPull
    (∀ who, (c.task who).result? = some (.ok ())) ∧
      c.state.store.pending = [⟨"a", false, none, 1, some "text/plain"⟩] ∧
      c.state.store.files.lookup "a" = some [9] ∧ ¬ Stands oneUpsert c := by
  refine ⟨by decide +kernel, by decide +kernel, by decide +kernel, fun h => ?_⟩
  have hfile := (h () "a" 1 "text/plain" [1] rfl (by decide +kernel)
    (fun j hj => absurd rfl hj) ⟨"a", false, none, 1, some "text/plain"⟩ (by decide +kernel)
    (by decide +kernel)).1
  exact absurd hfile (by decide +kernel)

/-- The upsert is recorded before the pull looks at the queue. -/
def recordBeforePull : List (Move (Who Unit) HubAnswers Empty) :=
  List.replicate 5 (.run (some ()) hubHasA) ++ List.replicate 4 (.run none hubHasA)

theorem content_recorded_before_pull_stands :
    Stands oneUpsert
      ((start oneUpsert (oneHub false) MemStore.empty).runs (semantics oneUpsert) recordBeforePull) :=
  recorded_content_stands (oneHub false) oneUpsert MemStore.empty recordBeforePull (by decide +kernel)

end PullOverwrite

end FileSync
