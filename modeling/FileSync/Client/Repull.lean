import FileSync.Client.Faults
/-!
# Pulling again

A pull that fails half-way leaves files of the batch written and its
checkpoint where it was, so the next one gets the batch again. Each entry
overwrites what it finds under its path, so going through the batch once
more from the start ends where going through it once would have.

The hub's answers are fixed beforehand, one for each request, and any
operation may fail before or after it has taken place.
-/

namespace FileSync

namespace MemStore

/-- A change is queued for the path. -/
def Queues (s : MemStore) (path : Path) : Prop := ∃ p ∈ s.pending, p.path = path

instance (s : MemStore) (path : Path) : Decidable (s.Queues path) :=
  inferInstanceAs (Decidable (∃ p ∈ _, _))

/-- Nothing differs but the files of `P` and one hub's checkpoint. -/
structure Within (hub : HubId) (P : Path → Prop) (s s' : MemStore) : Prop where
  blobs : ∀ key, key ≠ checkpointKey hub → (∀ p, P p → key ≠ fileKey p) →
    s'.blobs.lookup key = s.blobs.lookup key
  files : ∀ p, ¬ P p → s'.files.lookup p = s.files.lookup p

/-- The file and the metadata of a path are those of `o`, both absent if it
is `none`. -/
structure Holds (s : MemStore) (path : Path) (o : Option FileContent) : Prop where
  file : s.files.lookup path = o.map FileContent.content
  fileMeta : s.blobs.lookup (fileKey path) =
    o.map fun f => .fileMeta ⟨f.rev, f.mtime, f.contentType⟩

/-- Put `o` under a path. -/
def assign (s : MemStore) (path : Path) : Option FileContent → MemStore
  | none => ⟨s.blobs.erase (fileKey path), s.files.erase path⟩
  | some f => ⟨s.blobs.insert (fileKey path) (.fileMeta ⟨f.rev, f.mtime, f.contentType⟩),
      s.files.insert path f.content⟩

/-- Both stores hold the same under every key and path. -/
structure Same (s s' : MemStore) : Prop where
  blobs : ∀ key, s'.blobs.lookup key = s.blobs.lookup key
  files : ∀ p, s'.files.lookup p = s.files.lookup p

namespace Within

variable {hub : HubId} {P P' : Path → Prop} {s s' s₁ : MemStore} {path : Path}

theorem refl : Within hub P s s := ⟨fun _ _ _ => rfl, fun _ _ => rfl⟩

theorem mono (h : Within hub P s s') (hP : ∀ p, P p → P' p) : Within hub P' s s' :=
  ⟨fun key hk hp => h.blobs key hk fun p hpp => hp p (hP p hpp),
    fun p hp => h.files p fun hpp => hp (hP p hpp)⟩

theorem trans (h : Within hub P s s₁) (h' : Within hub P s₁ s') : Within hub P s s' :=
  ⟨fun key hk hp => (h'.blobs key hk hp).trans (h.blobs key hk hp),
    fun p hp => (h'.files p hp).trans (h.files p hp)⟩

theorem pending (h : Within hub P s s') : s'.pending = s.pending := by
  unfold MemStore.pending
  rw [h.blobs keyPending (pending_ne_checkpointKey hub) fun p _ => pending_ne_fileKey p]

theorem queues (h : Within hub P s s') : s'.Queues path ↔ s.Queues path := by
  unfold Queues
  rw [h.pending]

theorem fileMeta (h : Within hub P s s') {p : Path} (hp : ¬ P p) :
    s'.blobs.lookup (fileKey p) = s.blobs.lookup (fileKey p) :=
  h.blobs _ (fileKey_ne_checkpointKey p hub) fun _ hq heq => hp (fileKey_inj.1 heq ▸ hq)

/-- A file written. -/
theorem files_insert {c : Bytes} (hp : P path) :
    Within hub P s { s with files := s.files.insert path c } :=
  ⟨fun _ _ _ => rfl, fun _ hne => AList.lookup_insert_ne fun h => hne (h ▸ hp)⟩

theorem files_erase (hp : P path) : Within hub P s { s with files := s.files.erase path } :=
  ⟨fun _ _ _ => rfl, fun _ hne => AList.lookup_erase_ne fun h => hne (h ▸ hp)⟩

theorem blobs_insert {b : Blob} (hp : P path) :
    Within hub P s { s with blobs := s.blobs.insert (fileKey path) b } :=
  ⟨fun _ _ hkey => AList.lookup_insert_ne (hkey path hp), fun _ _ => rfl⟩

theorem blobs_erase (hp : P path) :
    Within hub P s { s with blobs := s.blobs.erase (fileKey path) } :=
  ⟨fun _ _ hkey => AList.lookup_erase_ne (hkey path hp), fun _ _ => rfl⟩

/-- **The same put under one path of both**: they no longer differ there. -/
theorem assign {o : Option FileContent} (h : Within hub P s s')
    (hP : ∀ p, P p → p ≠ path → P' p) : Within hub P' (s.assign path o) (s'.assign path o) := by
  have hblobs : ∀ key, key ≠ checkpointKey hub → (∀ p, P' p → key ≠ fileKey p) →
      key ≠ fileKey path → s'.blobs.lookup key = s.blobs.lookup key := by
    intro key hk hkey hne
    refine h.blobs key hk fun p hp hkp => hkey p (hP p hp fun hpath => ?_) hkp
    exact hne (hpath ▸ hkp)
  have hfiles : ∀ p, ¬ P' p → p ≠ path → s'.files.lookup p = s.files.lookup p := fun p hp hne =>
    h.files p fun hpp => hp (hP p hpp hne)
  cases o with
  | none =>
    refine ⟨fun key hk hkey => ?_, fun p hp => ?_⟩
    · by_cases heq : key = fileKey path
      · subst heq
        simp [MemStore.assign]
      · simp [MemStore.assign, AList.lookup_erase_ne heq, hblobs key hk hkey heq]
    · by_cases heq : p = path
      · subst heq
        simp [MemStore.assign]
      · simp [MemStore.assign, AList.lookup_erase_ne heq, hfiles p hp heq]
  | some f =>
    refine ⟨fun key hk hkey => ?_, fun p hp => ?_⟩
    · by_cases heq : key = fileKey path
      · subst heq
        simp [MemStore.assign]
      · simp [MemStore.assign, AList.lookup_insert_ne heq, hblobs key hk hkey heq]
    · by_cases heq : p = path
      · subst heq
        simp [MemStore.assign]
      · simp [MemStore.assign, AList.lookup_insert_ne heq, hfiles p hp heq]

theorem assigned {o : Option FileContent} (hp : P path) : Within hub P s (s.assign path o) := by
  cases o with
  | none => exact (files_erase hp).trans (blobs_erase hp)
  | some f => exact (files_insert hp).trans (blobs_insert hp)

theorem checkpoint_insert {b : Blob} :
    Within hub P s { s with blobs := s.blobs.insert (checkpointKey hub) b } :=
  ⟨fun _ hkey _ => AList.lookup_insert_ne hkey, fun _ _ => rfl⟩

end Within

variable {s : MemStore} {path p : Path} {o o' : Option FileContent}

theorem pending_assign : (s.assign path o).pending = s.pending := by
  cases o <;> simp [assign, pending]

theorem checkpoint_assign {hub : HubId} : (s.assign path o).blobs.lookup (checkpointKey hub) =
    s.blobs.lookup (checkpointKey hub) := by
  cases o with
  | none => exact AList.lookup_erase_ne (checkpointKey_ne_fileKey hub _)
  | some f => exact AList.lookup_insert_ne (checkpointKey_ne_fileKey hub _)

/-- What is put under a path is there, -/
theorem holds_assign (s : MemStore) (path : Path) (o : Option FileContent) :
    (s.assign path o).Holds path o := by
  cases o <;> exact ⟨by simp [assign], by simp [assign]⟩

/-- and the other paths hold what they held. -/
theorem Holds.assign_of_ne (h : s.Holds p o) (hne : p ≠ path) : (s.assign path o').Holds p o := by
  have hkey : fileKey p ≠ fileKey path := by simpa using hne
  cases o' with
  | none =>
    exact ⟨(AList.lookup_erase_ne hne).trans h.file, (AList.lookup_erase_ne hkey).trans h.fileMeta⟩
  | some f =>
    exact ⟨(AList.lookup_insert_ne hne).trans h.file, (AList.lookup_insert_ne hkey).trans h.fileMeta⟩

end MemStore

namespace Repull

open MemStore

variable {H : HubScript} {hub : HubId} {s₀ s : MemStore} {entry : ChangeEntry}
  {before entries : List ChangeEntry} {path : Path} {α : Type}

/-! ## What an entry leaves -/

/-- The requests for files that going through the entries takes. -/
def fetches (s₀ : MemStore) (entries : List ChangeEntry) : ℕ :=
  (entries.filter fun e => !e.deleted && !decide (s₀.Queues e.path)).length

/-- What the entry that comes after `before` leaves under its path: nothing
for a deletion, else the file the hub answers. -/
def Outcome (H : HubScript) (s₀ : MemStore) (before : List ChangeEntry) (entry : ChangeEntry)
    (o : Option FileContent) : Prop :=
  if entry.deleted then o = none
  else ∃ f, o = some f ∧ H.file (fetches s₀ before) = .ok (some f)

/-- A path with an entry and nothing queued for it. -/
def Pulled (s₀ : MemStore) (entries : List ChangeEntry) (path : Path) : Prop :=
  ¬ s₀.Queues path ∧ ∃ e ∈ entries, e.path = path

/-- **Every path pulled holds what its last entry leaves.** -/
def Durable (H : HubScript) (s₀ : MemStore) (entries : List ChangeEntry) (s : MemStore) : Prop :=
  ∀ before entry after, entries = before ++ entry :: after →
    (∀ e ∈ after, e.path ≠ entry.path) → ¬ s₀.Queues entry.path →
      ∃ o, Outcome H s₀ before entry o ∧ s.Holds entry.path o

theorem fetches_append (e : ChangeEntry) : fetches s₀ (before ++ [e]) =
    fetches s₀ before + if e.deleted = false ∧ ¬ s₀.Queues e.path then 1 else 0 := by
  rw [fetches, List.filter_append, List.length_append, ← fetches]
  by_cases h : e.deleted = false ∧ ¬ s₀.Queues e.path
  · simp [h.1, h.2]
  · rw [if_neg h]
    by_cases hd : e.deleted = true
    · simp [hd]
    · simp only [Bool.not_eq_true] at hd
      have hq : s₀.Queues e.path := by
        by_contra hq
        exact h ⟨hd, hq⟩
      simp [hq]

theorem Pulled.append_left (h : Pulled s₀ before path) : Pulled s₀ (before ++ entries) path :=
  ⟨h.1, h.2.imp fun _ he => ⟨List.mem_append_left _ he.1, he.2⟩⟩

theorem pulled_last (before : List ChangeEntry) (h : ¬ s₀.Queues entry.path) : Pulled s₀ (before ++ [entry]) entry.path :=
  ⟨h, entry, List.mem_append_right _ List.mem_cons_self, rfl⟩

/-- One more entry: its own path holds what it leaves, the others are not
touched. -/
theorem Durable.append {s' : MemStore} (h : Durable H s₀ before s)
    (hother : ∀ p o, p ≠ entry.path → s.Holds p o → s'.Holds p o)
    (hentry : ¬ s₀.Queues entry.path →
      ∃ o, Outcome H s₀ before entry o ∧ s'.Holds entry.path o) :
    Durable H s₀ (before ++ [entry]) s' := by
  intro b e after heq hlast hq
  rcases List.eq_nil_or_concat after with rfl | ⟨after', e', rfl⟩
  · obtain ⟨rfl, hcons⟩ := List.append_inj' heq (by simp)
    obtain rfl := (List.cons.inj hcons).1
    exact hentry hq
  · rw [List.concat_eq_append, ← List.cons_append, ← List.append_assoc] at heq
    obtain ⟨rfl, hcons⟩ := List.append_inj' heq (by simp)
    obtain rfl := (List.cons.inj hcons).1
    obtain ⟨o, ho, hs⟩ := h b e after' rfl (fun x hx => hlast x (by simp [hx])) hq
    exact ⟨o, ho, hother _ _ (hlast entry (by simp)).symm hs⟩

/-! ## Pulling with failures -/

/-- The stores, and how often a file was asked for. -/
structure Attempt where
  store : MemStore
  asked : ℕ

/-- What an operation does when it is done. -/
def answer (H : HubScript) ⦃β : Type⦄ (e : EngineReq β) (a : Attempt) : β × Attempt :=
  let r := MemStore.exec e ⟨H.changes, H.file a.asked, .error (.transport "")⟩ a.store
  (r.1, ⟨r.2, match e with
    | .hubGetFile _ _ => a.asked + 1
    | _ => a.asked⟩)

/-- Any operation may fail. -/
def semantics (H : HubScript) : Semantics Unit EngineReq Fate Empty Attempt where
  exec _ _ e fate a := fate.deal e (answer H e a) a
  env a := a.elim

def start (hub : HubId) (s : MemStore) :
    Config Unit EngineReq (Except SyncError PullReport) Attempt :=
  ⟨fun _ => (SyncEngine.pullFrom hub).run, ⟨s, 0⟩⟩

/-- What holds at every moment of a pull from `s₀`. -/
structure Kept (H : HubScript) (hub : HubId) (s₀ : MemStore) (a : Attempt) : Prop where
  within : Within hub (Pulled s₀ H.entries) s₀ a.store
  checkpoint : a.store.blobs.lookup (checkpointKey hub) = s₀.blobs.lookup (checkpointKey hub) ∨
    ∃ resp, H.changes = .ok resp ∧
      a.store.blobs.lookup (checkpointKey hub) = some (.checkpoint resp.checkpoint) ∧
      Durable H s₀ resp.changes a.store

/-- What holds once the entries of `before` have been gone through. -/
structure Through (H : HubScript) (hub : HubId) (s₀ : MemStore) (before : List ChangeEntry)
    (a : Attempt) : Prop where
  within : Within hub (Pulled s₀ before) s₀ a.store
  checkpoint : a.store.blobs.lookup (checkpointKey hub) = s₀.blobs.lookup (checkpointKey hub)
  durable : Durable H s₀ before a.store
  asked : a.asked = fetches s₀ before

theorem Through.kept {a : Attempt} (h : Through H hub s₀ before a) (entries : List ChangeEntry)
    (hentries : H.entries = before ++ entries) : Kept H hub s₀ a :=
  ⟨h.within.mono fun _ hp => hentries ▸ hp.append_left, .inl h.checkpoint⟩

/-- What a part of the pull does, whatever fails in it. -/
abbrev PullDoes (H : HubScript) (hub : HubId) (s₀ : MemStore) (P : Attempt → Prop) (x : Engine α)
    (M : α → Attempt → Prop) : Prop :=
  Does (semantics H) StepCond.any (.solo (Kept H hub s₀)) () (fun _ e => .perform e) P x
    (Post (Kept H hub s₀) M)

/-- **One operation**, which may fail. -/
theorem does_call {ε : Type} {P : Attempt → Prop} {M : α → Attempt → Prop}
    {g : ε → SyncError} {e : EngineReq (Except ε α)} (hfail : ∃ x, e.failure = .error x)
    (hP : ∀ a, P a → Kept H hub s₀ a) (hstep : ∀ a, P a → Kept H hub s₀ (answer H e a).2 ∧
      ∀ b, (answer H e a).1 = .ok b → M b (answer H e a).2) :
    PullDoes H hub s₀ P (.ask g e) M := by
  refine Does.ask_perform rfl Contract.solo_stable (fun _ => Contract.solo_stable)
    fun fate a ha _ => ?_
  obtain ⟨hkept, hM⟩ := hstep a ha
  have hstate : Kept H hub s₀ ((semantics H).exec () e fate a).2 := by
    show Kept H hub s₀ (fate.deal e (answer H e a) a).2
    rcases Fate.deal_snd fate e (answer H e a) a with h | h
    · rw [h]
      exact hP a ha
    · rw [h]
      exact hkept
  refine ⟨hstate, fun b hb => ?_, fun _ _ => hstate⟩
  obtain ⟨hok, hsnd⟩ := Fate.of_ok hfail hb
  exact hsnd ▸ hM b hok

theorem does_pure {P : Attempt → Prop} {M : α → Attempt → Prop} {b : α} (h : ∀ a, P a → M b a) :
    PullDoes H hub s₀ P (pure b : Engine α) M :=
  Does.pure Contract.solo_stable h

/-- Looking a path up in the queue. -/
theorem does_pendingContains (hentries : H.entries = before ++ entries) :
    PullDoes H hub s₀ (Through H hub s₀ before) (SyncEngine.pendingContains path) fun b a =>
      Through H hub s₀ before a ∧ b = decide (s₀.Queues path) := by
  have hload : PullDoes H hub s₀ (Through H hub s₀ before) SyncEngine.loadPending fun l a =>
      Through H hub s₀ before a ∧ l = s₀.pending := by
    refine Does.bind (fun v a => Through H hub s₀ before a ∧
      (v.bind Blob.toQueue?).getD [] = s₀.pending) Contract.solo_stable
      (does_call ⟨_, rfl⟩ (fun _ h => h.kept _ hentries) fun a ha => ⟨ha.kept _ hentries, ?_⟩)
      fun v => ?_
    · rintro v ⟨⟩
      exact ⟨ha, ha.within.pending⟩
    · cases v with
      | none => exact does_pure fun a h => h
      | some bytes => exact does_pure fun a h => h
  refine Does.bind _ Contract.solo_stable hload fun l => does_pure fun a ⟨ha, hl⟩ => ⟨ha, ?_⟩
  rw [hl, Bool.eq_iff_iff, decide_eq_true_iff]
  simp [Queues]

/-- Nothing but the entry's own path has been touched since the entries before
it. -/
theorem Through.kept_amid {a : Attempt} {s' : MemStore} {n : ℕ} (h : Through H hub s₀ before a)
    (hentries : H.entries = before ++ [entry] ++ entries)
    (hw : Within hub (Pulled s₀ (before ++ [entry])) a.store s')
    (hc : s'.blobs.lookup (checkpointKey hub) = a.store.blobs.lookup (checkpointKey hub)) :
    Kept H hub s₀ ⟨s', n⟩ := by
  have hwithin : Within hub (Pulled s₀ (before ++ [entry])) s₀ s' :=
    (h.within.mono fun _ hp => hp.append_left).trans hw
  exact ⟨hwithin.mono fun _ hp => hentries ▸ hp.append_left, .inl (hc.trans h.checkpoint)⟩

/-- An entry whose path has a change queued is left out. -/
theorem Through.skipped {a : Attempt} (h : Through H hub s₀ before a)
    (hq : s₀.Queues entry.path) : Through H hub s₀ (before ++ [entry]) a := by
  refine ⟨h.within.mono fun _ hp => hp.append_left, h.checkpoint,
    h.durable.append (fun _ _ _ hp => hp) fun hn => absurd hq hn, ?_⟩
  rw [fetches_append, if_neg (fun hp => hp.2 hq), h.asked, Nat.add_zero]

/-- Any other has been gone through once its path holds what it leaves. -/
theorem Through.applied {a : Attempt} {o : Option FileContent} {n : ℕ}
    (h : Through H hub s₀ before a) (hq : ¬ s₀.Queues entry.path)
    (ho : Outcome H s₀ before entry o)
    (hn : n = a.asked + if entry.deleted = false then 1 else 0) :
    Through H hub s₀ (before ++ [entry]) ⟨a.store.assign entry.path o, n⟩ := by
  have hpath : Pulled s₀ (before ++ [entry]) entry.path := pulled_last before hq
  refine ⟨(h.within.mono fun _ hp => hp.append_left).trans (.assigned hpath),
    checkpoint_assign.trans h.checkpoint, ?_, ?_⟩
  · exact h.durable.append (fun p o' hne hp => hp.assign_of_ne hne) fun _ =>
      ⟨o, ho, holds_assign _ _ _⟩
  · rw [fetches_append, ← h.asked, hn]
    simp [hq]

/-- **A deletion**: the file goes first, then its metadata. -/
theorem does_deleted {rep : PullReport} (hentries : H.entries = before ++ [entry] ++ entries)
    (hdeleted : entry.deleted = true) :
    PullDoes H hub s₀ (fun a => Through H hub s₀ before a ∧ ¬ s₀.Queues entry.path)
      (do
        SyncEngine.store (.fileDelete entry.path)
        SyncEngine.store (.metaDelete (fileKey entry.path))
        return rep) fun _ => Through H hub s₀ (before ++ [entry]) := by
  have hentries' : H.entries = before ++ entry :: entries := by simpa using hentries
  have hmid : ∀ a, Through H hub s₀ before a → ¬ s₀.Queues entry.path →
      Kept H hub s₀ ⟨{ a.store with files := a.store.files.erase entry.path }, a.asked⟩ :=
    fun a ha hq => ha.kept_amid hentries (.files_erase (pulled_last before hq)) rfl
  refine Does.bind (fun _ a => ¬ s₀.Queues entry.path ∧ ∃ a₀, Through H hub s₀ before a₀ ∧
    a = ⟨{ a₀.store with files := a₀.store.files.erase entry.path }, a₀.asked⟩)
    Contract.solo_stable (does_call ⟨_, rfl⟩ (fun _ h => h.1.kept _ hentries')
      fun a ⟨ha, hq⟩ => ⟨hmid a ha hq, fun _ _ => ⟨hq, a, ha, rfl⟩⟩) fun _ => ?_
  refine Does.bind (fun _ => Through H hub s₀ (before ++ [entry])) Contract.solo_stable
    (does_call ⟨_, rfl⟩ ?_ ?_) fun _ => does_pure fun _ h => h
  · rintro a ⟨hq, a₀, ha, rfl⟩
    exact hmid a₀ ha hq
  · rintro a ⟨hq, a₀, ha, rfl⟩
    have hdone : Through H hub s₀ (before ++ [entry])
        ⟨a₀.store.assign entry.path none, a₀.asked⟩ :=
      ha.applied hq (by rw [Outcome, if_pos hdeleted]) (by simp [hdeleted])
    exact ⟨hdone.kept entries hentries, fun _ _ => hdone⟩

/-- **A file that was fetched**: it is written first, then its metadata. -/
theorem does_written {rep : PullReport} {file : FileContent}
    (hentries : H.entries = before ++ [entry] ++ entries) (hdeleted : ¬ entry.deleted = true) :
    PullDoes H hub s₀ (fun a => ¬ s₀.Queues entry.path ∧ ∃ a₀, Through H hub s₀ before a₀ ∧
        H.file a₀.asked = .ok (some file) ∧ a = ⟨a₀.store, a₀.asked + 1⟩)
      (do
        SyncEngine.store (.filePut entry.path file.content file.mtime)
        SyncEngine.store (.metaPut (fileKey entry.path)
          (.fileMeta ⟨file.rev, file.mtime, file.contentType⟩))
        return rep) fun _ => Through H hub s₀ (before ++ [entry]) := by
  have hmid : ∀ a, Through H hub s₀ before a → ¬ s₀.Queues entry.path → Kept H hub s₀
      ⟨{ a.store with files := a.store.files.insert entry.path file.content }, a.asked + 1⟩ :=
    fun a ha hq => ha.kept_amid hentries (.files_insert (pulled_last before hq)) rfl
  refine Does.bind (fun _ a => ¬ s₀.Queues entry.path ∧ ∃ a₀, Through H hub s₀ before a₀ ∧
    H.file a₀.asked = .ok (some file) ∧
    a = ⟨{ a₀.store with files := a₀.store.files.insert entry.path file.content },
      a₀.asked + 1⟩) Contract.solo_stable (does_call ⟨_, rfl⟩ ?_ ?_) fun _ => ?_
  · rintro a ⟨hq, a₀, ha, -, rfl⟩
    exact ha.kept_amid hentries .refl rfl
  · rintro a ⟨hq, a₀, ha, hfile, rfl⟩
    exact ⟨hmid a₀ ha hq, fun _ _ => ⟨hq, a₀, ha, hfile, rfl⟩⟩
  refine Does.bind (fun _ => Through H hub s₀ (before ++ [entry])) Contract.solo_stable
    (does_call ⟨_, rfl⟩ ?_ ?_) fun _ => does_pure fun _ h => h
  · rintro a ⟨hq, a₀, ha, -, rfl⟩
    exact hmid a₀ ha hq
  · rintro a ⟨hq, a₀, ha, hfile, rfl⟩
    have houtcome : Outcome H s₀ before entry (some file) := by
      rw [Outcome, if_neg hdeleted]
      exact ⟨file, rfl, ha.asked ▸ hfile⟩
    have hdone : Through H hub s₀ (before ++ [entry])
        ⟨a₀.store.assign entry.path (some file), a₀.asked + 1⟩ :=
      ha.applied hq houtcome (by simp [hdeleted])
    exact ⟨hdone.kept entries hentries, fun _ _ => hdone⟩

/-- **One entry**, its operations failing or not. -/
theorem does_applyRemote {rep : PullReport}
    (hentries : H.entries = before ++ [entry] ++ entries) :
    PullDoes H hub s₀ (Through H hub s₀ before) (SyncEngine.applyRemote hub entry rep) fun _ =>
      Through H hub s₀ (before ++ [entry]) := by
  have hentries' : H.entries = before ++ entry :: entries := by simpa using hentries
  refine Does.bind _ Contract.solo_stable (does_pendingContains hentries') fun queued => ?_
  split
  · rename_i hqueued
    exact does_pure fun a ⟨ha, hq⟩ => ha.skipped (by simpa [hqueued] using hq.symm)
  rename_i hqueued
  refine Does.pre (P := fun a => Through H hub s₀ before a ∧ ¬ s₀.Queues entry.path) ?_
    fun a ⟨ha, hq⟩ => ⟨ha, fun h => hqueued (by rw [hq]; simpa using h)⟩
  split
  · rename_i hdeleted
    exact does_deleted hentries hdeleted
  rename_i hdeleted
  -- the file is asked for before anything is written
  refine Does.bind (fun file a => ¬ s₀.Queues entry.path ∧ ∃ a₀, Through H hub s₀ before a₀ ∧
    H.file a₀.asked = .ok file ∧ a = ⟨a₀.store, a₀.asked + 1⟩)
    Contract.solo_stable (does_call ⟨_, rfl⟩ (fun _ h => h.1.kept _ hentries')
      fun a ⟨ha, hq⟩ => ⟨ha.kept_amid hentries .refl rfl, fun file hfile =>
        ⟨hq, a, ha, hfile, rfl⟩⟩) fun file => ?_
  cases file with
  | none =>
    refine Does.throw Contract.solo_stable ?_
    rintro a ⟨-, a₀, ha, -, rfl⟩
    exact ha.kept_amid hentries .refl rfl
  | some file => exact does_written hentries hdeleted

/-- **The whole batch.** -/
theorem does_applyAll (before : List ChangeEntry) {rep : PullReport}
    (hentries : H.entries = before ++ entries) :
    PullDoes H hub s₀ (Through H hub s₀ before) (SyncEngine.applyAll hub entries rep) fun _ =>
      Through H hub s₀ (before ++ entries) := by
  induction entries generalizing before rep with
  | nil => exact does_pure fun a h => by simpa using h
  | cons entry entries ih =>
    have hentries' : H.entries = before ++ [entry] ++ entries := by simpa using hentries
    refine Does.bind _ Contract.solo_stable (does_applyRemote hentries') fun rep => ?_
    have hrest : PullDoes H hub s₀ (Through H hub s₀ (before ++ [entry]))
        (SyncEngine.applyAll hub entries rep) fun _ =>
          Through H hub s₀ (before ++ [entry] ++ entries) := ih _ hentries'
    rwa [List.append_assoc] at hrest

theorem through_nil : Through H hub s₀ [] ⟨s₀, 0⟩ where
  within := .refl
  checkpoint := rfl
  durable b e after heq := by simp at heq
  asked := rfl

/-- **The pull**: the checkpoint moves last. -/
theorem does_pullFrom :
    PullDoes H hub s₀ (Through H hub s₀ []) (SyncEngine.pullFrom hub) fun _ =>
      Kept H hub s₀ := by
  have hempty : ∀ a, Through H hub s₀ [] a → Kept H hub s₀ a := fun a ha =>
    ha.kept H.entries rfl
  refine Does.bind (fun _ => Through H hub s₀ []) Contract.solo_stable
    (does_call ⟨_, rfl⟩ hempty fun a ha => ⟨hempty a ha, fun _ _ => ha⟩) fun since => ?_
  refine Does.bind (fun resp a => H.changes = .ok resp ∧ Through H hub s₀ [] a)
    Contract.solo_stable
    (does_call ⟨_, rfl⟩ hempty fun a ha => ⟨hempty a ha, fun resp hr => ⟨hr, ha⟩⟩) fun resp => ?_
  by_cases hresp : H.changes = .ok resp
  swap
  · exact fun a ha => absurd ha.1 hresp
  have hentries := HubScript.entries_of_ok hresp
  refine Does.bind (fun _ => Through H hub s₀ resp.changes) Contract.solo_stable
    ((does_applyAll [] hentries).pre fun _ h => h.2) fun rep => ?_
  have hdone : ∀ a, Through H hub s₀ resp.changes a → Kept H hub s₀ a := fun a ha =>
    ha.kept [] (by simpa using hentries)
  refine Does.bind (fun _ => Kept H hub s₀) Contract.solo_stable
    (does_call ⟨_, rfl⟩ hdone fun a ha => ?_) fun _ => does_pure fun _ h => h
  have hkept : Kept H hub s₀ (answer H (.metaPut (checkpointKey hub)
      (.checkpoint resp.checkpoint)) a).2 := by
    refine ⟨((hdone a ha).within).trans .checkpoint_insert, .inr ⟨resp, hresp,
      AList.lookup_insert _, fun b e after heq hlast hq => ?_⟩⟩
    obtain ⟨o, ho, hs⟩ := ha.durable b e after heq hlast hq
    exact ⟨o, ho, hs.file,
      (AList.lookup_insert_ne (fileKey_ne_checkpointKey _ hub)).trans hs.fileMeta⟩
  exact ⟨hkept, fun _ _ => hkept⟩

/-- At every moment of a pull, whatever fails in it. -/
theorem kept_of_runs (ms : List (Move Unit Fate Empty)) :
    Kept H hub s₀ ((start hub s₀).runs (semantics H) ms).state :=
  PoolSafe.solo_invariant (Does.iff_triple.1 does_pullFrom) through_nil
    (through_nil.kept H.entries rfl) (Config.meets_any _ _)

/-! ## Pulling again -/

/-- A pull in which nothing fails. -/
def pull (H : HubScript) (hub : HubId) (s : MemStore) : Except SyncError PullReport × Attempt :=
  Fallible.exec (answer H) (SyncEngine.pullFrom hub) ⟨s, 0⟩

variable {a b a' b' : Attempt} {rep rep' : PullReport} {P : Path → Prop}

/-- What one entry does when nothing fails. -/
theorem exec_applyRemote :
    Fallible.exec (answer H) (SyncEngine.applyRemote hub entry rep) a =
      if a.store.Queues entry.path then
        (.ok { rep with localConflicts := rep.localConflicts ++ [entry.path] }, a)
      else if entry.deleted then
        (.ok { rep with deleted := rep.deleted + 1 },
          ⟨a.store.assign entry.path none, a.asked⟩)
      else
        match H.file a.asked with
        | .error e => (.error (.hub e), ⟨a.store, a.asked + 1⟩)
        | .ok none => (.error (SyncEngine.missingFile entry.path), ⟨a.store, a.asked + 1⟩)
        | .ok (some f) => (.ok { rep with pulled := rep.pulled + 1 },
          ⟨a.store.assign entry.path (some f), a.asked + 1⟩) := by
  have hload : Fallible.exec (answer H) SyncEngine.loadPending a = (.ok a.store.pending, a) := by
    unfold SyncEngine.loadPending
    rw [Fallible.exec_bind_of_ok (a := a.store.blobs.lookup keyPending) (t := a) rfl]
    cases h : a.store.blobs.lookup keyPending <;> simp [MemStore.pending, h]
  have hcontains : Fallible.exec (answer H) (SyncEngine.pendingContains entry.path) a =
      (.ok (decide (a.store.Queues entry.path)), a) := by
    unfold SyncEngine.pendingContains
    rw [Fallible.exec_bind_of_ok hload, Fallible.exec_pure]
    congr 2
    rw [Bool.eq_iff_iff, decide_eq_true_iff]
    simp [Queues]
  unfold SyncEngine.applyRemote
  rw [Fallible.exec_bind_of_ok hcontains]
  by_cases hq : a.store.Queues entry.path
  · rw [if_pos hq, if_pos (by simpa using hq)]
    rfl
  rw [if_neg hq, if_neg (by simpa using hq)]
  by_cases hd : entry.deleted = true
  · rw [if_pos hd, if_pos hd]
    rfl
  rw [if_neg hd, if_neg hd]
  have hask : Fallible.exec (answer H) (SyncEngine.ask (.hubGetFile hub entry.path)) a =
      ((H.file a.asked).mapError .hub, ⟨a.store, a.asked + 1⟩) := rfl
  rcases hfile : H.file a.asked with e | file
  · rw [hfile] at hask
    exact Fallible.exec_bind_of_error hask
  · rw [hfile] at hask
    rw [Fallible.exec_bind_of_ok hask]
    cases file <;> rfl

/-- **One entry, from two stores that differ in the paths of `P`**: the
answers are the same, and afterwards the entry's path is no longer among
them. -/
theorem agree_applyRemote (hw : Within hub P a.store b.store) (hasked : a.asked = b.asked)
    (hb : Fallible.exec (answer H) (SyncEngine.applyRemote hub entry rep) b = (.ok rep', b')) :
    ∃ a', Fallible.exec (answer H) (SyncEngine.applyRemote hub entry rep) a = (.ok rep', a') ∧
      Within hub (fun p => P p ∧ ¬ Pulled a.store [entry] p) a'.store b'.store ∧
        a'.asked = b'.asked ∧ a'.store.pending = a.store.pending := by
  rw [exec_applyRemote] at hb ⊢
  by_cases hq : a.store.Queues entry.path
  · rw [if_pos (hw.queues.2 hq)] at hb
    rw [if_pos hq]
    obtain ⟨hrep, rfl⟩ := Prod.mk.inj hb
    refine ⟨a, by rw [hrep], hw.mono fun p hp => ⟨hp, ?_⟩, hasked, rfl⟩
    rintro ⟨hnot, e, he, rfl⟩
    obtain rfl := List.mem_singleton.1 he
    exact hnot hq
  rw [if_neg (fun h => hq (hw.queues.1 h))] at hb
  rw [if_neg hq]
  have hother : ∀ p, P p → p ≠ entry.path → P p ∧ ¬ Pulled a.store [entry] p := by
    refine fun p hp hne => ⟨hp, ?_⟩
    rintro ⟨-, e, he, rfl⟩
    exact hne (by rw [List.mem_singleton.1 he])
  by_cases hd : entry.deleted = true
  · rw [if_pos hd] at hb ⊢
    obtain ⟨hrep, rfl⟩ := Prod.mk.inj hb
    exact ⟨_, Prod.ext hrep rfl, hw.assign (o := none) hother, hasked, pending_assign⟩
  rw [if_neg hd] at hb ⊢
  rw [hasked]
  rcases hfile : H.file b.asked with e | (_ | file)
  · rw [hfile] at hb
    cases hb
  · rw [hfile] at hb
    cases hb
  · rw [hfile] at hb
    obtain ⟨hrep, rfl⟩ := Prod.mk.inj hb
    exact ⟨_, Prod.ext hrep rfl, hw.assign (o := some file) hother, rfl, pending_assign⟩

theorem pulled_cons : Pulled s (entry :: entries) path ↔
    Pulled s [entry] path ∨ Pulled s entries path := by
  simp only [Pulled, List.mem_cons, List.not_mem_nil, or_false, exists_eq_or_imp, exists_eq_left]
  tauto

/-- Two stores that queue the same changes pull the same paths. -/
theorem pulled_congr {s' : MemStore} (h : s'.pending = s.pending) :
    Pulled s' entries path ↔ Pulled s entries path := by
  simp only [Pulled, Queues, h]

theorem agree_applyAll (hw : Within hub P a.store b.store) (hasked : a.asked = b.asked)
    (hb : Fallible.exec (answer H) (SyncEngine.applyAll hub entries rep) b = (.ok rep', b')) :
    ∃ a', Fallible.exec (answer H) (SyncEngine.applyAll hub entries rep) a = (.ok rep', a') ∧
      Within hub (fun p => P p ∧ ¬ Pulled a.store entries p) a'.store b'.store := by
  induction entries generalizing a b rep P with
  | nil =>
    obtain ⟨hrep, rfl⟩ := Prod.mk.inj hb
    refine ⟨a, by rw [← hrep]; rfl, hw.mono fun p hp => ⟨hp, ?_⟩⟩
    rintro ⟨-, e, he, -⟩
    cases he
  | cons entry entries ih =>
    unfold SyncEngine.applyAll at hb ⊢
    rcases hone : Fallible.exec (answer H) (SyncEngine.applyRemote hub entry rep) b with
      ⟨e | rep₁, b₁⟩
    · rw [Fallible.exec_bind_of_error hone] at hb
      cases hb
    obtain ⟨a₁, ha₁, hw₁, hasked₁, hpending⟩ := agree_applyRemote hw hasked hone
    rw [Fallible.exec_bind_of_ok hone] at hb
    rw [Fallible.exec_bind_of_ok ha₁]
    obtain ⟨a', ha', hw'⟩ := ih hw₁ hasked₁ hb
    refine ⟨a', ha', hw'.mono fun p ⟨⟨hp, h₁⟩, h₂⟩ => ⟨hp, fun h => ?_⟩⟩
    rcases pulled_cons.1 h with h | h
    · exact h₁ h
    · exact h₂ ((pulled_congr hpending).2 h)

/-- **A pull that succeeds from a store that differs from another in what it
pulls** succeeds from that one too, and ends in the same stores. -/
theorem agree_pull {s' : MemStore} (hw : Within hub (Pulled s H.entries) s s')
    (hb : pull H hub s' = (.ok rep, b')) :
    ∃ a', pull H hub s = (.ok rep, a') ∧ Same a'.store b'.store := by
  unfold pull SyncEngine.pullFrom at hb ⊢
  have hsince : ∀ s : MemStore, Fallible.exec (answer H) (SyncEngine.store
      (.metaGet (checkpointKey hub))) ⟨s, 0⟩ = (.ok (s.blobs.lookup (checkpointKey hub)), ⟨s, 0⟩) :=
    fun _ => rfl
  have hchanges : ∀ (s : MemStore) since, Fallible.exec (answer H) (SyncEngine.ask
      (.hubChanges hub since)) ⟨s, 0⟩ = (H.changes.mapError .hub, ⟨s, 0⟩) := fun _ _ => rfl
  rw [Fallible.exec_bind_of_ok (hsince s')] at hb
  rw [Fallible.exec_bind_of_ok (hsince s)]
  rcases hresp : H.changes with e | resp
  · rw [hresp] at hchanges
    rw [Fallible.exec_bind_of_error (hchanges _ _)] at hb
    cases hb
  rw [hresp] at hchanges
  rw [Fallible.exec_bind_of_ok (hchanges _ _)] at hb ⊢
  rcases hall : Fallible.exec (answer H) (SyncEngine.applyAll hub resp.changes
      ⟨hub, 0, 0, [], some resp.checkpoint⟩) ⟨s', 0⟩ with ⟨e | rep', b₁⟩
  · rw [Fallible.exec_bind_of_error hall] at hb
    cases hb
  obtain ⟨a₁, ha₁, hw₁⟩ := agree_applyAll (a := ⟨s, 0⟩) (b := ⟨s', 0⟩) hw rfl hall
  rw [Fallible.exec_bind_of_ok hall] at hb
  rw [Fallible.exec_bind_of_ok ha₁]
  have hnone : ∀ p, Pulled s H.entries p ∧ ¬ Pulled s resp.changes p → False := fun p ⟨h, h'⟩ =>
    h' (HubScript.entries_of_ok hresp ▸ h)
  have hsame : Within hub (fun _ => False) a₁.store b₁.store := hw₁.mono hnone
  have hfinish : ∀ a : Attempt, Fallible.exec (answer H) (do
      SyncEngine.store (.metaPut (checkpointKey hub) (.checkpoint resp.checkpoint))
      return rep') a = (.ok rep', ⟨⟨a.store.blobs.insert (checkpointKey hub)
        (.checkpoint resp.checkpoint), a.store.files⟩, a.asked⟩) := fun _ => rfl
  rw [hfinish] at hb ⊢
  obtain ⟨hrep, rfl⟩ := Prod.mk.inj hb
  refine ⟨_, Prod.ext hrep rfl, fun key => ?_, fun p => hsame.files p id⟩
  dsimp only
  by_cases hkey : key = checkpointKey hub
  · subst hkey
    rw [AList.lookup_insert, AList.lookup_insert]
  · rw [AList.lookup_insert_ne hkey, AList.lookup_insert_ne hkey]
    exact hsame.blobs key hkey fun _ h => h.elim

/-- **The checkpoint covers only durable work, and pulling again is
idempotent.** At every moment of a pull, whatever fails in it: the stored
checkpoint is the old one, or it is the answer's and every path without a
queued change holds what its last entry leaves; the queue and the other
hubs' checkpoints are as they were; and a pull with the same answers that
succeeds from here ends in the stores that it ends in from the start. -/
theorem pull_durable_and_repeatable (H : HubScript) (hub : HubId) (s : MemStore)
    (ms : List (Move Unit Fate Empty)) :
    let s' := ((start hub s).runs (semantics H) ms).state.store
    (s'.blobs.lookup (checkpointKey hub) = s.blobs.lookup (checkpointKey hub) ∨
      ∃ resp, H.changes = .ok resp ∧
        s'.blobs.lookup (checkpointKey hub) = some (.checkpoint resp.checkpoint) ∧
        Durable H s resp.changes s') ∧
    s'.blobs.lookup keyPending = s.blobs.lookup keyPending ∧
    (∀ other, other ≠ hub →
      s'.blobs.lookup (checkpointKey other) = s.blobs.lookup (checkpointKey other)) ∧
    ∀ rep a, pull H hub s' = (.ok rep, a) →
      ∃ a₀, pull H hub s = (.ok rep, a₀) ∧ Same a₀.store a.store := by
  intro s'
  have h : Kept H hub s ((start hub s).runs (semantics H) ms).state := kept_of_runs ms
  refine ⟨h.checkpoint, ?_, fun other hne => ?_, fun rep a hpull => agree_pull h.within hpull⟩
  · exact h.within.blobs _ (pending_ne_checkpointKey hub) fun p _ => pending_ne_fileKey p
  · exact h.within.blobs _ (by simpa using hne) fun p _ => checkpointKey_ne_fileKey other p

/-! ## A write that fails -/

/-- Two new files. -/
def twoFiles : HubScript where
  changes := .ok ⟨[⟨"a", false, ⟨1, "x"⟩⟩, ⟨"b", false, ⟨1, "y"⟩⟩], 2⟩
  file n := .ok (some ⟨some ⟨1, if n = 0 then "x" else "y"⟩, 5, octetStream, [n.toUInt8]⟩)

/-- The write of the second file is refused. -/
def secondRefused : List (Move Unit Fate Empty) :=
  List.replicate 8 (.run () .done) ++ [.run () .refused]

theorem second_write_refused :
    let s := ((start "hub" .empty).runs (semantics twoFiles) secondRefused).state.store
    (s.files.lookup "a" = some [0] ∧ s.files.lookup "b" = none ∧
      s.blobs.lookup (checkpointKey "hub") = none) ∧
    ∃ a₀, pull twoFiles "hub" .empty = (.ok ⟨"hub", 2, 0, [], some 2⟩, a₀) ∧
      Same a₀.store (pull twoFiles "hub" s).2.store :=
  ⟨by decide +kernel, (pull_durable_and_repeatable twoFiles "hub" .empty secondRefused).2.2.2
    ⟨"hub", 2, 0, [], some 2⟩ _ (Prod.ext (by decide +kernel) rfl)⟩

end Repull

end FileSync
