import FileSync.Client.Reconcile
/-!
# Recording that is cut short

A record call writes the file, then the metadata, then the queue, each
durably. The next pass finds a change by comparing the directory with the
metadata, so the change is found again as long as the metadata has not been
written, and is in the queue once that has: between the two writes nothing
tells of it.
-/

namespace FileSync

/-- What the call does to the directory. -/
def LocalCall.onDisk (d : Disk) (now : ℤ) : LocalCall → Except StoreError Unit × Disk
  | upsert path mtime _ content => FsFileStore.put d now path content mtime
  | delete path _ => FsFileStore.delete d path

/-- What the call does to the path's metadata. -/
def LocalCall.onMeta (blobs : MetaMap) (baseRev : Option Rev) : LocalCall → MetaMap
  | upsert path mtime contentType _ =>
    blobs.insert (fileKey path) (.fileMeta ⟨baseRev, mtime, contentType⟩)
  | delete path _ => blobs.erase (fileKey path)

/-- The two operations between reading the known revision and queueing the
change. -/
def LocalCall.fileReq : LocalCall → EngineReq (Except StoreError Unit)
  | upsert path mtime _ content => .filePut path content mtime
  | delete path _ => .fileDelete path

def LocalCall.metaReq (baseRev : Option Rev) : LocalCall → EngineReq (Except StoreError Unit)
  | upsert path mtime contentType _ => .metaPut (fileKey path) (.fileMeta ⟨baseRev, mtime, contentType⟩)
  | delete path _ => .metaDelete (fileKey path)

theorem LocalCall.apply_eq (call : LocalCall) (baseRev : Option Rev) : call.apply baseRev = (do
    SyncEngine.store call.fileReq
    SyncEngine.store (call.metaReq baseRev)) := by
  cases call <;> rfl

namespace Interrupted

open Desktop

/-- The stores once a record call has made `n` store operations. A process
that stops there leaves them so, and so does a call that fails at the next
operation. -/
def cut (eng : SyncEngine) (s : Desktop) (call : LocalCall) (n : ℕ) : Desktop :=
  (Prog.after engineAlone n (call.record eng).run s).2

/-- The recording half of a later pass. -/
def nextPass (eng : SyncEngine) (mimeOf : Path → String) (now : ℤ) (s : Desktop) :
    Except DesktopError Unit × Desktop :=
  Fallible.exec alone (recordChanges eng mimeOf) { s with now := now }

/-- What the user did, as a pass finds it: a file of another time than the
known one, or a known path with no file. -/
def Finds (s : Desktop) : LocalCall → Prop
  | .upsert path mtime _ content => ∃ q t, s.disk.Scanned q content t ∧ path = Disk.relPath q ∧
      mtime = max 0 t ∧ s.knownTime path ≠ some mtime
  | .delete path _ => s.Known path ∧ ¬ s.Seen path

/-- **The queue carries the change**: an upsert, and the file is the user's;
or a delete. -/
def Carried (s : Desktop) : LocalCall → Prop
  | .upsert path _ _ content =>
    s.Queued path false ∧ FsFileStore.get s.disk path = .ok (some content)
  | .delete path _ => s.Queued path true

/-- No known path the scan does not list leads to the file of this one, when
the turn comes to remove what is there. -/
def NoAlias (s : Desktop) (path : Path) : Prop :=
  ∀ q, FsFileStore.leads s.disk path = some q → ¬ Removes s.disk s.unseen q

/-- **When the change is not lost.** An upsert: it has been cut before the
file was rewritten or after the queue was, or the time the rewritten file has
differs from the known one, or the queue had an upsert of the path before. A
delete: the same without the times. -/
def Recoverable (s : Desktop) (n : ℕ) : LocalCall → Prop
  | .upsert path mtime _ _ => NoAlias s path ∧
      (n ≤ 1 ∨ 5 ≤ n ∨ s.Queued path false ∨
        n = 2 ∧ s.knownTime path ≠ some (max 0 (s.disk.stamp s.now mtime)) ∨
        3 ≤ n ∧ mtime ≠ max 0 (s.disk.stamp s.now mtime))
  | .delete path _ => (FsFileStore.delete s.disk path).1 ≠ .ok () ∨ n ≤ 2 ∨ 5 ≤ n ∨
      s.Queued path true

variable {eng : SyncEngine} {mimeOf : Path → String} {s : Desktop} {call : LocalCall} {n : ℕ}
  {path : Path} {q : Place} {c : Bytes}

/-! ## The stores where a call is cut -/

/-- Reporting a failure is no store operation. -/
theorem after_report (x : Engine Unit) :
    ((eng.report x).run.after engineAlone n s).2 = (x.run.after engineAlone n s).2 := by
  have hnotify : ∀ (e : SyncError) n s,
      ((eng.notify e : Engine Unit).run.after engineAlone n s).2 = s := by
    intro e n s
    unfold SyncEngine.notify
    split
    · rcases n with _ | n
      · rw [Prog.after_zero]
      · exact congrArg Prod.snd (Prog.after_done n _)
    · exact congrArg Prod.snd (Prog.after_done n _)
  unfold SyncEngine.report
  rw [ExceptT.run_bind, Prog.after_bind_state ?_, Fallible.run_attempt, Prog.after_bind_state ?_]
  · intro r n s
    rw [Prog.after_done]
  · rintro (e | e | a) n s
    · exact congrArg Prod.snd (Prog.after_done n _)
    · exact hnotify e n s
    · exact congrArg Prod.snd (Prog.after_done n _)

theorem after_loadPending (k : List PendingChange → Engine Unit) (n : ℕ) :
    (SyncEngine.loadPending >>= k).run.after engineAlone (n + 1) s =
      (k s.pending).run.after engineAlone n s := by
  unfold SyncEngine.loadPending SyncEngine.store
  rw [bind_assoc, Fallible.after_ask_of_ok (a := s.blobs.lookup keyPending) (t := s) rfl, pending]
  cases s.blobs.lookup keyPending <;> rfl

/-- **The stores after each of the operations of a call.** -/
theorem cut_of_ok (eng : SyncEngine) (n : ℕ) (call : LocalCall)
    (hok : (call.onDisk s.disk s.now).1 = .ok ()) :
    cut eng s call n =
      ⟨if n ≤ 2 then s.blobs else if n ≤ 4 then call.onMeta s.blobs (s.base call.path) else
          queueing (call.onMeta s.blobs (s.base call.path)) s.pending
            (call.change (s.base call.path)),
        if n ≤ 1 then s.disk else (call.onDisk s.disk s.now).2, s.now⟩ := by
  have hfile : engineAlone call.fileReq s =
      (.ok (), ⟨s.blobs, (call.onDisk s.disk s.now).2, s.now⟩) := by
    cases call <;> exact Prod.ext hok rfl
  have hmeta (d : Disk) : engineAlone (call.metaReq (s.base call.path)) ⟨s.blobs, d, s.now⟩ =
      (.ok (), ⟨call.onMeta s.blobs (s.base call.path), d, s.now⟩) := by
    cases call <;> rfl
  have hpending (d : Disk) : pending ⟨call.onMeta s.blobs (s.base call.path), d, s.now⟩ =
      s.pending := by
    cases call
    exacts [pending_insert_file _ d s.now, pending_erase_file d s.now]
  rw [cut, LocalCall.record_eq, after_report]
  simp only [SyncEngine.knownRev, LocalCall.apply_eq, SyncEngine.upsertPending,
    SyncEngine.store, bind_assoc, pure_bind]
  have hbase : ((s.blobs.lookup (fileKey call.path)).bind Blob.toFileMeta?).bind FileMeta.rev =
      s.base call.path := rfl
  -- the metadata is read, the file and its metadata change, the queue is read and stored
  rcases n with _ | n
  · rw [Prog.after_zero]
    rfl
  rw [Fallible.after_ask_of_ok (a := s.blobs.lookup (fileKey call.path)) (t := s) rfl, hbase]
  rcases n with _ | n
  · rw [Prog.after_zero]
    rfl
  rw [Fallible.after_ask_of_ok hfile]
  rcases n with _ | n
  · rw [Prog.after_zero]
    rfl
  rw [Fallible.after_ask_of_ok (hmeta _)]
  rcases n with _ | n
  · rw [Prog.after_zero]
    rfl
  rw [after_loadPending, hpending]
  rcases n with _ | n
  · rw [Prog.after_zero]
    rfl
  · exact congrArg Prod.snd (Prog.after_done n _)

/-- A delete whose file could not be removed has done nothing. -/
theorem cut_of_delete_error (eng : SyncEngine) (n : ℕ) (mtime : ℤ) {e : StoreError}
    (herr : (FsFileStore.delete s.disk path).1 = .error e) :
    cut eng s (.delete path mtime) n = s := by
  have hfile : engineAlone (LocalCall.delete path mtime).fileReq s = (.error e, s) :=
    Prod.ext herr (congrArg (fun d => (⟨s.blobs, d, s.now⟩ : Desktop))
      (FsFileStore.delete_of_error herr))
  rw [cut, LocalCall.record_eq, after_report]
  simp only [SyncEngine.knownRev, LocalCall.apply_eq, SyncEngine.store, bind_assoc, pure_bind]
  rcases n with _ | n
  · rw [Prog.after_zero]
  rw [Fallible.after_ask_of_ok (a := s.blobs.lookup (fileKey path)) (t := s) rfl]
  rcases n with _ | n
  · rw [Prog.after_zero]
  rw [Fallible.after_ask_of_error hfile]

/-! ## What the next pass makes of it -/

/-- A file put again is scanned with the time the put gave it. -/
theorem scanned_put {t now mtime : ℤ} {d : Disk} (hd : d.WellFormed) (h : d.Scanned q c t) :
    (FsFileStore.put d now (Disk.relPath q) c mtime).2.Scanned q c (d.stamp now mtime) :=
  ⟨FsFileStore.fileAt_put_existing hd h.1 (Disk.not_mem_of_shows h.2) _ _ c,
    FsFileStore.shows_put.trans h.2⟩

/-- **What is left of an upsert in the directory**: the file is put again, or
not yet. -/
theorem cut_upsert_disk (eng : SyncEngine) (n : ℕ) (mtime : ℤ) (contentType : String) {t : ℤ}
    (hd : s.disk.WellFormed) (hscan : s.disk.Scanned q c t) {s' : Desktop}
    (hs' : s' = cut eng s (.upsert (Disk.relPath q) mtime contentType c) n) :
    s'.disk.WellFormed ∧ s'.disk.Scanned q c (if n ≤ 1 then t else s.disk.stamp s.now mtime) ∧
      s.disk.Alike s'.disk ∧ s'.disk.hidden = s.disk.hidden := by
  have hin := Disk.not_mem_of_shows hscan.2
  have hput : (FsFileStore.put s.disk s.now (Disk.relPath q) c mtime).1 = .ok () :=
    FsFileStore.put_existing hd hscan.1 hin _ _ c
  have hcut := cut_of_ok eng n (.upsert (Disk.relPath q) mtime contentType c) hput
  have hdisk : s'.disk = if n ≤ 1 then s.disk else
      (FsFileStore.put s.disk s.now (Disk.relPath q) c mtime).2 := by
    rw [hs', hcut]
    rfl
  rw [hdisk]
  by_cases h1 : n ≤ 1
  · rw [if_pos h1, if_pos h1]
    exact ⟨hd, hscan, .refl _, rfl⟩
  · rw [if_neg h1, if_neg h1]
    exact ⟨FsFileStore.wellFormed_put hd, scanned_put hd hscan,
      .put_existing hd hscan.1 hin s.now mtime c, (FsFileStore.put_fixed ..).1⟩

/-- **What is left of an upsert**, as far as the next pass looks at it. -/
theorem cut_upsert (eng : SyncEngine) (n : ℕ) (mtime : ℤ) (contentType : String) {t : ℤ}
    {s' : Desktop} (hd : s.disk.WellFormed)
    (hscan : s.disk.Scanned q c t)
    (hs' : s' = cut eng s (.upsert (Disk.relPath q) mtime contentType c) n) :
    s'.disk.WellFormed ∧
      s'.disk.Scanned q c (if n ≤ 1 then t else s.disk.stamp s.now mtime) ∧
      s'.knownTime (Disk.relPath q) =
        (if n ≤ 2 then s.knownTime (Disk.relPath q) else some mtime) ∧
      (s'.Queued (Disk.relPath q) false ↔ 5 ≤ n ∨ s.Queued (Disk.relPath q) false) ∧
      s.disk.Alike s'.disk ∧ s'.unseen = s.unseen := by
  obtain ⟨hwf, hscanned, halike, hhidden⟩ := cut_upsert_disk eng n mtime contentType hd hscan hs'
  have hseen : ∀ p, p ∈ s'.disk.scan.map Prod.fst ↔ p ∈ s.disk.scan.map Prod.fst := fun p =>
    Disk.mem_scan_of_alike halike hhidden
  have hpath : Disk.relPath q ∈ s.disk.scan.map Prod.fst :=
    List.mem_map.2 ⟨_, Disk.mem_scan.2 ⟨q, c, t, hscan, rfl, rfl⟩, rfl⟩
  have hunseen : s'.unseen = missing s'.blobs s.disk.scan := missing_congr _ hseen
  have hput : (FsFileStore.put s.disk s.now (Disk.relPath q) c mtime).1 = .ok () :=
    FsFileStore.put_existing hd hscan.1 (Disk.not_mem_of_shows hscan.2) _ _ c
  have hblobs := congrArg Desktop.blobs
    (cut_of_ok eng n (.upsert (Disk.relPath q) mtime contentType c) hput)
  rw [← hs'] at hblobs
  rw [hunseen]
  refine ⟨hwf, hscanned, ?_⟩
  have hmissing : missing (s.blobs.insert (fileKey (Disk.relPath q))
      (.fileMeta ⟨s.base (Disk.relPath q), mtime, contentType⟩)) s.disk.scan = s.unseen :=
    missing_insert _ fun p hp => fileKey_inj.1 hp ▸ hpath
  dsimp only at hblobs
  -- the metadata is the third operation, and the queue the fifth
  by_cases h2 : n ≤ 2
  · rw [if_pos h2] at hblobs ⊢
    refine ⟨by simp only [knownTime, fileMeta?, hblobs], ?_, halike, by rw [hblobs]; rfl⟩
    simp only [Queued, pending, hblobs]
    exact ⟨.inr, fun h => h.resolve_left (by omega)⟩
  rw [if_neg h2] at hblobs ⊢
  by_cases h4 : n ≤ 4
  · rw [if_pos h4] at hblobs
    refine ⟨?_, ?_, halike, by rw [hblobs]; exact hmissing⟩
    · simp [knownTime, fileMeta?, hblobs, LocalCall.onMeta, Blob.toFileMeta?, LocalCall.path]
    · simp only [Queued, pending, hblobs, LocalCall.onMeta,
        AList.lookup_insert_ne (pending_ne_fileKey _)]
      exact ⟨.inr, fun h => h.resolve_left (by omega)⟩
  · rw [if_neg h4] at hblobs
    refine ⟨?_, ?_, halike, ?_⟩
    · simp [knownTime, fileMeta?, hblobs, queueing, LocalCall.onMeta, Blob.toFileMeta?]
    · simp only [Queued, pending, hblobs, queueing, AList.lookup_insert, Option.bind_some,
        Blob.toQueue?, Option.getD_some]
      refine ⟨fun _ => .inl (by omega), fun _ => ⟨_, SyncEngine.mem_enqueue.2 (.inl rfl), rfl, rfl⟩⟩
    · rw [hblobs, queueing, missing_insert _ fun p hp => absurd hp.symm (fileKey_ne_pending p)]
      exact hmissing

/-- What is left of a delete whose file could be removed. -/
theorem cut_delete (eng : SyncEngine) (n : ℕ) (mtime : ℤ) {s' : Desktop} (hd : s.disk.WellFormed) (hunseen : ¬ s.Seen path)
    (hok : (FsFileStore.delete s.disk path).1 = .ok ())
    (hs' : s' = cut eng s (.delete path mtime) n) :
    s'.disk.WellFormed ∧ ¬ s'.Seen path ∧ (s'.Known path ↔ n ≤ 2 ∧ s.Known path) ∧
      (s'.Queued path true ↔ 5 ≤ n ∨ s.Queued path true) := by
  have hcut := cut_of_ok eng n (.delete path mtime) hok
  rw [← hs'] at hcut
  have hdisk : s'.disk = if n ≤ 1 then s.disk else (FsFileStore.delete s.disk path).2 := by
    rw [hcut]
    rfl
  have hblobs := congrArg Desktop.blobs hcut
  clear hcut hs'
  dsimp only at hblobs
  refine ⟨?_, ?_, ?_⟩
  · rw [hdisk]
    split
    exacts [hd, FsFileStore.wellFormed_delete hd]
  · unfold Seen at hunseen ⊢
    rw [hdisk]
    split
    · exact hunseen
    · intro hmem
      obtain ⟨⟨p, m⟩, hpm, rfl⟩ := List.mem_map.1 hmem
      exact hunseen (List.mem_map.2 ⟨_, Disk.mem_scan_of_delete hpm, rfl⟩)
  by_cases h2 : n ≤ 2
  · rw [if_pos h2] at hblobs
    simp only [Known, Queued, pending, hblobs]
    exact ⟨(and_iff_right h2).symm, .inr, fun h => h.resolve_left (by omega)⟩
  rw [if_neg h2] at hblobs
  by_cases h4 : n ≤ 4
  · rw [if_pos h4] at hblobs
    refine ⟨by simp [Known, hblobs, LocalCall.onMeta, h2], ?_⟩
    simp only [Queued, pending, hblobs, LocalCall.onMeta,
      AList.lookup_erase_ne (pending_ne_fileKey _)]
    exact ⟨.inr, fun h => h.resolve_left (by omega)⟩
  · rw [if_neg h4] at hblobs
    refine ⟨by simp [Known, hblobs, queueing, LocalCall.onMeta, h2], ?_⟩
    simp only [Queued, pending, hblobs, queueing, AList.lookup_insert, Option.bind_some,
      Blob.toQueue?, Option.getD_some]
    exact ⟨fun _ => .inl (by omega), fun _ => ⟨_, SyncEngine.mem_enqueue.2 (.inl rfl), rfl, rfl⟩⟩

/-! ## The claim of the pass -/

theorem passRecorded {now : ℤ} (hd : s.disk.WellFormed)
    (hpass : (nextPass eng mimeOf now s).1 = .ok ()) :
    PassRecorded s (nextPass eng mimeOf now s).2 :=
  have h := exec_recordChanges (s := { s with now := now }) hd hpass
  ⟨h.wellFormed, h.upsert, h.delete, h.removed, h.kept, h.clear⟩

/-- The file is still the user's after a pass exactly if no known path that is
removed leads to it. -/
theorem get_of_pass {s s' : Desktop} (hd : s.disk.WellFormed) (hpass : PassRecorded s s')
    {t : ℤ} (hscan : s.disk.Scanned q c t) :
    FsFileStore.get s'.disk (Disk.relPath q) = .ok (some c) ↔ NoAlias s (Disk.relPath q) := by
  have hentry := Disk.fileAt_eq_some.1 hscan.1
  have hin := Disk.not_mem_of_shows hscan.2
  have hleads := FsFileStore.leads_relPath hd hentry hin
  have hbytes : s.bytesAt q = some c := by rw [bytesAt, hscan.1]; rfl
  rw [FsFileStore.get_eq_ok_some (hpass.clear q (hd.clear hentry)) (hd.ne_root q _ hentry)
    (hd.pathFor_relPath hentry hin)]
  constructor
  · intro h r hr hremoves
    obtain rfl := Option.some.inj (hleads.symm.trans hr)
    exact absurd ((hpass.removed q hremoves).symm.trans h) (by rintro ⟨⟩)
  · exact fun h => (hpass.kept q (h q hleads)).trans hbytes

/-- Where the times, or the queue, tell of an upsert. -/
theorem told_iff {known : Option ℤ} {mtime t put : ℤ} {queued : Prop} (hm : mtime = max 0 t)
    (hknown : known ≠ some mtime) :
    ((if n ≤ 2 then known else some mtime) ≠ some (max 0 (if n ≤ 1 then t else put)) ∨
        5 ≤ n ∨ queued) ↔
      n ≤ 1 ∨ 5 ≤ n ∨ queued ∨ n = 2 ∧ known ≠ some (max 0 put) ∨ 3 ≤ n ∧ mtime ≠ max 0 put := by
  by_cases h1 : n ≤ 1
  · have h2 : n ≤ 2 := by omega
    rw [if_pos h2, if_pos h1, ← hm]
    tauto
  rw [if_neg h1]
  by_cases h2 : n ≤ 2
  · have h2' : n = 2 := by omega
    have h3 : ¬ 3 ≤ n := by omega
    rw [if_pos h2]
    tauto
  · have h2' : n ≠ 2 := by omega
    have h3 : 3 ≤ n := by omega
    rw [if_neg h2, ne_eq, Option.some_inj]
    tauto

/-- **A change whose recording was cut short is found again exactly if it is
recoverable.** Whatever the stores and the directory, whichever operation
the call stopped before, and whenever the next pass runs: if that pass gets
to its end, the queue then carries the user's change, or it was cut where
nothing tells of it. -/
theorem interrupted_change_carried_iff (eng : SyncEngine) (mimeOf : Path → String) (s : Desktop)
    (call : LocalCall) (n : ℕ) (now : ℤ) (hd : s.disk.WellFormed) (hfinds : Finds s call)
    (hpass : (nextPass eng mimeOf now (cut eng s call n)).1 = .ok ()) :
    Carried (nextPass eng mimeOf now (cut eng s call n)).2 call ↔ Recoverable s n call := by
  cases call with
  | upsert path mtime contentType content =>
    obtain ⟨q, t, hscan, rfl, hm, hknown⟩ := hfinds
    obtain ⟨hd', hscan', htime, hqueued, halike, hunseen⟩ := cut_upsert eng n mtime contentType hd
      hscan rfl
    have hrec := passRecorded hd' hpass
    have hget := get_of_pass hd' hrec hscan'
    have halias : NoAlias (cut eng s (.upsert (Disk.relPath q) mtime contentType content) n)
        (Disk.relPath q) ↔ NoAlias s (Disk.relPath q) := by
      unfold NoAlias
      rw [halike.leads, hunseen]
      exact forall₂_congr fun r _ => not_congr (removes_congr halike _)
    have hqueue := hrec.upsert (Disk.relPath q) _ (Disk.mem_scan.2 ⟨q, _, _, hscan', rfl, rfl⟩)
    have hnow : (nextPass eng mimeOf now (cut eng s
        (.upsert (Disk.relPath q) mtime contentType content) n)).2.Queued (Disk.relPath q) false ↔
        n ≤ 1 ∨ 5 ≤ n ∨ s.Queued (Disk.relPath q) false ∨
          n = 2 ∧ s.knownTime (Disk.relPath q) ≠ some (max 0 (s.disk.stamp s.now mtime)) ∨
          3 ≤ n ∧ mtime ≠ max 0 (s.disk.stamp s.now mtime) := by
      rw [hqueue, htime, hqueued]
      exact told_iff hm hknown
    exact (and_congr hnow (hget.trans halias)).trans and_comm
  | delete path mtime =>
    obtain ⟨hknown, hunseen⟩ := hfinds
    by_cases hok : (FsFileStore.delete s.disk path).1 = .ok ()
    · obtain ⟨hd', hunseen', hknown', hqueued⟩ := cut_delete eng n mtime hd hunseen hok
        rfl
      have hrec := passRecorded hd' hpass
      refine (hrec.delete path hunseen').trans ((or_congr hknown' hqueued).trans ?_)
      simp [Recoverable, hok, hknown]
    · cases herr : (FsFileStore.delete s.disk path).1 with
      | ok _ => exact absurd herr hok
      | error e =>
        have hcut := cut_of_delete_error eng n mtime herr
        rw [hcut] at hpass ⊢
        have hrec := passRecorded hd hpass
        exact ⟨fun _ => .inl hok, fun _ => (hrec.delete path hunseen).2 (.inl hknown)⟩

/-! ## An edit nobody tells of -/

/-- The user has written `a` in an empty directory. -/
def edited : Desktop := ⟨∅, (FsFileStore.put Disk.empty 5 "a" [1] 5).2, 7⟩

/-- What the pass records of it. -/
def edit : LocalCall := .upsert "a" 5 octetStream [1]

theorem finds_edit : Finds edited edit :=
  ⟨["a"], 5, ⟨by decide +kernel, by decide +kernel⟩, by decide +kernel, rfl, by decide +kernel⟩

/-- **Cut after the metadata was written, the edit is lost**: the next pass
gets to its end and the queue stays empty. -/
theorem edit_cut_before_queue_lost :
    Finds edited edit ∧
      (nextPass (oneHub true) anyType 9 (cut (oneHub true) edited edit 3)).1 = .ok () ∧
      (nextPass (oneHub true) anyType 9 (cut (oneHub true) edited edit 3)).2.pending = [] ∧
      ¬ Carried (nextPass (oneHub true) anyType 9 (cut (oneHub true) edited edit 3)).2 edit := by
  have hempty : (nextPass (oneHub true) anyType 9 (cut (oneHub true) edited edit 3)).2.pending = [] := by
    decide +kernel
  refine ⟨finds_edit, by decide +kernel, hempty, ?_⟩
  rintro ⟨⟨change, hmem, -⟩, -⟩
  rw [hempty] at hmem
  cases hmem

theorem edit_cut_before_metadata_carried :
    Carried (nextPass (oneHub true) anyType 9 (cut (oneHub true) edited edit 2)).2 edit :=
  (interrupted_change_carried_iff (oneHub true) anyType edited edit 2 9
    (FsFileStore.wellFormed_put Disk.wellFormed_empty) finds_edit (by decide +kernel)).2
    ⟨fun _ _ hremoves => hremoves,
      .inr (.inr (.inr (.inl ⟨rfl, by decide +kernel⟩)))⟩

end Interrupted

end FileSync
