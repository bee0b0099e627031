import FileSync.Client.Directory
import FileSync.Client.Calls
/-!
# A reconcile pass, run alone

What recording one path does to the stores when nobody else touches them,
and from that what the recording half of a pass does: a scanned file is
recorded exactly when its time is not the known one, a known path is
recorded as deleted exactly when the scan did not see it, and every other
path is left as it was.
-/

namespace FileSync

namespace Desktop

/-- Run a desktop program alone; no hub answers. -/
def alone : Prog.Handler DesktopReq Desktop := fun _ e s => Desktop.exec e .unreachable s

/-- The engine's part of it. -/
def engineAlone : Prog.Handler EngineReq Desktop := fun _ e s => engineExec e .unreachable s

variable {eng : SyncEngine} {mimeOf : Path → String} {s s' s₁ : Desktop} {path p : Path}
  {mtime t : ℤ} {contentType : String} {content c : Bytes} {q : Place}

/-- An operation of the engine runs as the engine runs it. -/
theorem exec_engine {α : Type} (x : Engine α) :
    Fallible.exec alone (engine x) s =
      ((Fallible.exec engineAlone x s).1.mapError .sync, (Fallible.exec engineAlone x s).2) := by
  have hrun : (x.run.expand fun _ e => (Prog.perform (.inl e) : Prog DesktopReq _)).run alone s =
      x.run.run engineAlone s := Prog.run_expand _ _
  rw [engine, Fallible.exec_adapt]
  show (Except.mapError _ (Prog.run alone _ s).1, (Prog.run alone _ s).2) = _
  simp only [ExceptT.run_mk, hrun]
  rfl

theorem exec_engine_of_ok {α : Type} {x : Engine α} {a : α}
    (hx : Fallible.exec engineAlone x s = (.ok a, s')) :
    Fallible.exec alone (engine x) s = (.ok a, s') := by
  rw [exec_engine, hx]
  rfl

/-! ## Recording one path -/

/-- The base of the path's next push. -/
def base (s : Desktop) (path : Path) : Option Rev := (s.fileMeta? path).bind FileMeta.rev

/-- The time the client knows for a path. -/
def knownTime (s : Desktop) (path : Path) : Option ℤ := (s.fileMeta? path).map FileMeta.mtime

/-- The bookkeeping with one more change queued. -/
def queueing (blobs : MetaMap) (pending : List PendingChange) (change : PendingChange) : MetaMap :=
  blobs.insert keyPending (.queue (SyncEngine.enqueue pending change))

/-- The state after an upsert was recorded. -/
def upserted (s : Desktop) (path : Path) (mtime : ℤ) (contentType : String) (content : Bytes) :
    Desktop where
  blobs := queueing (s.blobs.insert (fileKey path) (.fileMeta ⟨s.base path, mtime, contentType⟩))
    s.pending ⟨path, false, s.base path, mtime, some contentType⟩
  disk := (FsFileStore.put s.disk s.now path content mtime).2
  now := s.now

/-- The state after a delete was recorded. -/
def removed (s : Desktop) (path : Path) (mtime : ℤ) : Desktop where
  blobs := queueing (s.blobs.erase (fileKey path)) s.pending
    ⟨path, true, s.base path, mtime, none⟩
  disk := (FsFileStore.delete s.disk path).2
  now := s.now

theorem exec_report {α : Type} (x : Engine α) :
    Fallible.exec engineAlone (eng.report x) s = Fallible.exec engineAlone x s := by
  unfold SyncEngine.report
  rw [Fallible.exec_bind_of_ok (Fallible.exec_attempt x)]
  rcases hx : Fallible.exec engineAlone x s with ⟨e | a, s'⟩
  · show Fallible.exec engineAlone (eng.notify e) s' = _
    unfold SyncEngine.notify
    split <;> rfl
  · rfl

theorem exec_loadPending :
    Fallible.exec engineAlone SyncEngine.loadPending s = (.ok s.pending, s) := by
  unfold SyncEngine.loadPending
  rw [Fallible.exec_bind_of_ok (a := s.blobs.lookup keyPending) (t := s) rfl]
  cases h : s.blobs.lookup keyPending <;> simp [pending, h]

theorem exec_upsertPending (change : PendingChange) :
    Fallible.exec engineAlone (SyncEngine.upsertPending change) s =
      (.ok (), ⟨queueing s.blobs s.pending change, s.disk, s.now⟩) := by
  unfold SyncEngine.upsertPending
  rw [Fallible.exec_bind_of_ok exec_loadPending]
  rfl

theorem pending_insert_file (m : Blob) (d : Disk) (now : ℤ) :
    pending ⟨s.blobs.insert (fileKey path) m, d, now⟩ = s.pending := by
  simp [pending]

theorem pending_erase_file (d : Disk) (now : ℤ) :
    pending ⟨s.blobs.erase (fileKey path), d, now⟩ = s.pending := by
  simp [pending]

theorem exec_recordUpsert
    (hput : (FsFileStore.put s.disk s.now path content mtime).1 = .ok ()) :
    Fallible.exec engineAlone (eng.recordUpsert path mtime contentType content) s =
      (.ok (), s.upserted path mtime contentType content) := by
  have hstore : Fallible.exec engineAlone (SyncEngine.store (.filePut path content mtime)) s =
      (.ok (), ⟨s.blobs, (FsFileStore.put s.disk s.now path content mtime).2, s.now⟩) := by
    show (Except.mapError _ (FsFileStore.put s.disk s.now path content mtime).1, _) = _
    rw [hput]
    rfl
  have hmeta (m : Blob) (d : Disk) :
      Fallible.exec engineAlone (SyncEngine.store (.metaPut (fileKey path) m)) ⟨s.blobs, d, s.now⟩ =
        (.ok (), ⟨s.blobs.insert (fileKey path) m, d, s.now⟩) := rfl
  rw [SyncEngine.recordUpsert, exec_report, SyncEngine.recordUpsertInner,
    Fallible.exec_bind_of_ok (a := s.base path) (t := s) rfl, Fallible.exec_bind_of_ok hstore,
    Fallible.exec_bind_of_ok (hmeta _ _), exec_upsertPending, pending_insert_file]
  rfl

theorem exec_recordDelete (hdel : (FsFileStore.delete s.disk path).1 = .ok ()) :
    Fallible.exec engineAlone (eng.recordDelete path mtime) s =
      (.ok (), s.removed path mtime) := by
  have hstore : Fallible.exec engineAlone (SyncEngine.store (.fileDelete path)) s =
      (.ok (), ⟨s.blobs, (FsFileStore.delete s.disk path).2, s.now⟩) := by
    show (Except.mapError _ (FsFileStore.delete s.disk path).1, _) = _
    rw [hdel]
    rfl
  have hmeta (d : Disk) :
      Fallible.exec engineAlone (SyncEngine.store (.metaDelete (fileKey path))) ⟨s.blobs, d, s.now⟩ =
        (.ok (), ⟨s.blobs.erase (fileKey path), d, s.now⟩) := rfl
  rw [SyncEngine.recordDelete, exec_report, SyncEngine.recordDeleteInner,
    Fallible.exec_bind_of_ok (a := s.base path) (t := s) rfl, Fallible.exec_bind_of_ok hstore,
    Fallible.exec_bind_of_ok (hmeta _), exec_upsertPending, pending_erase_file]
  rfl

/-- A delete is recorded only if the file could be removed. -/
theorem delete_ok_of_exec_recordDelete
    (hok : (Fallible.exec engineAlone (eng.recordDelete path mtime) s).1 = .ok ()) :
    (FsFileStore.delete s.disk path).1 = .ok () := by
  cases hdel : (FsFileStore.delete s.disk path).1 with
  | ok _ => rfl
  | error e =>
    have hstore : Fallible.exec engineAlone (SyncEngine.store (.fileDelete path)) s =
        (.error (.store e), ⟨s.blobs, (FsFileStore.delete s.disk path).2, s.now⟩) := by
      show (Except.mapError _ (FsFileStore.delete s.disk path).1, _) = _
      rw [hdel]
      rfl
    rw [SyncEngine.recordDelete, exec_report, SyncEngine.recordDeleteInner,
      Fallible.exec_bind_of_ok (a := s.base path) (t := s) rfl,
      Fallible.exec_bind_of_error hstore] at hok
    cases hok

/-! ## What is queued for a path -/

/-- A change of one kind is queued for the path. -/
def Queued (s : Desktop) (path : Path) (deleted : Bool) : Prop :=
  ∃ change ∈ s.pending, change.path = path ∧ change.deleted = deleted

instance (deleted : Bool) : Decidable (s.Queued path deleted) :=
  inferInstanceAs (Decidable (∃ change ∈ _, _))

/-- Nothing was recorded for the path. -/
structure Untouched (s s' : Desktop) (path : Path) : Prop where
  blob : s'.blobs.lookup (fileKey path) = s.blobs.lookup (fileKey path)
  queue : ∀ deleted, s'.Queued path deleted ↔ s.Queued path deleted

namespace Untouched

theorem rfl' : Untouched s s path := ⟨rfl, fun _ => Iff.rfl⟩

theorem trans (h : Untouched s s₁ path) (h' : Untouched s₁ s' path) : Untouched s s' path :=
  ⟨h'.blob.trans h.blob, fun deleted => (h'.queue deleted).trans (h.queue deleted)⟩

theorem knownTime (h : Untouched s s' path) : s'.knownTime path = s.knownTime path := by
  simp only [Desktop.knownTime, fileMeta?, h.blob]

end Untouched

theorem pending_queueing (blobs : MetaMap) (l : List PendingChange) (change : PendingChange)
    (d : Disk) (now : ℤ) :
    pending ⟨queueing blobs l change, d, now⟩ = SyncEngine.enqueue l change := by
  simp [pending, queueing, Blob.toQueue?]

theorem queued_enqueue_self (blobs : MetaMap) (change : PendingChange) (d : Disk) (now : ℤ)
    (hpath : change.path = path) :
    Queued ⟨queueing blobs s.pending change, d, now⟩ path change.deleted := by
  refine ⟨change, ?_, hpath, rfl⟩
  rw [pending_queueing]
  exact SyncEngine.mem_enqueue.2 (.inl rfl)

theorem untouched_queueing {blobs : MetaMap} {change : PendingChange} {d : Disk} {now : ℤ}
    (hne : change.path ≠ p) (hblobs : blobs.lookup (fileKey p) = s.blobs.lookup (fileKey p)) :
    Untouched s ⟨queueing blobs s.pending change, d, now⟩ p := by
  refine ⟨?_, fun deleted => ?_⟩
  · show (queueing _ _ _).lookup _ = _
    rw [queueing, AList.lookup_insert_ne (fileKey_ne_pending p), hblobs]
  · unfold Queued
    rw [pending_queueing]
    constructor
    · rintro ⟨e, he, hp, hd⟩
      rcases SyncEngine.mem_enqueue.1 he with rfl | ⟨he, -⟩
      exacts [absurd hp hne, ⟨e, he, hp, hd⟩]
    · rintro ⟨e, he, hp, hd⟩
      exact ⟨e, SyncEngine.mem_enqueue.2 (.inr ⟨he, fun h => hne (h.symm.trans hp)⟩), hp, hd⟩

theorem untouched_upserted (hne : path ≠ p) :
    Untouched s (s.upserted path mtime contentType content) p :=
  untouched_queueing hne (AList.lookup_insert_ne (by simpa using hne.symm))

theorem untouched_removed (hne : path ≠ p) : Untouched s (s.removed path mtime) p :=
  untouched_queueing hne (AList.lookup_erase_ne (by simpa using hne.symm))

theorem queued_upserted : (s.upserted path mtime contentType content).Queued path false :=
  queued_enqueue_self _ ⟨path, false, s.base path, mtime, some contentType⟩ _ _ rfl

theorem queued_removed : (s.removed path mtime).Queued path true :=
  queued_enqueue_self _ ⟨path, true, s.base path, mtime, none⟩ _ _ rfl

/-! ## The known paths -/

/-- The known paths are those with something under their key. -/
theorem stripFile_eq_some {key : String} : SyncEngine.stripFile key = some path ↔
    key = fileKey path := by
  have happend : ∀ l, String.ofList ("file/".toList ++ l) = "file/" ++ String.ofList l :=
    fun l => by rw [String.ofList_append, String.ofList_toList]
  unfold SyncEngine.stripFile startsWith
  constructor
  · intro h
    split at h
    · rename_i hpre
      obtain ⟨rest, hrest⟩ := List.isPrefixOf_iff_prefix.1 hpre
      obtain rfl := Option.some.inj h
      have hkey : key = String.ofList ("file/".toList ++ rest) := by
        rw [hrest, String.ofList_toList]
      rw [hkey, happend, fileKey, String.toList_append, String.toList_ofList]
      simp
    · cases h
  · rintro rfl
    have hlist : (fileKey path).toList = "file/".toList ++ path.toList := String.toList_append
    rw [hlist, if_pos (List.isPrefixOf_iff_prefix.2 (List.prefix_append _ _))]
    simp

/-- A path and its key end alike. -/
theorem endsInTmp_fileKey (path : Path) : endsInTmp (fileKey path) = endsInTmp path := by
  have hsuffix : ".tmp".toList <:+ "file".toList ++ '/' :: path.toList ↔
      ".tmp".toList <:+ path.toList := suffix_append_cons (by decide)
  rw [Bool.eq_iff_iff, endsInTmp, endsInTmp, List.isSuffixOf_iff_suffix,
    List.isSuffixOf_iff_suffix, fileKey, String.toList_append]
  exact hsuffix

/-- The client has metadata for the path, and a listing shows it. -/
def Known (s : Desktop) (path : Path) : Prop := fileKey path ∈ s.blobs ∧ endsInTmp path = false

instance : Decidable (s.Known path) := inferInstanceAs (Decidable (_ ∧ _))

theorem Untouched.known (h : Untouched s s' p) : s'.Known p ↔ s.Known p := by
  unfold Known
  rw [← AList.lookup_isSome, ← AList.lookup_isSome, h.blob]

/-- **The paths a listing shows.** -/
theorem mem_listKeys {blobs : MetaMap} :
    p ∈ (listKeys blobs "file/").filterMap SyncEngine.stripFile ↔
      fileKey p ∈ blobs ∧ endsInTmp p = false := by
  simp only [listKeys, List.mem_filterMap, List.mem_filter, Bool.and_eq_true, Bool.not_eq_true']
  constructor
  · rintro ⟨key, ⟨hkey, -, htmp⟩, hp⟩
    obtain rfl := stripFile_eq_some.1 hp
    exact ⟨hkey, (endsInTmp_fileKey p).symm.trans htmp⟩
  · rintro ⟨hp, htmp⟩
    refine ⟨fileKey p, ⟨hp, ?_, (endsInTmp_fileKey p).trans htmp⟩, stripFile_eq_some.2 rfl⟩
    exact List.isPrefixOf_iff_prefix.2 ⟨p.toList, (String.toList_append).symm⟩

/-- The known paths a scan did not list, as a listing has them. -/
def missing (blobs : MetaMap) (seen : List (Path × ℤ)) : List Path :=
  ((listKeys blobs "file/").filterMap SyncEngine.stripFile).filter (· ∉ seen.map Prod.fst)

/-- What a key is to that list. -/
def missing? (seen : List (Path × ℤ)) (key : String) : Option Path :=
  if startsWith "file/" key && !endsInTmp key then
    (SyncEngine.stripFile key).filter (· ∉ seen.map Prod.fst)
  else none

theorem missing_eq (blobs : MetaMap) (seen : List (Path × ℤ)) :
    missing blobs seen = blobs.keys.filterMap (missing? seen) := by
  rw [missing, listKeys, List.filterMap_filter, List.filter_filterMap]
  refine List.filterMap_congr fun key _ => ?_
  unfold missing?
  split <;> rfl

theorem missing_congr {seen seen' : List (Path × ℤ)} (blobs : MetaMap)
    (h : ∀ p, p ∈ seen'.map Prod.fst ↔ p ∈ seen.map Prod.fst) :
    missing blobs seen' = missing blobs seen :=
  List.filter_congr fun p _ => decide_eq_decide.2 (not_congr (h p))

/-- Other keys are no matter to it. -/
theorem missing_insert {blobs : MetaMap} {seen : List (Path × ℤ)} {key : String} (value : Blob)
    (h : ∀ p, key = fileKey p → p ∈ seen.map Prod.fst) :
    missing (blobs.insert key value) seen = missing blobs seen := by
  have hnone : missing? seen key = none := by
    unfold missing?
    split
    · rw [Option.filter_eq_none_iff]
      intro p hp
      simpa using h p (stripFile_eq_some.1 hp)
    · rfl
  have herase : ∀ keys : List String,
      (keys.erase key).filterMap (missing? seen) = keys.filterMap (missing? seen) := by
    intro keys
    induction keys with
    | nil => rfl
    | cons k keys ih =>
      rw [List.erase_cons]
      split
      · rename_i heq
        rw [List.filterMap_cons, eq_of_beq heq, hnone]
      · rw [List.filterMap_cons, List.filterMap_cons, ih]
  rw [missing_eq, missing_eq, AList.keys_insert, List.filterMap_cons, hnone, herase]

theorem exec_listFilePaths : ∃ paths,
    Fallible.exec alone (engine SyncEngine.listFilePaths) s = (.ok paths, s) ∧
      (∀ p, p ∈ paths ↔ s.Known p) ∧
        ∀ seen : List (Path × ℤ), paths.filter (· ∉ seen.map Prod.fst) = missing s.blobs seen :=
  ⟨_, exec_engine_of_ok rfl, fun _ => mem_listKeys, fun _ => rfl⟩

/-! ## The scanned files -/

/-- The bytes of the file at a place. -/
def bytesAt (s : Desktop) (q : Place) : Option Bytes := (s.disk.fileAt q).map Prod.fst

/-- A scanned file, recorded if its time is not the known one. -/
theorem exec_recordFile (hd : s.disk.WellFormed) (hfile : s.disk.fileAt q = some (c, t))
    (hin : ".." ∉ q) :
    Fallible.exec alone (recordFile eng mimeOf (Disk.relPath q) mtime) s =
      (.ok (), if s.knownTime (Disk.relPath q) = some mtime then s
        else s.upserted (Disk.relPath q) mtime (mimeOf (Disk.relPath q)) c) := by
  have hknown : Fallible.exec alone (engine (SyncEngine.readFileMeta (Disk.relPath q))) s =
      (.ok (s.fileMeta? (Disk.relPath q)), s) := exec_engine_of_ok rfl
  have hread : Fallible.exec alone (os (.readFile (Disk.relPath q))) s = (.ok (.ok c), s) := by
    show (Except.ok (osExec (.readFile (Disk.relPath q)) s).1,
      (osExec (.readFile (Disk.relPath q)) s).2) = _
    simp only [osExec, hd.pathFor_relPath (Disk.fileAt_eq_some.1 hfile) hin,
      FsFileStore.read_existing hd hfile]
  unfold recordFile
  rw [Fallible.exec_bind_of_ok hknown]
  by_cases hm : (s.fileMeta? (Disk.relPath q)).map FileMeta.mtime = some mtime
  · rw [if_pos hm, if_pos (show s.knownTime _ = _ from hm)]
    rfl
  · rw [if_neg hm, if_neg (show ¬ s.knownTime _ = _ from hm), Fallible.exec_bind_of_ok hread]
    exact exec_engine_of_ok (exec_recordUpsert (FsFileStore.put_existing hd hfile hin _ _ c))

/-- Recording a file keeps what every file holds. -/
theorem bytesAt_upserted (hd : s.disk.WellFormed) (hfile : s.disk.fileAt q = some (c, t))
    (hin : ".." ∉ q) (r : Place) :
    (s.upserted (Disk.relPath q) mtime contentType c).bytesAt r = s.bytesAt r := by
  by_cases hr : r = q
  · subst hr
    have hput := FsFileStore.fileAt_put_existing hd hfile hin s.now mtime c
    simp only [bytesAt, upserted, hput, hfile, Option.map_some]
  · have hput : (FsFileStore.put s.disk s.now (Disk.relPath q) c mtime).2.fileAt r =
        s.disk.fileAt r := by
      refine FsFileStore.fileAt_put_of_ne ?_
      rw [FsFileStore.leads_relPath hd (Disk.fileAt_eq_some.1 hfile) hin]
      exact fun h => hr (Option.some.inj h).symm
    simp only [bytesAt, upserted, hput]

/-- What going through the scanned files does. -/
structure FilesRecorded (files : List (Path × ℤ)) (s s' : Desktop) : Prop where
  wellFormed : s'.disk.WellFormed
  bytesAt : ∀ q, s'.bytesAt q = s.bytesAt q
  alike : s.disk.Alike s'.disk
  missing : ∀ seen, (∀ f ∈ files, f ∈ seen) → missing s'.blobs seen = missing s.blobs seen
  /-- A file whose time is known is left alone, and so is every path that
  was not scanned. -/
  untouched : ∀ p, (∀ m, (p, m) ∈ files → s.knownTime p = some m) → Untouched s s' p
  recorded : ∀ p m, (p, m) ∈ files → s.knownTime p ≠ some m → s'.Queued p false
  queued : ∀ p, s.Queued p false → s'.Queued p false

namespace FilesRecorded

variable {m : ℤ} {files : List (Path × ℤ)}

/-- A file whose time is known comes first: it is passed over. -/
theorem skipped (h : FilesRecorded files s s') (hknown : s.knownTime path = some m) :
    FilesRecorded ((path, m) :: files) s s' := by
  refine ⟨h.wellFormed, h.bytesAt, h.alike, fun seen hseen => ?_, fun p hp => ?_,
    fun p m' hmem hne => ?_, h.queued⟩
  · exact h.missing seen fun f hf => hseen f (List.mem_cons_of_mem _ hf)
  · exact h.untouched p fun m' hm' => hp m' (List.mem_cons_of_mem _ hm')
  · rcases List.mem_cons.1 hmem with heq | hmem
    · obtain ⟨rfl, rfl⟩ := Prod.mk.inj heq
      exact absurd hknown hne
    · exact h.recorded p m' hmem hne

/-- Any other comes first: it is put again and queued. -/
theorem upserted {contentType : String} {t : ℤ} (hd : s.disk.WellFormed)
    (hfile : s.disk.fileAt q = some (c, t)) (hin : ".." ∉ q)
    (h : FilesRecorded files (s.upserted (Disk.relPath q) m contentType c) s')
    (hknown : s.knownTime (Disk.relPath q) ≠ some m) :
    FilesRecorded ((Disk.relPath q, m) :: files) s s' := by
  have hfirst : ∀ p, Disk.relPath q ≠ p →
      Untouched s (s.upserted (Disk.relPath q) m contentType c) p := fun _ hp => untouched_upserted hp
  have hqueued : s'.Queued (Disk.relPath q) false := h.queued _ queued_upserted
  refine ⟨h.wellFormed, fun r => (h.bytesAt r).trans (bytesAt_upserted hd hfile hin r),
    (Disk.Alike.put_existing hd hfile hin s.now m c).trans h.alike, fun seen hseen => ?_,
    fun p hp => ?_, fun p m' hmem hne => ?_, fun p hp => ?_⟩
  · rw [h.missing seen fun f hf => hseen f (List.mem_cons_of_mem _ hf)]
    show Desktop.missing (queueing _ _ _) seen = _
    have hseen' : Disk.relPath q ∈ seen.map Prod.fst :=
      List.mem_map.2 ⟨(Disk.relPath q, m), hseen _ List.mem_cons_self, rfl⟩
    rw [queueing, missing_insert _ fun p hp => absurd hp.symm (fileKey_ne_pending p),
      missing_insert _ fun p hp => fileKey_inj.1 hp ▸ hseen']
  · have hne : Disk.relPath q ≠ p := by
      rintro rfl
      exact hknown (hp m List.mem_cons_self)
    refine (hfirst p hne).trans (h.untouched p fun m' hm' => ?_)
    rw [(hfirst p hne).knownTime]
    exact hp m' (List.mem_cons_of_mem _ hm')
  · by_cases hp : Disk.relPath q = p
    · exact hp ▸ hqueued
    · rcases List.mem_cons.1 hmem with heq | hmem
      · exact absurd (Prod.mk.inj heq).1.symm hp
      · exact h.recorded p m' hmem ((hfirst p hp).knownTime ▸ hne)
  · by_cases hpath : Disk.relPath q = p
    · exact hpath ▸ hqueued
    · exact h.queued p ((hfirst p hpath).queue false |>.2 hp)

end FilesRecorded

/-- **The scanned files**, one after another. -/
theorem exec_recordFiles (eng : SyncEngine) (mimeOf : Path → String) {files : List (Path × ℤ)}
    (hd : s.disk.WellFormed) (hfiles : ∀ p m, (p, m) ∈ files →
      ∃ q c, p = Disk.relPath q ∧ ".." ∉ q ∧ s.bytesAt q = some c) :
    ∃ s', Fallible.exec alone (recordFiles eng mimeOf files) s = (.ok (), s') ∧
      FilesRecorded files s s' := by
  induction files generalizing s with
  | nil =>
    exact ⟨s, rfl, hd, fun _ => rfl, .refl _, fun _ _ => rfl, fun _ _ => .rfl',
      fun p m h => absurd h List.not_mem_nil, fun _ h => h⟩
  | cons f files ih =>
    obtain ⟨path, m⟩ := f
    obtain ⟨q, c, rfl, hin, hbytes⟩ := hfiles path m List.mem_cons_self
    obtain ⟨⟨c', t⟩, hfile, hc⟩ := Option.map_eq_some_iff.1 hbytes
    obtain rfl : c' = c := hc
    have hrest : ∀ p m, (p, m) ∈ files →
        ∃ q c, p = Disk.relPath q ∧ ".." ∉ q ∧ s.bytesAt q = some c :=
      fun p m h => hfiles p m (List.mem_cons_of_mem _ h)
    have hone : Fallible.exec alone (recordFile eng mimeOf (Disk.relPath q) m) s = _ :=
      exec_recordFile hd hfile hin
    unfold recordFiles
    rw [Fallible.exec_bind_of_ok hone]
    by_cases hknown : s.knownTime (Disk.relPath q) = some m
    · rw [if_pos hknown]
      obtain ⟨s', hs', h⟩ := ih hd hrest
      exact ⟨s', hs', h.skipped hknown⟩
    · rw [if_neg hknown]
      -- the files that come later are where they were
      have hsame : ∀ r, (s.upserted (Disk.relPath q) m (mimeOf (Disk.relPath q)) c').bytesAt r =
          s.bytesAt r := bytesAt_upserted hd hfile hin
      obtain ⟨s', hs', h⟩ := ih (FsFileStore.wellFormed_put hd) fun p m' hmem => by
        obtain ⟨r, b, hp, hr, hb⟩ := hrest p m' hmem
        exact ⟨r, b, hp, hr, (hsame r).trans hb⟩
      exact ⟨s', hs', h.upserted hd hfile hin hknown⟩

/-! ## The missing files -/

/-- Removing the files of these paths, one after another, comes to the one at
the place. A link that is removed leads nowhere from then on. -/
def Removes : Disk → List Path → Place → Prop
  | _, [], _ => False
  | d, path :: paths, q =>
    FsFileStore.leads d path = some q ∨ Removes (FsFileStore.delete d path).2 paths q

theorem removes_congr {d d' : Disk} (h : d.Alike d') (paths : List Path) :
    Removes d' paths q ↔ Removes d paths q := by
  induction paths generalizing d d' with
  | nil => rfl
  | cons path paths ih =>
    rw [Removes, Removes, h.leads]
    exact or_congr_right (ih (h.delete path))

/-- What going through the known paths does, where it gets to its end. -/
structure MissingRecorded (seen : List (Path × ℤ)) (paths : List Path) (s s' : Desktop) :
    Prop where
  wellFormed : s'.disk.WellFormed
  untouched : ∀ p, p ∈ seen.map Prod.fst ∨ p ∉ paths → Untouched s s' p
  recorded : ∀ p ∈ paths, p ∉ seen.map Prod.fst → s'.Queued p true
  /-- No file is left where a path led whose deletion was recorded. -/
  removed : ∀ q, Removes s.disk (paths.filter (· ∉ seen.map Prod.fst)) q → s'.bytesAt q = none
  kept : ∀ q, ¬ Removes s.disk (paths.filter (· ∉ seen.map Prod.fst)) q →
    s'.bytesAt q = s.bytesAt q
  gone : ∀ q, s.bytesAt q = none → s'.bytesAt q = none
  clear : ∀ q, s.disk.Clear q → s'.disk.Clear q

/-- A removal leaves no file where there was none. -/
theorem bytesAt_removed_of_none (h : s.bytesAt q = none) :
    (s.removed path mtime).bytesAt q = none := by
  have hfile : s.disk.fileAt q = none := by simpa [bytesAt] using h
  show ((FsFileStore.delete s.disk path).2.fileAt q).map _ = none
  rw [Option.map_eq_none_iff, Option.eq_none_iff_forall_ne_some]
  rintro ⟨c, t⟩ hsome
  rw [FsFileStore.fileAt_of_delete hsome] at hfile
  cases hfile

namespace MissingRecorded

variable {seen : List (Path × ℤ)} {paths : List Path}

/-- A path that was seen comes first: it is left alone. -/
theorem passed (h : MissingRecorded seen paths s s') (hseen : path ∈ seen.map Prod.fst) :
    MissingRecorded seen (path :: paths) s s' := by
  have hfilter : (path :: paths).filter (· ∉ seen.map Prod.fst) =
      paths.filter (· ∉ seen.map Prod.fst) := List.filter_cons_of_neg (by simpa using hseen)
  refine ⟨h.wellFormed, fun p hp => ?_, fun p hp hpseen => ?_,
    fun q hq => h.removed q (hfilter ▸ hq), fun q hq => h.kept q (hfilter ▸ hq), h.gone, h.clear⟩
  · exact h.untouched p (hp.imp_right fun hp hmem => hp (List.mem_cons_of_mem _ hmem))
  · rcases List.mem_cons.1 hp with rfl | hmem
    exacts [absurd hseen hpseen, h.recorded p hmem hpseen]

/-- One that was not comes first: what it leads to is removed. -/
theorem deleted (h : MissingRecorded seen paths (s.removed path mtime) s')
    (hseen : path ∉ seen.map Prod.fst)
    (hdel : (FsFileStore.delete s.disk path).1 = .ok ()) :
    MissingRecorded seen (path :: paths) s s' := by
  have hfilter : (path :: paths).filter (· ∉ seen.map Prod.fst) =
      path :: paths.filter (· ∉ seen.map Prod.fst) :=
    List.filter_cons_of_pos (by simpa using hseen)
  refine ⟨h.wellFormed, fun p hp => ?_, fun p hp hpseen => ?_, fun q hq => ?_,
    fun q hq => ?_, fun q hq => h.gone q (bytesAt_removed_of_none hq),
    fun q hq => h.clear q (FsFileStore.clear_delete hq)⟩
  · have hne : path ≠ p := by
      rintro rfl
      rcases hp with hp | hp
      exacts [hseen hp, hp List.mem_cons_self]
    exact (untouched_removed hne).trans
      (h.untouched p (hp.imp_right fun hp hmem => hp (List.mem_cons_of_mem _ hmem)))
  · by_cases hmem : p ∈ paths
    · exact h.recorded p hmem hpseen
    · obtain rfl := (List.mem_cons.1 hp).resolve_right hmem
      exact (h.untouched p (.inr hmem)).queue true |>.2 queued_removed
  · rw [hfilter] at hq
    rcases hq with hq | hq
    · refine h.gone _ ?_
      show ((FsFileStore.delete s.disk path).2.fileAt q).map _ = none
      rw [FsFileStore.fileAt_delete_of_ok hq hdel]
      rfl
    · exact h.removed q hq
  · rw [hfilter] at hq
    rw [h.kept q fun hlater => hq (.inr hlater)]
    show ((FsFileStore.delete s.disk path).2.fileAt q).map _ = _
    rw [FsFileStore.fileAt_delete_of_ne fun hfirst => hq (.inl hfirst)]
    rfl

end MissingRecorded

/-- **The known paths**, one after another, where none of the removals fails. -/
theorem exec_recordMissing {seen : List (Path × ℤ)} {paths : List Path}
    (hd : s.disk.WellFormed)
    (hok : (Fallible.exec alone (recordMissing eng seen paths) s).1 = .ok ()) :
    MissingRecorded seen paths s (Fallible.exec alone (recordMissing eng seen paths) s).2 := by
  induction paths generalizing s with
  | nil =>
    exact ⟨hd, fun _ _ => .rfl', fun p h => absurd h List.not_mem_nil,
      fun _ h => h.elim, fun _ _ => rfl, fun _ h => h, fun _ h => h⟩
  | cons path paths ih =>
    unfold recordMissing at hok ⊢
    by_cases hseen : path ∉ seen.map Prod.fst
    · rw [if_pos hseen] at hok ⊢
      have hnow : Fallible.exec alone (os .nowSecs) s = (.ok s.now, s) := rfl
      rw [Fallible.exec_bind_of_ok hnow] at hok ⊢
      rcases hrun : Fallible.exec engineAlone (eng.recordDelete path s.now) s with ⟨e | ⟨⟩, s₁⟩
      · have herr := exec_engine (s := s) (eng.recordDelete path s.now)
        rw [hrun] at herr
        rw [Fallible.exec_bind_of_error herr] at hok
        cases hok
      have hdel := delete_ok_of_exec_recordDelete (congrArg Prod.fst hrun)
      have hone : Fallible.exec alone (engine (eng.recordDelete path s.now)) s = _ :=
        exec_engine_of_ok (exec_recordDelete hdel)
      rw [Fallible.exec_bind_of_ok hone] at hok ⊢
      exact (ih (FsFileStore.wellFormed_delete hd) hok).deleted hseen hdel
    · rw [if_neg hseen] at hok ⊢
      exact (ih hd hok).passed (not_not.1 hseen)

/-! ## The pass -/

/-- A path the scan lists. -/
def Seen (s : Desktop) (path : Path) : Prop := path ∈ s.disk.scan.map Prod.fst

instance : Decidable (s.Seen path) := inferInstanceAs (Decidable (_ ∈ _))

/-- The known paths the scan does not list. -/
def unseen (s : Desktop) : List Path := missing s.blobs s.disk.scan

/-- What the recording half of a pass does. -/
structure PassRecorded (s s' : Desktop) : Prop where
  wellFormed : s'.disk.WellFormed
  upsert : ∀ p m, (p, m) ∈ s.disk.scan →
    (s'.Queued p false ↔ s.knownTime p ≠ some m ∨ s.Queued p false)
  delete : ∀ p, ¬ s.Seen p → (s'.Queued p true ↔ s.Known p ∨ s.Queued p true)
  removed : ∀ q, Removes s.disk s.unseen q → s'.bytesAt q = none
  kept : ∀ q, ¬ Removes s.disk s.unseen q → s'.bytesAt q = s.bytesAt q
  clear : ∀ q, s.disk.Clear q → s'.disk.Clear q

/-- **A pass that gets to its end** has queued an upsert for every file whose
time it did not know and a delete for every known path it did not see, and
nothing else; a file is gone exactly if such a path leads to it. -/
theorem exec_recordChanges (hd : s.disk.WellFormed)
    (hok : (Fallible.exec alone (recordChanges eng mimeOf) s).1 = .ok ()) :
    PassRecorded s (Fallible.exec alone (recordChanges eng mimeOf) s).2 := by
  have hscan : Fallible.exec alone (os .scan) s = (.ok s.disk.scan, s) := rfl
  have hfiles : ∀ p m, (p, m) ∈ s.disk.scan →
      ∃ q c, p = Disk.relPath q ∧ ".." ∉ q ∧ s.bytesAt q = some c := by
    intro p m hmem
    obtain ⟨q, c, t, ⟨hfile, hshows⟩, rfl, rfl⟩ := Disk.mem_scan.1 hmem
    exact ⟨q, c, rfl, Disk.not_mem_of_shows hshows, by rw [bytesAt, hfile]; rfl⟩
  have hunique : ∀ p m m', (p, m) ∈ s.disk.scan → (p, m') ∈ s.disk.scan → m = m' := by
    intro p m m' hm hm'
    obtain ⟨q, c, t, ⟨hfile, hshows⟩, rfl, rfl⟩ := Disk.mem_scan.1 hm
    obtain ⟨q', c', t', ⟨hfile', hshows'⟩, heq, rfl⟩ := Disk.mem_scan.1 hm'
    obtain rfl := hd.relPath_inj (Disk.fileAt_eq_some.1 hfile) (Disk.fileAt_eq_some.1 hfile')
      (Disk.not_mem_of_shows hshows) (Disk.not_mem_of_shows hshows') heq
    rw [hfile] at hfile'
    obtain ⟨-, rfl⟩ := Prod.mk.inj (Option.some.inj hfile')
    rfl
  obtain ⟨s₁, hrun₁, h₁⟩ := exec_recordFiles eng mimeOf hd hfiles
  obtain ⟨paths, hrun₂, hpaths, hfilter⟩ := exec_listFilePaths (s := s₁)
  unfold recordChanges at hok ⊢
  rw [Fallible.exec_bind_of_ok hscan, Fallible.exec_bind_of_ok hrun₁,
    Fallible.exec_bind_of_ok hrun₂] at hok ⊢
  have h₂ := exec_recordMissing h₁.wellFormed hok
  have hmissing : paths.filter (· ∉ s.disk.scan.map Prod.fst) = s.unseen :=
    (hfilter _).trans (h₁.missing _ fun _ hf => hf)
  have hremoves : ∀ q, Removes s₁.disk (paths.filter (· ∉ s.disk.scan.map Prod.fst)) q ↔
      Removes s.disk s.unseen q := fun q => hmissing ▸ removes_congr h₁.alike _
  have hunseen : ∀ p, ¬ s.Seen p → Untouched s s₁ p := fun p hp =>
    h₁.untouched p fun m hm => absurd (List.mem_map.2 ⟨_, hm, rfl⟩) hp
  have hknown : ∀ p, ¬ s.Seen p → (p ∈ paths ↔ s.Known p) := fun p hp =>
    (hpaths p).trans (hunseen p hp).known
  refine ⟨h₂.wellFormed, fun p m hm => ?_, fun p hp => ?_,
    fun q hq => h₂.removed q ((hremoves q).2 hq), fun q hq => ?_,
    fun q hq => h₂.clear q (h₁.alike.clear hq)⟩
  · have hseen : p ∈ s.disk.scan.map Prod.fst := List.mem_map.2 ⟨_, hm, rfl⟩
    rw [(h₂.untouched p (.inl hseen)).queue]
    by_cases hkm : s.knownTime p = some m
    · have hsame : Untouched s s₁ p := h₁.untouched p fun m' hm' => by
        rw [hunique p m' m hm' hm, hkm]
      rw [hsame.queue]
      exact ⟨.inr, fun h => h.resolve_left fun hne => hne hkm⟩
    · exact ⟨fun _ => .inl hkm, fun _ => h₁.recorded p m hm hkm⟩
  · by_cases hk : s.Known p
    · exact ⟨fun _ => .inl hk, fun _ => h₂.recorded p ((hknown p hp).2 hk) hp⟩
    · have hnot : p ∉ paths := fun h => hk ((hknown p hp).1 h)
      rw [(h₂.untouched p (.inr hnot)).queue, (hunseen p hp).queue]
      exact ⟨.inr, fun h => h.resolve_left hk⟩
  · rw [h₂.kept q fun h => hq ((hremoves q).1 h), h₁.bytesAt]

end Desktop

end FileSync
