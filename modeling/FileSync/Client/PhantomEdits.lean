import FileSync.Client.Reconcile
import FileSync.Client.Faults
/-!
# A pull that is cut short, and the next scan

A pull writes an entry's file and then its metadata, and a pass takes a
file whose time is not the one in its metadata for a local edit, and
metadata without a file for a local deletion. So a pull that stops between
the two writes leaves something for the next pass to record, unless the
metadata says already what it is about to say; one that stops anywhere else
does not.
-/

namespace FileSync

/-- The operation writes a store. -/
def EngineReq.writes ⦃β : Type⦄ : EngineReq β → Bool
  | .metaPut .. => true
  | .metaDelete _ => true
  | .filePut .. => true
  | .fileDelete _ => true
  | _ => false

def DesktopReq.writes ⦃β : Type⦄ : DesktopReq β → Bool
  | .inl e => e.writes
  | .inr _ => false

namespace PhantomEdits

open Desktop

variable {eng : SyncEngine} {mimeOf : Path → String} {s s' : Desktop} {path p : Path} {q : Place}
  {m : ℤ} {c : Bytes} {files : List (Path × ℤ)} {paths : List Path}

/-- The recording half of a pass writes nothing: it records no upsert and no
delete. -/
def RecordsNothing (eng : SyncEngine) (mimeOf : Path → String) (s : Desktop) : Prop :=
  Fallible.Along alone (fun _ e _ => DesktopReq.writes e = false) (recordChanges eng mimeOf) s

/-! ## When a pass records nothing -/

/-- The scan, the metadata and their comparison leave nothing to record for
the path. -/
structure Settled (s : Desktop) (path : Path) : Prop where
  time : ∀ m, (path, m) ∈ s.disk.scan → s.knownTime path = some m
  seen : s.Known path → s.Seen path

/-- Whatever the desktop's own programs do not write, they do not write
through the engine. -/
theorem along_engine {α : Type} (x : Engine α) :
    Fallible.Along alone (fun _ e _ => DesktopReq.writes e = false) (engine x) s ↔
      Fallible.Along engineAlone (fun _ e _ => e.writes = false) x s := by
  unfold engine
  rw [Fallible.along_adapt, Fallible.Along, ExceptT.run_mk, Prog.along_expand]
  have hsame : ∀ (p : Prog EngineReq (Except SyncError α)) (s : Desktop),
      p.Along (fun _ e s => (Prog.perform (.inl e) : Prog DesktopReq _).run alone s)
        (fun _ e s => (Prog.perform (.inl e) : Prog DesktopReq _).Along alone
          (fun _ e _ => DesktopReq.writes e = false) s) s ↔
      p.Along engineAlone (fun _ e _ => e.writes = false) s := by
    intro p
    induction p with
    | done a => exact fun s => Iff.rfl
    | call e k ih => exact fun s => and_congr (and_iff_left trivial) (ih _ _)
  exact hsame x.run s

/-- Recording an upsert writes. -/
theorem not_along_recordUpsert {contentType : String} :
    ¬ Fallible.Along engineAlone (fun _ e _ => e.writes = false)
      (eng.recordUpsert path m contentType c) s := by
  intro h
  have hwrite := h.2.1
  cases hwrite

theorem not_along_recordDelete :
    ¬ Fallible.Along engineAlone (fun _ e _ => e.writes = false) (eng.recordDelete path m) s := by
  intro h
  have hwrite := h.2.1
  cases hwrite

/-- The scanned files: none is recorded exactly when every time is known. -/
theorem along_recordFiles (hd : s.disk.WellFormed)
    (hfiles : ∀ p m, (p, m) ∈ files →
      ∃ q c, p = Disk.relPath q ∧ ".." ∉ q ∧ s.bytesAt q = some c) :
    Fallible.Along alone (fun _ e _ => DesktopReq.writes e = false) (recordFiles eng mimeOf files) s ↔
      ∀ p m, (p, m) ∈ files → s.knownTime p = some m := by
  induction files with
  | nil => exact ⟨fun _ p m h => absurd h List.not_mem_nil, fun _ => trivial⟩
  | cons f files ih =>
    obtain ⟨path, m⟩ := f
    obtain ⟨q, c, rfl, hin, hbytes⟩ := hfiles path m List.mem_cons_self
    obtain ⟨⟨c', t⟩, hfile, hc⟩ := Option.map_eq_some_iff.1 hbytes
    obtain rfl : c' = c := hc
    have hone : Fallible.exec alone (recordFile eng mimeOf (Disk.relPath q) m) s = _ :=
      exec_recordFile hd hfile hin
    have hread : Fallible.exec alone (engine (SyncEngine.readFileMeta (Disk.relPath q))) s =
        (.ok (s.fileMeta? (Disk.relPath q)), s) := exec_engine_of_ok rfl
    have hquiet : Fallible.Along engineAlone (fun _ e _ => e.writes = false)
        (SyncEngine.readFileMeta (Disk.relPath q)) s := ⟨rfl, trivial⟩
    have hfirst : Fallible.Along alone (fun _ e _ => DesktopReq.writes e = false)
        (recordFile eng mimeOf (Disk.relPath q) m) s ↔
          s.knownTime (Disk.relPath q) = some m := by
      unfold recordFile
      rw [Fallible.along_bind_of_ok hread, and_iff_right ((along_engine _).2 hquiet)]
      by_cases hm : (s.fileMeta? (Disk.relPath q)).map FileMeta.mtime = some m
      · rw [if_pos hm]
        exact iff_of_true trivial hm
      · rw [if_neg hm]
        refine iff_of_false (fun h => ?_) hm
        have hos : Fallible.exec alone (os (.readFile (Disk.relPath q))) s = (.ok (.ok c'), s) := by
          show (Except.ok (osExec (.readFile (Disk.relPath q)) s).1,
            (osExec (.readFile (Disk.relPath q)) s).2) = _
          simp only [osExec, hd.pathFor_relPath (Disk.fileAt_eq_some.1 hfile) hin,
            FsFileStore.read_existing hd hfile]
        have hrecord := ((Fallible.along_bind_of_ok hos).1 h).2
        exact not_along_recordUpsert ((along_engine _).1 hrecord)
    -- nothing changes before the first unknown time, so all are compared in one state
    unfold recordFiles
    rw [Fallible.along_bind_of_ok hone, hfirst]
    constructor
    · rintro ⟨hm, hrest⟩ p m' hmem
      rw [if_pos hm] at hrest
      rcases List.mem_cons.1 hmem with heq | hmem
      · obtain ⟨rfl, rfl⟩ := Prod.mk.inj heq
        exact hm
      · exact (ih fun p m h => hfiles p m (List.mem_cons_of_mem _ h)).1 hrest p m' hmem
    · intro h
      have hm := h _ m List.mem_cons_self
      rw [if_pos hm]
      exact ⟨hm, (ih fun p m h => hfiles p m (List.mem_cons_of_mem _ h)).2 fun p m' hmem =>
        h p m' (List.mem_cons_of_mem _ hmem)⟩

/-- Then going through them changes nothing. -/
theorem exec_recordFiles_of_known (hd : s.disk.WellFormed)
    (hfiles : ∀ p m, (p, m) ∈ files →
      ∃ q c, p = Disk.relPath q ∧ ".." ∉ q ∧ s.bytesAt q = some c)
    (hknown : ∀ p m, (p, m) ∈ files → s.knownTime p = some m) :
    Fallible.exec alone (recordFiles eng mimeOf files) s = (.ok (), s) := by
  induction files with
  | nil => rfl
  | cons f files ih =>
    obtain ⟨path, m⟩ := f
    obtain ⟨q, c, rfl, hin, hbytes⟩ := hfiles path m List.mem_cons_self
    obtain ⟨⟨c', t⟩, hfile, hc⟩ := Option.map_eq_some_iff.1 hbytes
    obtain rfl : c' = c := hc
    have hone : Fallible.exec alone (recordFile eng mimeOf (Disk.relPath q) m) s = _ :=
      exec_recordFile hd hfile hin
    rw [if_pos (hknown _ m List.mem_cons_self)] at hone
    unfold recordFiles
    rw [Fallible.exec_bind_of_ok hone]
    exact ih (fun p m h => hfiles p m (List.mem_cons_of_mem _ h)) fun p m h =>
      hknown p m (List.mem_cons_of_mem _ h)

/-- The known paths: none is recorded exactly when every one was seen. -/
theorem along_recordMissing :
    Fallible.Along alone (fun _ e _ => DesktopReq.writes e = false) (recordMissing eng files paths) s ↔
      ∀ p ∈ paths, p ∈ files.map Prod.fst := by
  induction paths with
  | nil => exact ⟨fun _ p h => absurd h List.not_mem_nil, fun _ => trivial⟩
  | cons path paths ih =>
    unfold recordMissing
    by_cases hseen : path ∉ files.map Prod.fst
    · rw [if_pos hseen]
      refine iff_of_false (fun h => ?_) fun h => hseen (h path List.mem_cons_self)
      have hnow : Fallible.exec alone (os .nowSecs) s = (.ok s.now, s) := rfl
      rw [Fallible.along_bind_of_ok hnow] at h
      have hrest := h.2
      rcases hrun : Fallible.exec alone (engine (eng.recordDelete path s.now)) s with ⟨e | a, s'⟩
      · rw [Fallible.along_bind_of_error hrun] at hrest
        exact not_along_recordDelete ((along_engine _).1 hrest)
      · rw [Fallible.along_bind_of_ok hrun] at hrest
        exact not_along_recordDelete ((along_engine _).1 hrest.1)
    · rw [if_neg hseen, List.forall_mem_cons, and_iff_right (by simpa using hseen)]
      exact ih

/-- **A pass records nothing exactly when every path is settled.** -/
theorem recordsNothing_iff (hd : s.disk.WellFormed) :
    RecordsNothing eng mimeOf s ↔ ∀ path, Settled s path := by
  have hscan : Fallible.exec alone (os .scan) s = (.ok s.disk.scan, s) := rfl
  have hfiles : ∀ p m, (p, m) ∈ s.disk.scan →
      ∃ q c, p = Disk.relPath q ∧ ".." ∉ q ∧ s.bytesAt q = some c := by
    intro p m hmem
    obtain ⟨q, c, t, ⟨hfile, hshows⟩, rfl, rfl⟩ := Disk.mem_scan.1 hmem
    exact ⟨q, c, rfl, Disk.not_mem_of_shows hshows, by rw [bytesAt, hfile]; rfl⟩
  obtain ⟨paths, hlist, hpaths, -⟩ := exec_listFilePaths (s := s)
  have hquiet : Fallible.Along alone (fun _ e _ => DesktopReq.writes e = false)
      (engine SyncEngine.listFilePaths) s := (along_engine _).2 ⟨rfl, trivial⟩
  unfold RecordsNothing recordChanges
  rw [Fallible.along_bind_of_ok hscan, and_iff_right ⟨rfl, trivial⟩]
  constructor
  · intro h
    have htimes : ∀ p m, (p, m) ∈ s.disk.scan → s.knownTime p = some m := by
      show ∀ p m, _
      rw [← along_recordFiles hd hfiles]
      rcases hrun : Fallible.exec alone (recordFiles eng mimeOf s.disk.scan) s with ⟨e | a, s'⟩
      · rwa [Fallible.along_bind_of_error hrun] at h
      · rw [Fallible.along_bind_of_ok hrun] at h
        exact h.1
    rw [Fallible.along_bind_of_ok (exec_recordFiles_of_known hd hfiles htimes),
      Fallible.along_bind_of_ok hlist] at h
    have hmissing := along_recordMissing.1 h.2.2
    exact fun path => ⟨htimes path, fun hk => hmissing path ((hpaths path).2 hk)⟩
  · intro h
    have htimes : ∀ p m, (p, m) ∈ s.disk.scan → s.knownTime p = some m := fun p => (h p).time
    rw [Fallible.along_bind_of_ok (exec_recordFiles_of_known hd hfiles htimes),
      Fallible.along_bind_of_ok hlist]
    exact ⟨(along_recordFiles hd hfiles).2 htimes, hquiet,
      along_recordMissing.2 fun p hp => (h p).seen ((hpaths p).1 hp)⟩

/-! ## One path at a time -/

/-- The path the walk has for the file a path leads to. -/
def walkName (d : Disk) (path : Path) : Option Path :=
  (FsFileStore.leads d path).bind fun r => if d.shows r then some (Disk.relPath r) else none

theorem walkName_eq_some {d : Disk} : walkName d path = some p ↔
    ∃ r, FsFileStore.leads d path = some r ∧ d.shows r = true ∧ Disk.relPath r = p := by
  unfold walkName
  simp only [Option.bind_eq_some_iff, Option.ite_none_right_eq_some, Option.some_inj]

variable {β : Type} {e : EngineReq β} {o : HubAnswers} {data : Bytes}

/-- A file that is written is scanned with the time it is given. -/
theorem mem_scan_filePut {now : ℤ} {d : Disk} (hd : d.WellFormed)
    (hok : (FsFileStore.put d now path data m).1 = .ok ()) (hname : walkName d path = some p)
    (m' : ℤ) : (p, m') ∈ (FsFileStore.put d now path data m).2.scan ↔
      m' = max 0 (d.stamp now m) := by
  obtain ⟨r, hr, hshows, rfl⟩ := walkName_eq_some.1 hname
  obtain ⟨r', hr', hfile⟩ := FsFileStore.fileAt_put_of_ok hok
  obtain rfl := Option.some.inj (hr.symm.trans hr')
  rw [Disk.mem_scan_relPath (FsFileStore.wellFormed_put hd) (FsFileStore.names_of_leads hd hr)
    (FsFileStore.shows_put.trans hshows), hfile]
  constructor
  · rintro ⟨c, t, heq, rfl⟩
    rw [(Prod.mk.inj (Option.some.inj heq)).2]
  · exact fun h => ⟨data, _, rfl, h⟩

/-- The engine on the directory, a hub's answers being fixed. The count says
how often a file was asked for. -/
def pulling (H : HubScript) : Prog.Handler EngineReq (Desktop × ℕ) := fun _ e a =>
  let r := engineExec e ⟨H.changes, H.file a.2, .error (.transport "")⟩ a.1
  (r.1, (r.2, match e with
    | .hubGetFile _ _ => a.2 + 1
    | _ => a.2))

/-- Where a pull is cut short: the process stops after some operations, or
an operation fails, taking place or not. -/
inductive Stop
  | halted (n : ℕ)
  | failed (n : ℕ) (took : Bool)

/-- The operations that have taken place. -/
def Stop.calls : Stop → ℕ
  | halted n => n
  | failed n took => if took then n + 1 else n

variable {H : HubScript} {hub : HubId}

/-- Nothing synced yet. -/
def fresh : Desktop := ⟨∅, Disk.empty, 5⟩

/-- The hub has one file. -/
def newFile : HubScript where
  changes := .ok ⟨[⟨"a", false, ⟨1, "x"⟩⟩], 1⟩
  file _ := .ok (some ⟨some ⟨1, "x"⟩, 7, octetStream, [1]⟩)

end PhantomEdits

end FileSync
