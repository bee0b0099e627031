import FileSync.Model.Scan
import FileSync.Client.Reconcile
import FileSync.Client.Faults
import FileSync.Client.Directory
/-!
# Which paths a pass takes for deleted

A known path the walk does not list is recorded as deleted. The walk does
not list what it could not read, what is named like a temporary file, and
what lies behind a link, and it lists every file under one path only. So a
file is safe where nothing on the way to it hides it from the walk, and
where its path is the one the walk gives it.
-/

namespace FileSync

/-! ## What the walk lists -/

/-- From a directory on, nothing on the way to a place hides it from the
walk. -/
def ScanErrors.shows (io : ScanErrors) : List OsName → List OsName → Bool
  | _, [] => true
  | dir, name :: names =>
    !io.readDir dir && !io.entry (dir ++ [name]) && !name.isTemp &&
      !io.fileType (dir ++ [name]) && io.shows (dir ++ [name]) names

variable {io : ScanErrors} {follow : Bool}

theorem Listing.mem_names_of_hasFile : ∀ {l : Listing} {name : OsName} {names : List OsName},
    l.hasFile follow name names = true → name ∈ l.names
  | .nil, _, _, h => by simp [Listing.hasFile] at h
  | .cons entry node rest, name, names, h => by
    unfold Listing.hasFile at h
    split at h
    · rename_i heq
      exact heq ▸ List.mem_cons_self
    · exact List.mem_cons_of_mem _ (mem_names_of_hasFile h)

mutual

/-- **What the walk lists below a place.** -/
theorem FsNode.mem_scan : ∀ (node : FsNode) (path : List OsName) (p : Path),
    node.wellFormed = true → (p ∈ (node.scan io path).map Prod.fst ↔
      ∃ names, node.hasFile false names = true ∧ relPath? (path ++ names) = some p ∧
        io.shows path names = true)
  | .file mtime, path, p, _ => by
    have hempty : ∀ names, (FsNode.file mtime).hasFile false names = true ↔ names = [] :=
      fun names => by cases names <;> simp [FsNode.hasFile]
    simp only [hempty, exists_eq_left, List.append_nil, FsNode.scan, ScanErrors.shows, and_true]
    cases relPath? path with
    | none => simp
    | some rel =>
      simp only [List.map_cons, List.map_nil, List.mem_singleton, Option.some.injEq]
      exact eq_comm
  | .dir entries, path, p, h => by
    have hentries := entries.mem_scan path p h
    unfold FsNode.scan
    cases hread : io.readDir path with
    | true =>
      simp only [if_true, List.map_nil, List.not_mem_nil, false_iff]
      rintro ⟨names, hfile, -, hshows⟩
      cases names with
      | nil => simp [FsNode.hasFile] at hfile
      | cons name names => simp [ScanErrors.shows, hread] at hshows
    | false =>
      rw [if_neg (by simp), hentries]
      constructor
      · rintro ⟨name, names, hfile, hpath, hrest⟩
        exact ⟨name :: names, hfile, hpath, by simpa [ScanErrors.shows, hread] using hrest⟩
      · rintro ⟨names, hfile, hpath, hshows⟩
        cases names with
        | nil => simp [FsNode.hasFile] at hfile
        | cons name names =>
          exact ⟨name, names, hfile, hpath, by simpa [ScanErrors.shows, hread] using hshows⟩
  | .link target, path, p, _ => by
    simp only [FsNode.scan, List.map_nil, List.not_mem_nil, false_iff]
    rintro ⟨names, hfile, -⟩
    cases names <;> simp [FsNode.hasFile] at hfile
  | .other, path, p, _ => by
    simp only [FsNode.scan, List.map_nil, List.not_mem_nil, false_iff]
    rintro ⟨names, hfile, -⟩
    cases names <;> simp [FsNode.hasFile] at hfile

theorem Listing.mem_scan : ∀ (l : Listing) (dir : List OsName) (p : Path),
    l.wellFormed = true → (p ∈ (l.scan io dir).map Prod.fst ↔
      ∃ name names, l.hasFile false name names = true ∧ relPath? (dir ++ name :: names) = some p ∧
        (((io.entry (dir ++ [name]) = false ∧ name.isTemp = false) ∧
          io.fileType (dir ++ [name]) = false) ∧ io.shows (dir ++ [name]) names = true))
  | .nil, dir, p, _ => by simp [Listing.scan, Listing.hasFile]
  | .cons entry node rest, dir, p, h => by
    simp only [Listing.wellFormed, Bool.and_eq_true, decide_eq_true_eq] at h
    obtain ⟨⟨⟨-, hnot⟩, hnode⟩, hrest⟩ := h
    have hfirst := node.mem_scan (dir ++ [entry]) p hnode
    have hothers := rest.mem_scan dir p hrest
    -- the first entry's files, and those of the rest under other names
    simp only [Listing.scan, List.map_append, List.mem_append, hothers]
    constructor
    · rintro (hp | ⟨name, names, hfile, hpath, hshows⟩)
      · split_ifs at hp with h1 h2 h3
        · simp at hp
        · simp at hp
        · simp at hp
        · obtain ⟨names, hfile, hpath, hshows⟩ := hfirst.1 hp
          refine ⟨entry, names, ?_, by simpa using hpath, ⟨⟨?_, ?_⟩, ?_⟩, hshows⟩
          · simpa [Listing.hasFile] using hfile
          · simpa using h1
          · simpa using h2
          · simpa using h3
      · have hne : entry ≠ name := fun heq => hnot (heq ▸ Listing.mem_names_of_hasFile hfile)
        exact ⟨name, names, by simpa [Listing.hasFile, hne] using hfile, hpath, hshows⟩
    · rintro ⟨name, names, hfile, hpath, ⟨⟨h1, h2⟩, h3⟩, hshows⟩
      unfold Listing.hasFile at hfile
      split at hfile
      · rename_i heq
        subst heq
        left
        rw [h1, h2, h3]
        exact hfirst.2 ⟨names, hfile, by simpa using hpath, hshows⟩
      · exact .inr ⟨name, names, hfile, hpath, ⟨⟨h1, h2⟩, h3⟩, hshows⟩

end

mutual

/-- Every name on the way to a file is one. -/
theorem FsNode.valid_of_hasFile : ∀ (node : FsNode) (names : List OsName),
    node.wellFormed = true → node.hasFile follow names = true → ∀ name ∈ names, name.valid = true
  | .file _, names, _, h => by cases names <;> simp_all [FsNode.hasFile]
  | .dir entries, [], _, _ => by simp
  | .dir entries, name :: names, hw, h => entries.valid_of_hasFile name names hw h
  | .link _, [], _, _ => by simp
  | .link target, name :: names, hw, h => by
    simp only [FsNode.hasFile, Bool.and_eq_true] at h
    exact target.valid_of_hasFile (name :: names) hw h.2
  | .other, names, _, h => by cases names <;> simp_all [FsNode.hasFile]

theorem Listing.valid_of_hasFile : ∀ (l : Listing) (name : OsName) (names : List OsName),
    l.wellFormed = true → l.hasFile follow name names = true →
      ∀ n ∈ name :: names, n.valid = true
  | .nil, _, _, _, h => by simp [Listing.hasFile] at h
  | .cons entry node rest, name, names, hw, h => by
    simp only [Listing.wellFormed, Bool.and_eq_true] at hw
    obtain ⟨⟨⟨hvalid, -⟩, hnode⟩, hrest⟩ := hw
    unfold Listing.hasFile at h
    split at h
    · rename_i heq
      intro n hn
      rcases List.mem_cons.1 hn with rfl | hn
      · exact heq ▸ hvalid
      · exact node.valid_of_hasFile names hnode h n hn
    · exact rest.valid_of_hasFile name names hrest h

end

/-! ## Paths -/

theorem relPath?_names (p : Place) : relPath? (SyncDir.names p) = some (Disk.relPath p) := by
  have hmap : (SyncDir.names p).mapM OsName.utf8? = some p := by
    induction p with
    | nil => rfl
    | cons name p ih =>
      rw [SyncDir.names, List.map_cons, List.mapM_cons]
      rw [SyncDir.names] at ih
      rw [ih]
      rfl
  rw [relPath?, hmap]
  rfl

/-- What has a path has names that are UTF-8. -/
theorem eq_names_of_relPath? {names : List OsName} {path : Path} (h : relPath? names = some path) :
    ∃ p : Place, names = SyncDir.names p ∧ path = Disk.relPath p := by
  obtain ⟨p, hp, rfl⟩ := Option.map_eq_some_iff.1 h
  refine ⟨p, ?_, rfl⟩
  clear h
  induction names generalizing p with
  | nil =>
    obtain rfl := Option.some.inj hp
    rfl
  | cons name names ih =>
    cases name with
    | raw bytes => cases hp
    | utf8 name =>
      rw [List.mapM_cons] at hp
      obtain ⟨n, hn, hp⟩ := Option.bind_eq_some_iff.1 hp
      obtain ⟨rest, hrest, hp⟩ := Option.bind_eq_some_iff.1 hp
      obtain rfl := Option.some.inj hn
      obtain rfl := Option.some.inj hp
      rw [ih rest hrest]
      rfl

namespace SyncDir

variable {d : SyncDir} {path : Path}

/-- **Nothing hides the file at a path from the walk**: the path is spelled
as the walk spells it, no link is on the way, and every directory, entry and
type on the way can be read, of names none of which ends in `.tmp`. -/
def walked (d : SyncDir) (io : ScanErrors) (path : Path) : Bool :=
  match FsFileStore.pathFor path with
  | .ok l => decide (Disk.relPath l.place = path) &&
      (FsNode.dir d.listing).hasFile false (names l.place) && io.shows [] (names l.place)
  | .error _ => false

/-- **The walk lists a file's path** exactly when nothing hides it. -/
theorem mem_scan_iff (hfile : d.hasFile path = true) :
    path ∈ (d.scan io).map Prod.fst ↔ d.walked io path = true := by
  obtain ⟨l, hl⟩ : ∃ l, FsFileStore.pathFor path = .ok l := by
    unfold hasFile at hfile
    split at hfile
    · rename_i l hl
      exact ⟨l, hl⟩
    · cases hfile
  have hroot : (FsNode.dir d.listing).wellFormed = true := d.ok
  have hscan : path ∈ (d.scan io).map Prod.fst ↔ ∃ names,
      (FsNode.dir d.listing).hasFile false names = true ∧ relPath? names = some path ∧
        io.shows [] names = true := (FsNode.dir d.listing).mem_scan [] path hroot
  rw [hscan, walked, hl]
  simp only [Bool.and_eq_true, decide_eq_true_eq]
  constructor
  · rintro ⟨ns, hns, hpath, hshows⟩
    obtain ⟨p, rfl, rfl⟩ := eq_names_of_relPath? hpath
    have hvalid : ∀ name ∈ p, ValidName name := fun name hname => by
      have h := (FsNode.dir d.listing).valid_of_hasFile _ hroot hns (.utf8 name)
        (List.mem_map_of_mem hname)
      simpa [OsName.valid] using h
    have hne : p ≠ [] := by
      rintro rfl
      simp [names, FsNode.hasFile] at hns
    have hp := FsFileStore.pathFor_relPath hne hvalid
    obtain rfl : l = ⟨p, false⟩ := Except.ok.inj (hl.symm.trans hp)
    exact ⟨⟨rfl, hns⟩, hshows⟩
  · rintro ⟨⟨hpath, hns⟩, hshows⟩
    exact ⟨names l.place, hns, by rw [relPath?_names, hpath], hshows⟩

end SyncDir

/-! ## The pass, one call for each operation of the engine -/

namespace Pass

variable (eng : SyncEngine) {mimeOf : Path → String} {α γ : Type}

/-- The pass's calls, opened. -/
def desktop (x : PassM α) : DesktopM α := .mk (x.run.expand (opened eng))

theorem desktop_bind (x : PassM γ) (f : γ → PassM α) :
    desktop eng (x >>= f) = desktop eng x >>= fun a => desktop eng (f a) := by
  show (x >>= f).run.expand (opened eng) = (desktop eng x >>= fun a => desktop eng (f a)).run
  rw [ExceptT.run_bind, ExceptT.run_bind, Prog.expand_bind]
  refine congrArg _ (funext fun r => ?_)
  cases r <;> rfl

theorem desktop_recordFiles (files : List (Path × ℤ)) :
    desktop eng (recordFiles mimeOf files) = Desktop.recordFiles eng mimeOf files := by
  have hfile : ∀ path mtime,
      desktop eng (recordFile mimeOf path mtime) = Desktop.recordFile eng mimeOf path mtime := by
    intro path mtime
    unfold recordFile Desktop.recordFile
    rw [desktop_bind]
    refine congrArg _ (funext fun known => ?_)
    split
    · rfl
    · rw [desktop_bind]
      refine congrArg _ (funext fun r => ?_)
      rcases r with (_ | _) | _ <;> rfl
  induction files with
  | nil => rfl
  | cons f files ih =>
    obtain ⟨path, mtime⟩ := f
    rw [recordFiles, desktop_bind, hfile, ih]
    rfl

theorem desktop_recordMissing (seen : List (Path × ℤ)) (paths : List Path) :
    desktop eng (recordMissing seen paths) = Desktop.recordMissing eng seen paths := by
  induction paths with
  | nil => rfl
  | cons path paths ih =>
    unfold recordMissing Desktop.recordMissing
    split
    · rw [desktop_bind]
      refine congrArg _ (funext fun now => ?_)
      rw [desktop_bind]
      exact congrArg (Desktop.engine (eng.recordDelete path now) >>= ·) (funext fun _ => ih)
    · exact ih

/-- **The pass is the desktop client's**, its calls opened. -/
theorem desktop_reconcileAndSync :
    desktop eng (reconcileAndSync mimeOf) = Desktop.reconcileAndSync eng mimeOf := by
  unfold reconcileAndSync Desktop.reconcileAndSync Desktop.recordChanges
  simp only [desktop_bind, desktop_recordFiles, desktop_recordMissing, bind_assoc]
  rfl

end Pass

/-! ## What the pass meets -/

/-- What becomes of an operation, and what comes back from outside. -/
structure PassChance where
  fate : Fate
  answers : HubAnswers
  /-- What the file store has. -/
  stored : Except StoreError (Option Bytes)
  /-- What reading a scanned file gives. -/
  content : Except IoError Bytes
  now : ℤ

/-- The client's bookkeeping, and how many operations there have been. -/
structure Passing where
  blobs : MetaMap
  ops : ℕ

namespace Passing

/-- What an operation of the engine does when it is done. -/
def take (o : PassChance) ⦃β : Type⦄ : EngineReq β → MetaMap → β × MetaMap
  | .metaGet key, s => (.ok (s.lookup key), s)
  | .metaPut key value, s => (.ok (), s.insert key value)
  | .metaDelete key, s => (.ok (), s.erase key)
  | .metaListKeys pre, s => (.ok (Desktop.listKeys s pre), s)
  | .fileGet _, s => (o.stored, s)
  | .filePut _ _ _, s => (.ok (), s)
  | .fileDelete _, s => (.ok (), s)
  | .hubChanges _ _, s => (o.answers.changes, s)
  | .hubGetFile _ _, s => (o.answers.file, s)
  | .hubPush _ _, s => (o.answers.push, s)
  | .notifyError _, s => ((), s)

/-- What the walk finds, and what else comes from the system. -/
def osTake (d : SyncDir) (io : ScanErrors) (o : PassChance) ⦃β : Type⦄ : OsReq β → β
  | .scan => d.scan io
  | .readFile _ => o.content
  | .nowSecs => o.now

/-- One operation of the engine: `chance` says what becomes of each. -/
def engineExec (chance : ℕ → PassChance) : Prog.Handler EngineReq Passing := fun _ e s =>
  let r := (chance s.ops).fate.deal e (take (chance s.ops) e s.blobs) s.blobs
  (r.1, ⟨r.2, s.ops + 1⟩)

/-- One operation. -/
def exec (d : SyncDir) (io : ScanErrors) (chance : ℕ → PassChance) ⦃β : Type⦄ :
    DesktopReq β → Passing → β × Passing
  | .inl e, s => engineExec chance e s
  | .inr e, s => (osTake d io (chance s.ops) e, ⟨s.blobs, s.ops + 1⟩)

/-- One call of the pass. -/
def call (eng : SyncEngine) (d : SyncDir) (io : ScanErrors) (chance : ℕ → PassChance) :
    Prog.Handler PassReq Passing := fun _ e s => (Pass.opened eng e).run (exec d io chance) s

/-- `record_delete` is called only for a path at which there is no file. -/
def OnlyMissing (d : SyncDir) ⦃β : Type⦄ : PassReq β → Passing → Prop
  | .recordDelete path _, _ => d.hasFile path = false
  | _, _ => True

/-- **Only real deletions are recorded**, in the run this chance is of. -/
def RealDeletions (eng : SyncEngine) (mimeOf : Path → String) (d : SyncDir) (io : ScanErrors)
    (chance : ℕ → PassChance) (blobs : MetaMap) : Prop :=
  Fallible.Along (call eng d io chance) (OnlyMissing d) (Pass.reconcileAndSync mimeOf) ⟨blobs, 0⟩

/-- The paths the client has metadata for, as `list_file_paths` has them. -/
def known (blobs : MetaMap) : List Path :=
  (Desktop.listKeys blobs "file/").filterMap SyncEngine.stripFile

variable {eng : SyncEngine} {mimeOf : Path → String} {d : SyncDir} {io : ScanErrors}
  {chance : ℕ → PassChance} {blobs : MetaMap} {s s' : Passing} {paths : List Path} {path : Path}
  {seen files : List (Path × ℤ)} {α : Type}

theorem mem_known : path ∈ known blobs ↔ fileKey path ∈ blobs ∧ endsInTmp path = false :=
  Desktop.mem_listKeys

/-- An operation of the engine runs as the engine runs it. -/
theorem run_engine (x : Engine α) :
    (x.run.expand fun _ e => (Prog.perform (.inl e) : Prog DesktopReq _)).run (exec d io chance) s =
      Fallible.exec (engineExec chance) x s :=
  Prog.run_expand _ _

/-! ## What comes to be known -/

/-- Metadata is put only under the keys of these paths. -/
def PutsFor (paths : List Path) ⦃β : Type⦄ : EngineReq β → Prop
  | .metaPut key _ => ∀ p, key = fileKey p → p ∈ paths
  | _ => True

/-- Only these paths are recorded, as upserts. -/
def Upserts (paths : List Path) ⦃β : Type⦄ : PassReq β → Prop
  | .recordUpsert path _ _ _ => path ∈ paths
  | .recordDelete _ _ => False
  | .sync => False
  | _ => True

/-- What is known was, or is one of these paths. -/
def KnownOf (blobs : MetaMap) (paths : List Path) (s : Passing) : Prop :=
  ∀ p, fileKey p ∈ s.blobs → fileKey p ∈ blobs ∨ p ∈ paths

theorem knownOf_exec (chance : ℕ → PassChance) {β : Type} {e : EngineReq β}
    (he : PutsFor paths e) (hs : KnownOf blobs paths s) :
    KnownOf blobs paths (engineExec chance e s).2 := by
  have htake : ∀ o p, fileKey p ∈ (take o e s.blobs).2 → fileKey p ∈ blobs ∨ p ∈ paths := by
    intro o p hp
    cases e with
    | metaPut key value =>
      rcases (AList.mem_insert _).1 hp with hkey | hp
      · exact .inr (he p hkey.symm)
      · exact hs p hp
    | metaDelete key => exact hs p (AList.mem_erase.1 hp).2
    | _ => exact hs p hp
  intro p hp
  rcases Fate.deal_snd (chance s.ops).fate e (take (chance s.ops) e s.blobs) s.blobs with h | h
  · have hsame : (engineExec chance e s).2.blobs = s.blobs := h
    rw [hsame] at hp
    exact hs p hp
  · have htook : (engineExec chance e s).2.blobs = (take (chance s.ops) e s.blobs).2 := h
    rw [htook] at hp
    exact htake _ p hp

theorem putsFor_pending (value : Blob) : PutsFor paths (.metaPut keyPending value) :=
  fun p hp => absurd hp (pending_ne_fileKey p)

theorem putsFor_recordUpsert {mtime : ℤ} {contentType : String} {content : Bytes}
    (hpath : path ∈ paths) :
    Fallible.All (PutsFor paths) (eng.recordUpsert path mtime contentType content) := by
  have hmeta : ∀ m, PutsFor paths (.metaPut (fileKey path) (.fileMeta m)) := fun m p hp => by
    rwa [← fileKey_inj.1 hp]
  refine SyncEngine.all_report (fun _ => trivial) ?_
  refine .bind (.bind (SyncEngine.all_store trivial) fun _ => Fallible.all_pure _) fun _ => ?_
  refine .bind (SyncEngine.all_store trivial) fun _ => ?_
  refine .bind (SyncEngine.all_store (hmeta _)) fun _ => ?_
  refine .bind (.bind (SyncEngine.all_store trivial) fun r => by
    cases r <;> exact Fallible.all_pure _) fun _ => ?_
  exact SyncEngine.all_store (putsFor_pending _)

/-- **Recording a file makes its path known**, and no other. -/
theorem knownOf_call {β : Type} {e : PassReq β} (he : Upserts paths e)
    (hs : KnownOf blobs paths s) : KnownOf blobs paths (call eng d io chance e s).2 := by
  have hengine : ∀ {α : Type} {x : Engine α} {s : Passing}, Fallible.All (PutsFor paths) x →
      KnownOf blobs paths s → KnownOf blobs paths ((x.run.expand fun _ e =>
        (Prog.perform (.inl e) : Prog DesktopReq _)).run (exec d io chance) s).2 := by
    intro α x s hx hs
    rw [run_engine]
    exact Prog.All.run_invariant (fun β e he s hs => knownOf_exec chance he hs) hx hs
  cases e with
  | readFileMeta p =>
    exact hengine (.bind (SyncEngine.all_store trivial) fun _ => Fallible.all_pure _) hs
  | recordUpsert p mtime contentType content => exact hengine (putsFor_recordUpsert he) hs
  | listFilePaths =>
    exact hengine (.bind (SyncEngine.all_store trivial) fun _ => Fallible.all_pure _) hs
  | recordDelete p mtime => exact he.elim
  | sync => exact he.elim
  | _ => exact hs

theorem upserts_recordFiles (hfiles : ∀ f ∈ files, f.1 ∈ paths) :
    Fallible.All (Upserts paths) (Pass.recordFiles mimeOf files) := by
  induction files with
  | nil => exact Fallible.all_pure _
  | cons f files ih =>
    obtain ⟨path, mtime⟩ := f
    have hpath : path ∈ paths := hfiles _ List.mem_cons_self
    refine .bind ?_ fun _ => ih fun f hf => hfiles f (List.mem_cons_of_mem _ hf)
    refine .bind ((Fallible.all_ask _ _).2 trivial) fun known => ?_
    split
    · exact Fallible.all_pure _
    refine .bind ⟨trivial, fun _ => trivial⟩ fun r => ?_
    rcases r with (_ | _) | content
    · exact Fallible.all_pure _
    · exact Fallible.all_throw _
    · exact (Fallible.all_ask _ _).2 hpath

/-! ## No file is taken for deleted -/

/-- What is listed is known. -/
theorem mem_listFilePaths {l : List Path}
    (h : (Fallible.exec (call eng d io chance) (Pass.engine .listFilePaths) s).1 = .ok l) :
    ∀ p ∈ l, fileKey p ∈ s.blobs ∧ endsInTmp p = false := by
  have hcall : call eng d io chance .listFilePaths s =
      Fallible.exec (engineExec chance) SyncEngine.listFilePaths s := run_engine _
  have hanswer : (engineExec chance (.metaListKeys "file/") s).1 =
      ((chance s.ops).fate.deal (.metaListKeys "file/")
        (.ok (Desktop.listKeys s.blobs "file/"), s.blobs) s.blobs).1 := rfl
  rw [Pass.engine, Fallible.exec_ask, hcall] at h
  unfold SyncEngine.listFilePaths SyncEngine.store at h
  rw [Fallible.exec_bind, Fallible.exec_ask, hanswer] at h
  cases hfate : (chance s.ops).fate with
  | done =>
    rw [hfate] at h
    obtain rfl := Except.ok.inj h
    exact fun p hp => Desktop.mem_listKeys.1 hp
  | refused =>
    rw [hfate] at h
    cases h
  | lost =>
    rw [hfate] at h
    cases h

theorem along_recordMissing {l : List Path}
    (hl : ∀ p ∈ l, p ∉ seen.map Prod.fst → d.hasFile p = false) :
    Fallible.Along (call eng d io chance) (OnlyMissing d) (Pass.recordMissing seen l) s := by
  induction l generalizing s with
  | nil => trivial
  | cons p l ih =>
    have hrest : ∀ s, Fallible.Along (call eng d io chance) (OnlyMissing d)
        (Pass.recordMissing seen l) s := fun s =>
      ih fun q hq => hl q (List.mem_cons_of_mem _ hq)
    unfold Pass.recordMissing
    split
    · rename_i hnot
      refine Fallible.along_bind.2 ⟨⟨trivial, trivial⟩, fun now _ => ?_⟩
      refine Fallible.along_bind.2 ⟨⟨hl p List.mem_cons_self hnot, trivial⟩, fun _ _ => hrest _⟩
    · exact hrest _

/-- **If nothing hides the file of a known path, none is recorded as
deleted**, whatever fails. -/
theorem realDeletions_of_walked
    (h : ∀ p ∈ known blobs, d.hasFile p = true → d.walked io p = true) :
    RealDeletions eng mimeOf d io chance blobs := by
  unfold RealDeletions Pass.reconcileAndSync
  refine Fallible.along_bind.2 ⟨⟨trivial, trivial⟩, fun seen hseen => ?_⟩
  obtain rfl : d.scan io = seen := Except.ok.inj hseen
  have hupserts : Fallible.All (Upserts ((d.scan io).map Prod.fst))
      (Pass.recordFiles mimeOf (d.scan io)) :=
    upserts_recordFiles fun f hf => List.mem_map_of_mem hf
  refine Fallible.along_bind.2 ⟨Prog.All.along (fun β e he s => ?_) hupserts, fun _ _ => ?_⟩
  · cases e with
    | recordDelete p mtime => exact he.elim
    | _ => trivial
  have hknown : KnownOf blobs ((d.scan io).map Prod.fst) (Fallible.exec (call eng d io chance)
      (Pass.recordFiles mimeOf (d.scan io)) ⟨blobs, 1⟩).2 :=
    Prog.All.run_invariant (fun β e he s hs => knownOf_call he hs) hupserts fun p hp => .inl hp
  refine Fallible.along_bind.2 ⟨⟨trivial, trivial⟩, fun l hl => ?_⟩
  refine Fallible.along_bind.2 ⟨along_recordMissing fun p hp hnot => ?_, fun _ _ =>
    Fallible.along_bind.2 ⟨⟨trivial, trivial⟩, fun _ _ => trivial⟩⟩
  have hlisted : ∀ p ∈ l, fileKey p ∈ (Fallible.exec (call eng d io chance)
      (Pass.recordFiles mimeOf (d.scan io)) ⟨blobs, 1⟩).2.blobs ∧ endsInTmp p = false :=
    mem_listFilePaths hl
  rw [← Bool.not_eq_true]
  intro hfile
  refine hnot ?_
  obtain ⟨hblob, htmp⟩ := hlisted p hp
  rcases hknown p hblob with hp | hp
  · exact (SyncDir.mem_scan_iff hfile).2 (h p (mem_known.2 ⟨hp, htmp⟩) hfile)
  · exact hp

/-! ## A file that is taken for deleted -/

/-- Nothing fails; there is no hub. -/
def fine : PassChance := ⟨.done, .unreachable, .ok none, .ok [], 0⟩

/-- The program returns, and of these keys those that are there stay. -/
def Returns {E : Type → Type} {ε : Type} (K : String → Prop) (h : Prog.Handler E Passing)
    (x : Fallible E ε α) (s : Passing) : Prop :=
  ∃ a s', Fallible.exec h x s = (.ok a, s') ∧ ∀ key, K key → key ∈ s.blobs → key ∈ s'.blobs

section Returns

variable {E : Type → Type} {ε γ : Type} {h : Prog.Handler E Passing} {K : String → Prop}

theorem returns_pure (a : α) : Returns K h (pure a : Fallible E ε α) s :=
  ⟨a, s, rfl, fun _ _ h => h⟩

theorem Returns.bind {x : Fallible E ε γ} {f : γ → Fallible E ε α} (hx : Returns K h x s)
    (hf : ∀ a s, Returns K h (f a) s) : Returns K h (x >>= f) s := by
  obtain ⟨a, t, hx, hkeys⟩ := hx
  obtain ⟨b, u, hb, hkeys'⟩ := hf a t
  exact ⟨b, u, (Fallible.exec_bind_of_ok hx).trans hb, fun key hK hkey =>
    hkeys' key hK (hkeys key hK hkey)⟩

/-- The engine's handler when nothing fails. -/
abbrev fineExec : Prog.Handler EngineReq Passing := engineExec fun _ => fine

theorem returns_metaPut (key : String) (value : Blob) :
    Returns K fineExec (SyncEngine.store (.metaPut key value)) s :=
  ⟨(), _, rfl, fun _ _ h => (AList.mem_insert _).2 (.inr h)⟩

theorem returns_upsertPending (change : PendingChange) :
    Returns K fineExec (SyncEngine.upsertPending change) s := by
  refine Returns.bind (Returns.bind ⟨_, _, rfl, fun _ _ h => h⟩ fun r s => ?_) fun l s =>
    returns_metaPut _ _
  cases r <;> exact returns_pure _

theorem returns_report {x : Engine α} (hx : Returns K fineExec x s) :
    Returns K fineExec (eng.report x) s := by
  obtain ⟨a, t, hx, hkeys⟩ := hx
  refine ⟨a, t, ?_, hkeys⟩
  unfold SyncEngine.report
  rw [Fallible.exec_bind_of_ok (Fallible.exec_attempt x), hx]
  rfl

theorem returns_recordUpsert {mtime : ℤ} {contentType : String} {content : Bytes} :
    Returns K fineExec (eng.recordUpsert path mtime contentType content) s := by
  refine returns_report (Returns.bind ⟨_, _, rfl, fun _ _ h => h⟩ fun baseRev s => ?_)
  refine Returns.bind ⟨(), _, rfl, fun _ _ h => h⟩ fun _ s => ?_
  exact Returns.bind (returns_metaPut _ _) fun _ s => returns_upsertPending _

theorem returns_recordDelete {mtime : ℤ} :
    Returns (fun _ => False) fineExec (eng.recordDelete path mtime) s := by
  refine returns_report (Returns.bind ⟨_, _, rfl, fun _ _ h => h⟩ fun baseRev s => ?_)
  refine Returns.bind ⟨(), _, rfl, fun _ _ h => h⟩ fun _ s => ?_
  exact Returns.bind ⟨(), _, rfl, fun _ h => h.elim⟩ fun _ s => returns_upsertPending _

end Returns

/-- The pass's handler when nothing fails. -/
abbrev fineCall (eng : SyncEngine) (d : SyncDir) (io : ScanErrors) : Prog.Handler PassReq Passing :=
  call eng d io fun _ => fine

theorem returns_engine {K : String → Prop} {e : PassReq (Except SyncError α)} {x : Engine α}
    (he : Pass.opened eng e = x.run.expand fun _ e => .perform (.inl e))
    (hx : Returns K fineExec x s) : Returns K (fineCall eng d io) (Pass.engine e) s := by
  obtain ⟨a, s', hx, hkeys⟩ := hx
  have hcall : call eng d io (fun _ => fine) e s = (.ok a, s') := by
    rw [call, he, run_engine, hx]
  refine ⟨a, s', ?_, hkeys⟩
  have hexec : Fallible.exec (fineCall eng d io) (Pass.engine e) s =
      ((call eng d io (fun _ => fine) e s).1.mapError .sync,
        (call eng d io (fun _ => fine) e s).2) := rfl
  rw [hexec, hcall]
  rfl

/-- Recording the scanned files loses nothing that is known. -/
theorem returns_recordFiles {K : String → Prop} :
    Returns K (fineCall eng d io) (Pass.recordFiles mimeOf files) s := by
  induction files generalizing s with
  | nil => exact returns_pure _
  | cons f files ih =>
    obtain ⟨path, mtime⟩ := f
    refine Returns.bind (Returns.bind ?_ fun known s => ?_) fun _ _ => ih
    · exact returns_engine rfl ⟨_, _, rfl, fun _ _ h => h⟩
    split
    · exact returns_pure _
    have hread : Fallible.exec (fineCall eng d io) (Pass.os (.readFile path)) s =
        (.ok (.ok []), ⟨s.blobs, s.ops + 1⟩) := rfl
    have hrecord : Returns K (fineCall eng d io)
        (Pass.engine (.recordUpsert path mtime (mimeOf path) [])) ⟨s.blobs, s.ops + 1⟩ :=
      returns_engine rfl returns_recordUpsert
    obtain ⟨a, s', hrecord, hkeys⟩ := hrecord
    exact ⟨a, s', (Fallible.exec_bind_of_ok hread).trans hrecord, hkeys⟩

/-- **What is known and not listed is recorded as deleted.** -/
theorem missing_of_along {l : List Path}
    (h : Fallible.Along (fineCall eng d io) (OnlyMissing d) (Pass.recordMissing seen l) s) :
    ∀ p ∈ l, p ∉ seen.map Prod.fst → d.hasFile p = false := by
  induction l generalizing s with
  | nil => exact fun p hp => absurd hp List.not_mem_nil
  | cons q l ih =>
    have hnow : Fallible.exec (fineCall eng d io) (Pass.os .nowSecs) s =
        (.ok 0, ⟨s.blobs, s.ops + 1⟩) := rfl
    have hreturns : Returns (fun _ => False) (fineCall eng d io)
        (Pass.engine (.recordDelete q 0)) ⟨s.blobs, s.ops + 1⟩ :=
      returns_engine rfl returns_recordDelete
    obtain ⟨a, s', hdelete, -⟩ := hreturns
    unfold Pass.recordMissing at h
    split at h
    · rw [Fallible.along_bind_of_ok hnow, Fallible.along_bind_of_ok hdelete] at h
      obtain ⟨-, hq, hrest⟩ := h
      intro p hp hnot
      rcases List.mem_cons.1 hp with rfl | hp
      exacts [hq.1, ih hrest p hp hnot]
    · rename_i hseen
      intro p hp hnot
      rcases List.mem_cons.1 hp with rfl | hp
      exacts [absurd hnot hseen, ih h p hp hnot]

/-- **Where the pass runs without a failure** it records every known path the
walk does not list. -/
theorem walked_of_realDeletions (h : RealDeletions eng mimeOf d io (fun _ => fine) blobs) :
    ∀ p ∈ known blobs, d.hasFile p = true → d.walked io p = true := by
  have hscan : Fallible.exec (fineCall eng d io) (Pass.os .scan) ⟨blobs, 0⟩ =
      (.ok (d.scan io), ⟨blobs, 1⟩) := rfl
  have hfiles : Returns (fun _ => True) (fineCall eng d io)
      (Pass.recordFiles mimeOf (d.scan io)) ⟨blobs, 1⟩ := returns_recordFiles
  obtain ⟨a, s, hfiles, hkeys⟩ := hfiles
  have hlist : Fallible.exec (fineCall eng d io) (Pass.engine .listFilePaths) s =
      (.ok ((Desktop.listKeys s.blobs "file/").filterMap SyncEngine.stripFile),
        ⟨s.blobs, s.ops + 1⟩) := rfl
  unfold RealDeletions Pass.reconcileAndSync at h
  rw [Fallible.along_bind_of_ok hscan, Fallible.along_bind_of_ok hfiles,
    Fallible.along_bind_of_ok hlist, Fallible.along_bind] at h
  obtain ⟨-, -, -, hmissing, -⟩ := h
  intro p hp hfile
  obtain ⟨hblob, htmp⟩ := mem_known.1 hp
  have hlisted : p ∈ (Desktop.listKeys s.blobs "file/").filterMap SyncEngine.stripFile :=
    Desktop.mem_listKeys.2 ⟨hkeys _ trivial hblob, htmp⟩
  by_contra hwalked
  have hnot : p ∉ (d.scan io).map Prod.fst := fun hseen =>
    hwalked ((SyncDir.mem_scan_iff hfile).1 hseen)
  have hgone := missing_of_along hmissing p hlisted hnot
  rw [hfile] at hgone
  cases hgone

/-- **Only real deletions are recorded**, whatever fails but the walk,
exactly when nothing hides the file of a known path from the walk. -/
theorem realDeletions_iff (eng : SyncEngine) (mimeOf : Path → String) (d : SyncDir)
    (io : ScanErrors) (blobs : MetaMap) :
    (∀ chance, RealDeletions eng mimeOf d io chance blobs) ↔
      ∀ p ∈ known blobs, d.hasFile p = true → d.walked io p = true :=
  ⟨fun h => walked_of_realDeletions (h fun _ => fine), fun h _ => realDeletions_of_walked h⟩

/-! ## A directory that cannot be read -/

/-- A file in a directory, both of them known. -/
def oneDir : SyncDir where
  listing := .cons (.utf8 "notes") (.dir (.cons (.utf8 "a.txt") (.file 5) .nil)) .nil
  ok := by decide +kernel

def oneKnown : MetaMap :=
  AList.insert (fileKey "notes/a.txt") (.fileMeta ⟨none, 5, octetStream⟩) ∅

/-- Reading the directory `notes` fails. -/
def unreadable : ScanErrors :=
  { ScanErrors.none with readDir := fun dir => decide (dir = [.utf8 "notes"]) }

/-- **A directory that cannot be read is taken for deleted**, with every file
in it. -/
theorem unreadable_directory_deleted :
    oneDir.hasFile "notes/a.txt" = true ∧
      ¬ ∀ chance, RealDeletions (oneHub true) anyType oneDir unreadable chance
        oneKnown := by
  refine ⟨by decide +kernel, fun h => ?_⟩
  have hwalked := walked_of_realDeletions (h fun _ => fine) "notes/a.txt" (by decide +kernel)
    (by decide +kernel)
  revert hwalked
  decide +kernel

end Passing

end FileSync
