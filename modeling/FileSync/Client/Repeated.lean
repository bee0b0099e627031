import FileSync.Client.PhantomEdits
/-!
# A pass after a pass

What one pass leaves for the next to record when nobody touches the
directory in between. A file is left alone if the time in its metadata is
the one the scan reads, and metadata if the scan names its file by the
metadata's path. So a pass leaves nothing where it writes files only under
the names the walk gives them, with times that are kept, and removes none
that has another name.
-/

namespace FileSync

/-- The client, and the files it has written, as it last wrote them. -/
structure Repeated where
  desk : Desktop
  wrote : AList fun _ : Path => Bytes

namespace Repeated

open Desktop
open PhantomEdits (walkName walkName_eq_some mem_scan_filePut RecordsNothing recordsNothing_iff)

/-- What the client has written after a call and its answer. -/
def noted : ∀ ⦃β : Type⦄, DesktopReq β → β → (AList fun _ : Path => Bytes) →
    AList fun _ : Path => Bytes
  | _, .inl (.filePut path data _), .ok _, wrote => wrote.insert path data
  | _, .inl (.fileDelete path), .ok _, wrote => wrote.erase path
  | _, _, _, wrote => wrote

/-- The client's calls, the hubs answering as they like; between calls time
goes by. -/
def semantics : Semantics Unit DesktopReq HubAnswers ℤ Repeated where
  exec _ _ e o s :=
    let r := Desktop.exec e o s.desk
    (r.1, ⟨r.2, noted e r.1 s.wrote⟩)
  env now s := { s with desk := { s.desk with now := now } }

/-- No file that the walk finds under another name is where the path leads. -/
def NoOther (d : Disk) (path : Path) : Prop :=
  ∀ p ∈ walkName d path, p ∈ d.scan.map Prod.fst → p = path

instance (d : Disk) (path : Path) : Decidable (NoOther d path) :=
  inferInstanceAs (Decidable (∀ p ∈ walkName d path, _))

/-- The file the call writes, and its time. -/
def puts : ∀ ⦃β : Type⦄, DesktopReq β → Option (Path × ℤ)
  | _, .inl (.filePut path _ mtime) => some (path, mtime)
  | _, _ => none

/-- The path whose file it removes. -/
def removes : ∀ ⦃β : Type⦄, DesktopReq β → Option Path
  | _, .inl (.fileDelete path) => some path
  | _, _ => none

/-- A file is written under the name the walk has for it, and has the time it
is given; and none that has another name is removed. -/
def Spelled ⦃β : Type⦄ (e : DesktopReq β) (s : Repeated) : Prop :=
  (∀ f ∈ puts e, walkName s.desk.disk f.1 = some f.1 ∧
    max 0 (s.desk.disk.stamp s.desk.now f.2) = f.2) ∧
  ∀ path ∈ removes e, NoOther s.desk.disk path

instance {β : Type} (e : DesktopReq β) (s : Repeated) : Decidable (Spelled e s) :=
  inferInstanceAs (Decidable ((∀ f ∈ puts e, _) ∧ ∀ path ∈ removes e, _))

def condition : StepCond Unit DesktopReq HubAnswers ℤ Repeated where
  call _ _ e _ s := Spelled e s
  env _ _ := True

/-- A pass that has just begun. -/
def start (eng : SyncEngine) (mimeOf : Path → String) (desk : Desktop) :
    Config Unit DesktopReq (Except DesktopError Unit) Repeated :=
  ⟨fun _ => (reconcileAndSync eng mimeOf).run, ⟨desk, ∅⟩⟩

/-- Every file is there as the client last wrote it. -/
def Written (s : Repeated) : Prop :=
  ∀ path data, s.wrote.lookup path = some data →
    FsFileStore.get s.desk.disk path = .ok (some data)

/-! ## Files and their scan -/

variable {d : Disk} {path p : Path} {q : Place} {c data : Bytes} {m now : ℤ} {s s' : Repeated}

/-- The walk finds the file under this path. -/
def Holds (d : Disk) (path : Path) (data : Bytes) : Prop :=
  ∃ r t, d.Scanned r data t ∧ Disk.relPath r = path

theorem get_of_holds (hd : d.WellFormed) (h : Holds d path data) :
    FsFileStore.get d path = .ok (some data) := by
  obtain ⟨r, t, ⟨hfile, hshows⟩, rfl⟩ := h
  exact FsFileStore.get_existing hd hfile (Disk.not_mem_of_shows hshows)

/-- **A scan after a file was written** lists it with its new time. -/
theorem mem_scan_put (hd : d.WellFormed) (hname : walkName d path = some path)
    (htime : max 0 (d.stamp now m) = m)
    (hput : (FsFileStore.put d now path c m).1 = .ok ()) {t : ℤ} :
    (p, t) ∈ (FsFileStore.put d now path c m).2.scan ↔
      p = path ∧ t = m ∨ p ≠ path ∧ (p, t) ∈ d.scan := by
  by_cases hp : p = path
  · subst hp
    rw [mem_scan_filePut hd hput hname, htime]
    simp
  · have hother : (p, t) ∈ (FsFileStore.put d now path c m).2.scan ↔ (p, t) ∈ d.scan := by
      refine Disk.mem_scan_congr (fun _ => FsFileStore.shows_put) fun r hshows hr =>
        FsFileStore.fileAt_put_of_ne fun hl => hp ?_
      have hname' : walkName d path = some p := walkName_eq_some.2 ⟨r, hl, hshows, hr.symm⟩
      exact Option.some.inj (hname'.symm.trans hname)
    rw [hother]
    constructor
    · exact fun h => .inr ⟨hp, h⟩
    · rintro (⟨rfl, -⟩ | ⟨-, h⟩)
      exacts [absurd rfl hp, h]

/-- A removal leaves the files the walk has other names for. -/
theorem fileAt_delete (hother : NoOther d path) {q : Place} {t : ℤ} (hfile : d.Scanned q c t)
    (hne : Disk.relPath q ≠ path) : (FsFileStore.delete d path).2.fileAt q = some (c, t) := by
  rw [FsFileStore.fileAt_delete_of_ne fun hl => hne ?_, hfile.1]
  refine hother _ (walkName_eq_some.2 ⟨q, hl, hfile.2, rfl⟩) ?_
  exact List.mem_map.2 ⟨_, Disk.mem_scan.2 ⟨q, c, t, hfile, rfl, rfl⟩, rfl⟩

/-- **A scan after a file was removed** lists it no longer. -/
theorem mem_scan_delete (hd : d.WellFormed) (hother : NoOther d path)
    (hdel : (FsFileStore.delete d path).1 = .ok ()) {t : ℤ} :
    (p, t) ∈ (FsFileStore.delete d path).2.scan ↔ p ≠ path ∧ (p, t) ∈ d.scan := by
  constructor
  · intro h
    refine ⟨?_, Disk.mem_scan_of_delete h⟩
    rintro rfl
    obtain ⟨q, b, t', ⟨hfile, hshows⟩, rfl, -⟩ := Disk.mem_scan.1 h
    rw [FsFileStore.shows_delete] at hshows
    have hold := FsFileStore.fileAt_of_delete hfile
    have hleads := FsFileStore.leads_relPath hd (Disk.fileAt_eq_some.1 hold)
      (Disk.not_mem_of_shows hshows)
    rw [FsFileStore.fileAt_delete_of_ok hleads hdel] at hfile
    cases hfile
  · rintro ⟨hne, h⟩
    obtain ⟨q, b, t', hfile, rfl, rfl⟩ := Disk.mem_scan.1 h
    exact Disk.mem_scan.2 ⟨q, b, t', ⟨fileAt_delete hother hfile hne,
      FsFileStore.shows_delete.trans hfile.2⟩, rfl, rfl⟩

/-- A put that fails leaves the scan as it is. -/
theorem mem_scan_put_error {e : StoreError} (hput : (FsFileStore.put d now path c m).1 = .error e)
    {t : ℤ} : (p, t) ∈ (FsFileStore.put d now path c m).2.scan ↔ (p, t) ∈ d.scan :=
  Disk.mem_scan_congr (fun _ => FsFileStore.shows_put) fun _ _ _ =>
    FsFileStore.fileAt_put_of_error hput

/-! ## Between the parts of a pass -/

/-- The state of a pass: which scanned files have times that are not known
yet, and which known paths the scan does not see. -/
structure Between (late : Path → ℤ → Prop) (stray : Path → Prop) (s : Repeated) : Prop where
  wellFormed : s.desk.disk.WellFormed
  time : ∀ p t, (p, t) ∈ s.desk.disk.scan → s.desk.knownTime p = some t ∨ late p t
  seen : ∀ p, s.desk.Known p → s.desk.Seen p ∨ stray p
  written : ∀ p data, s.wrote.lookup p = some data → Holds s.desk.disk p data

/-- Nothing to record. -/
abbrev Quiet (s : Repeated) : Prop := Between (fun _ _ => False) (fun _ => False) s

variable {late late' : Path → ℤ → Prop} {stray stray' : Path → Prop}

theorem Between.mono (h : Between late stray s) (hlate : ∀ p t, late p t → late' p t)
    (hstray : ∀ p, stray p → stray' p) : Between late' stray' s :=
  ⟨h.wellFormed, fun p t hp => (h.time p t hp).imp_right (hlate p t),
    fun p hp => (h.seen p hp).imp_right (hstray p), h.written⟩

theorem Quiet.recordsNothing {eng : SyncEngine} {mimeOf : Path → String} (h : Quiet s) (now : ℤ) :
    RecordsNothing eng mimeOf { s.desk with now := now } :=
  (recordsNothing_iff (s := { s.desk with now := now }) h.wellFormed).2 fun p =>
    ⟨fun t ht => (h.time p t ht).resolve_right id, fun hk => (h.seen p hk).resolve_right id⟩

/-! ### A file and its metadata -/

/-- The state with metadata for a path. -/
def withMeta (s : Repeated) (path : Path) (fm : FileMeta) : Repeated :=
  { s with desk := { s.desk with blobs := s.desk.blobs.insert (fileKey path) (.fileMeta fm) } }

/-- The state with none. -/
def withoutMeta (s : Repeated) (path : Path) : Repeated :=
  { s with desk := { s.desk with blobs := s.desk.blobs.erase (fileKey path) } }

theorem known_withMeta {fm : FileMeta} (hp : p ≠ path) :
    (s.withMeta path fm).desk.Known p ↔ s.desk.Known p := by
  simp [withMeta, Known, hp]

theorem knownTime_withMeta {fm : FileMeta} : (s.withMeta path fm).desk.knownTime p =
    if p = path then some fm.mtime else s.desk.knownTime p := by
  by_cases hp : p = path
  · subst hp
    simp [withMeta, knownTime, fileMeta?, Blob.toFileMeta?]
  · have hkey : fileKey p ≠ fileKey path := by simpa using hp
    rw [if_neg hp]
    simp only [withMeta, knownTime, fileMeta?, AList.lookup_insert_ne hkey]

theorem known_withoutMeta :
    (s.withoutMeta path).desk.Known p ↔ p ≠ path ∧ s.desk.Known p := by
  simp [withoutMeta, Known, and_assoc]

theorem knownTime_withoutMeta (hp : p ≠ path) :
    (s.withoutMeta path).desk.knownTime p = s.desk.knownTime p := by
  have hkey : fileKey p ≠ fileKey path := by simpa using hp
  simp only [withoutMeta, knownTime, fileMeta?, AList.lookup_erase_ne hkey]

theorem seen_iff {t : Desktop} : t.Seen p ↔ ∃ m, (p, m) ∈ t.disk.scan := by
  simp [Seen]

/-- **A file written and its metadata**: the path has nothing to record. -/
theorem Between.put {fm : FileMeta} (h : Between late stray s)
    (hname : walkName s.desk.disk path = some path)
    (htime : max 0 (s.desk.disk.stamp s.desk.now fm.mtime) = fm.mtime)
    (hput : (FsFileStore.put s.desk.disk s.desk.now path data fm.mtime).1 = .ok ()) :
    Between (fun p t => p ≠ path ∧ late p t) (fun p => p ≠ path ∧ stray p)
      (withMeta ⟨{ s.desk with
        disk := (FsFileStore.put s.desk.disk s.desk.now path data fm.mtime).2 },
        s.wrote.insert path data⟩ path fm) := by
  have hscan : ∀ {p t}, (p, t) ∈ (FsFileStore.put s.desk.disk s.desk.now path data fm.mtime).2.scan ↔
      p = path ∧ t = fm.mtime ∨ p ≠ path ∧ (p, t) ∈ s.desk.disk.scan :=
    mem_scan_put h.wellFormed hname htime hput
  obtain ⟨r, hr, hshows, hrel⟩ := walkName_eq_some.1 hname
  obtain ⟨r', hr', hfile⟩ := FsFileStore.fileAt_put_of_ok hput
  obtain rfl := Option.some.inj (hr.symm.trans hr')
  -- the path has the time and the bytes it was given, and every other what it had
  refine ⟨FsFileStore.wellFormed_put h.wellFormed, fun p t hp => ?_, fun p hp => ?_, fun p b hb => ?_⟩
  · rw [knownTime_withMeta]
    rcases hscan.1 hp with ⟨rfl, rfl⟩ | ⟨hne, hold⟩
    · rw [if_pos rfl]
      exact .inl rfl
    · rw [if_neg hne]
      exact (h.time p t hold).imp_right fun hl => ⟨hne, hl⟩
  · by_cases hpath : p = path
    · exact .inl (seen_iff.2 ⟨_, hscan.2 (.inl ⟨hpath, rfl⟩)⟩)
    · rcases h.seen p ((known_withMeta hpath).1 hp) with hseen | hstray
      · obtain ⟨t, ht⟩ := seen_iff.1 hseen
        exact .inl (seen_iff.2 ⟨t, hscan.2 (.inr ⟨hpath, ht⟩)⟩)
      · exact .inr ⟨hpath, hstray⟩
  · have hb' : (s.wrote.insert path data).lookup p = some b := hb
    by_cases hpath : p = path
    · subst hpath
      rw [AList.lookup_insert] at hb'
      obtain rfl := Option.some.inj hb'
      exact ⟨r, _, ⟨hfile, FsFileStore.shows_put.trans hshows⟩, hrel⟩
    · rw [AList.lookup_insert_ne hpath] at hb'
      obtain ⟨r', t, ⟨hold, hshows'⟩, hrel'⟩ := h.written p b hb'
      refine ⟨r', t, ⟨?_, FsFileStore.shows_put.trans hshows'⟩, hrel'⟩
      refine (FsFileStore.fileAt_put_of_ne ?_).trans hold
      rw [hr]
      rintro ⟨⟩
      exact hpath (hrel'.symm.trans hrel)

/-- **A file removed and its metadata**: the same. -/
theorem Between.delete (h : Between late stray s) (hother : NoOther s.desk.disk path)
    (hdel : (FsFileStore.delete s.desk.disk path).1 = .ok ()) :
    Between (fun p t => p ≠ path ∧ late p t) (fun p => p ≠ path ∧ stray p)
      (withoutMeta ⟨{ s.desk with disk := (FsFileStore.delete s.desk.disk path).2 },
        s.wrote.erase path⟩ path) := by
  have hscan : ∀ {p t}, (p, t) ∈ (FsFileStore.delete s.desk.disk path).2.scan ↔
      p ≠ path ∧ (p, t) ∈ s.desk.disk.scan := mem_scan_delete h.wellFormed hother hdel
  have hwrote : ∀ p b, (s.wrote.erase path).lookup p = some b →
      p ≠ path ∧ s.wrote.lookup p = some b := by
    intro p b hb
    by_cases hpath : p = path
    · rw [hpath, AList.lookup_erase] at hb
      cases hb
    · rw [AList.lookup_erase_ne hpath] at hb
      exact ⟨hpath, hb⟩
  refine ⟨FsFileStore.wellFormed_delete h.wellFormed, fun p t hp => ?_, fun p hp => ?_,
    fun p b hb => ?_⟩
  · obtain ⟨hne, hold⟩ := hscan.1 hp
    rw [knownTime_withoutMeta hne]
    exact (h.time p t hold).imp_right fun hl => ⟨hne, hl⟩
  · obtain ⟨hne, hold⟩ := known_withoutMeta.1 hp
    rcases h.seen p hold with hseen | hstray
    · obtain ⟨t, ht⟩ := seen_iff.1 hseen
      exact .inl (seen_iff.2 ⟨t, hscan.2 ⟨hne, ht⟩⟩)
    · exact .inr ⟨hne, hstray⟩
  · obtain ⟨hne, hold⟩ := hwrote p b hb
    obtain ⟨r, t, hfile, rfl⟩ := h.written p b hold
    exact ⟨r, t, ⟨fileAt_delete hother hfile hne, FsFileStore.shows_delete.trans hfile.2⟩, rfl⟩

/-- Bookkeeping that is no file's changes nothing. -/
theorem Between.other {key : String} {b : Blob} (h : Between late stray s)
    (hkey : ∀ p, key ≠ fileKey p) :
    Between late stray { s with desk := { s.desk with blobs := s.desk.blobs.insert key b } } := by
  have hlookup : ∀ p, (s.desk.blobs.insert key b).lookup (fileKey p) =
      s.desk.blobs.lookup (fileKey p) := fun p => AList.lookup_insert_ne (hkey p).symm
  refine ⟨h.wellFormed, fun p t hp => ?_, fun p hp => h.seen p ?_, h.written⟩
  · have htime := h.time p t hp
    simp only [knownTime, fileMeta?, hlookup] at htime ⊢
    exact htime
  · simp only [Known, ← AList.lookup_isSome, hlookup] at hp ⊢
    exact hp

/-- Nor does a write that fails. -/
theorem Between.put_error {e : StoreError} (h : Between late stray s)
    (hput : (FsFileStore.put s.desk.disk s.desk.now path data m).1 = .error e) :
    Between late stray { s with desk := { s.desk with
      disk := (FsFileStore.put s.desk.disk s.desk.now path data m).2 } } := by
  refine ⟨FsFileStore.wellFormed_put h.wellFormed,
    fun p t hp => h.time p t ((mem_scan_put_error hput).1 hp), fun p hp => ?_, fun p b hb => ?_⟩
  · refine (h.seen p hp).imp_left fun hseen => ?_
    obtain ⟨t, ht⟩ := seen_iff.1 hseen
    exact seen_iff.2 ⟨t, (mem_scan_put_error hput).2 ht⟩
  · obtain ⟨r, t, ⟨hfile, hshows⟩, hrel⟩ := h.written p b hb
    exact ⟨r, t, ⟨(FsFileStore.fileAt_put_of_error hput).trans hfile,
      FsFileStore.shows_put.trans hshows⟩, hrel⟩

/-- Nor does another revision in a file's metadata. -/
theorem Between.bump {b : Blob} {fm : FileMeta} {rev : Option Rev} (h : Between late stray s)
    (hlookup : s.desk.blobs.lookup (fileKey path) = some b) (hb : b.toFileMeta? = some fm) :
    Between late stray (s.withMeta path { fm with rev := rev }) := by
  refine ⟨h.wellFormed, fun p t hp => ?_, fun p hp => h.seen p ?_, h.written⟩
  · have htime := h.time p t hp
    rw [knownTime_withMeta]
    by_cases hpath : p = path
    · subst hpath
      rw [if_pos rfl]
      simpa [knownTime, fileMeta?, hlookup, hb] using htime
    · rwa [if_neg hpath]
  · by_cases hpath : p = path
    · subst hpath
      exact ⟨AList.lookup_isSome.1 (by rw [hlookup]; rfl), hp.2⟩
    · exact (known_withMeta hpath).1 hp

/-! ## The engine's part -/

def contract : Contract Unit Repeated where
  rely _ s s' := ∃ now, s' = { s with desk := { s.desk with now := now } }
  guar _ _ _ := True

theorem contract_fits : contract.Fits semantics condition where
  guar_rely _ _ hne := absurd rfl hne
  env_rely _ now _ _ := ⟨now, rfl⟩

variable {eng : SyncEngine} {mimeOf : Path → String} {α : Type} {P B : Repeated → Prop}
  {M : α → Repeated → Prop} {D : Disk → Prop}

/-- What part of the desktop client does. -/
abbrev DesktopDoes (P : Repeated → Prop) (x : DesktopM α)
    (Q : Except DesktopError α → Repeated → Prop) : Prop :=
  Does semantics condition contract () (fun _ e => .perform e) P x Q

/-- What part of its engine does. -/
abbrev EngineDoes (P : Repeated → Prop) (x : Engine α)
    (Q : Except SyncError α → Repeated → Prop) : Prop :=
  Does semantics condition contract () (fun _ e => .perform (.inl e)) P x Q

/-- Neither time that goes by nor bookkeeping that is no file's undoes it. -/
structure Lasting (P : Repeated → Prop) : Prop where
  tick : ∀ s now, P s → P { s with desk := { s.desk with now := now } }
  other : ∀ s key b, P s → (∀ p, key ≠ fileKey p) →
    P { s with desk := { s.desk with blobs := s.desk.blobs.insert key b } }

theorem Lasting.stable (hP : Lasting P) : contract.Stable () P := by
  rintro s s' hs ⟨now, rfl⟩
  exact hP.tick s now hs

theorem lasting_between : Lasting (Between late stray) where
  tick _ _ h := ⟨h.wellFormed, h.time, h.seen, h.written⟩
  other _ _ _ h hkey := h.other hkey

theorem lasting_disk : Lasting fun s => D s.desk.disk := ⟨fun _ _ h => h, fun _ _ _ h _ => h⟩

theorem Lasting.and {P' : Repeated → Prop} (hP : Lasting P) (hP' : Lasting P') :
    Lasting fun s => P s ∧ P' s where
  tick s now h := ⟨hP.tick s now h.1, hP'.tick s now h.2⟩
  other s key b h hkey := ⟨hP.other s key b h.1 hkey, hP'.other s key b h.2 hkey⟩

/-- The call writes no file and no file's metadata. -/
def Harmless ⦃β : Type⦄ : EngineReq β → Prop
  | .metaPut key _ => ∀ p, key ≠ fileKey p
  | .metaDelete _ => False
  | .filePut .. => False
  | .fileDelete _ => False
  | _ => True

theorem Lasting.exec {β : Type} {e : EngineReq β} {o : HubAnswers} (hP : Lasting P)
    (he : Harmless e) (hs : P s) : P (semantics.exec () (.inl e) o s).2 := by
  cases e with
  | metaPut key value => exact hP.other s key value hs he
  | metaDelete key => exact he.elim
  | filePut path data mtime => exact he.elim
  | fileDelete path => exact he.elim
  | metaGet | metaListKeys | fileGet | hubChanges | hubGetFile | hubPush | notifyError => exact hs

theorem triple_harmless {β : Type} {e : EngineReq β} (hP : Lasting P) (he : Harmless e) :
    Triple semantics condition contract () P (.perform (.inl e)) fun _ => P :=
  Triple.perform (fun _ => hP.stable) fun _ _ hs _ => ⟨trivial, hP.exec he hs⟩

/-- **Programs of harmless calls** keep what lasts. -/
theorem does_harmless {x : Engine α} (hP : Lasting P) (hx : Fallible.All Harmless x) :
    EngineDoes P x (Post P fun _ => P) :=
  Does.of_all hP.stable (fun _ _ he => triple_harmless hP he) hx

theorem harmless_loadPending : Fallible.All Harmless SyncEngine.loadPending :=
  .bind (SyncEngine.all_store trivial) fun r => by cases r <;> exact Fallible.all_pure _

theorem harmless_upsertPending (change : PendingChange) :
    Fallible.All Harmless (SyncEngine.upsertPending change) :=
  .bind harmless_loadPending fun _ => SyncEngine.all_store fun p => pending_ne_fileKey p

theorem harmless_buildPushChanges (ps : List PendingChange) :
    Fallible.All Harmless (SyncEngine.buildPushChanges ps) := by
  induction ps with
  | nil => exact Fallible.all_pure _
  | cons p ps ih =>
    refine .bind ?_ fun _ => .bind ih fun _ => Fallible.all_pure _
    unfold SyncEngine.buildPushChange
    split
    · exact Fallible.all_pure _
    · exact .bind (SyncEngine.all_store trivial) fun _ =>
        .bind (SyncEngine.all_store trivial) fun _ => Fallible.all_pure _

/-- The revision a push was answered with. -/
theorem does_bumpRev (rev : Option Rev) : EngineDoes (Between late stray)
    (SyncEngine.bumpRev path rev) (Post (Between late stray) fun _ => Between late stray) := by
  have hst : contract.Stable () (Between late stray) := lasting_between.stable
  have hread : ∀ v, contract.Stable () fun s =>
      Between late stray s ∧ s.desk.blobs.lookup (fileKey path) = v := by
    rintro v s s' ⟨hs, hv⟩ ⟨now, rfl⟩
    exact ⟨lasting_between.tick s now hs, hv⟩
  refine Does.bind _ hst (Does.ask_perform rfl hst hread fun o s hs _ =>
    ⟨trivial, fun v hv => ⟨hs, Except.ok.inj hv⟩, nofun⟩) fun v => ?_
  cases v with
  | none => exact Does.pure hst fun s hs => hs.1
  | some b =>
    dsimp only
    cases hb : b.toFileMeta? with
    | none => exact Does.throw hst fun s hs => hs.1
    | some fm =>
      exact Does.ask_perform rfl hst (fun _ => hst) fun o s hs _ =>
        ⟨trivial, fun _ _ => hs.1.bump hs.2 hb, nofun⟩

theorem does_bumpRevs (l : List (PendingChange × PushResult)) (pushed : ℕ) :
    EngineDoes (Between late stray) (SyncEngine.bumpRevs l pushed)
      (Post (Between late stray) fun _ => Between late stray) := by
  have hst : contract.Stable () (Between late stray) := lasting_between.stable
  induction l generalizing pushed with
  | nil => exact Does.pure hst fun _ h => h
  | cons x l ih =>
    obtain ⟨change, result⟩ := x
    unfold SyncEngine.bumpRevs
    cases hd : change.deleted with
    | true => exact ih _
    | false =>
      rw [Bool.not_false, if_pos rfl]
      exact Does.bind _ hst (does_bumpRev _) fun _ => ih _

/-- **A push** writes no file. -/
theorem does_push : EngineDoes (Between late stray) eng.push
    (Post (Between late stray) fun _ => Between late stray) := by
  have hst : contract.Stable () (Between late stray) := lasting_between.stable
  have hnotify : ∀ e, Triple semantics condition contract () (Between late stray)
      (.perform (.inl (.notifyError e))) fun _ => Between late stray :=
    fun e => triple_harmless lasting_between trivial
  refine Does.bind _ hst (SyncEngine.does_report hst (fun _ => hst) hnotify
    (does_harmless lasting_between harmless_loadPending)) fun pending => ?_
  split
  · exact Does.pure hst fun _ h => h
  · refine Does.bind _ hst (SyncEngine.does_report hst (fun _ => hst) hnotify
      (does_harmless lasting_between (harmless_buildPushChanges pending))) fun changes => ?_
    refine SyncEngine.does_failover hst (fun _ => hst) hnotify (fun hub => ?_) _ _
    refine Does.bind _ hst (does_harmless lasting_between (SyncEngine.all_ask trivial))
      fun results => Does.bind _ hst (does_bumpRevs _ _) fun pushed => ?_
    split
    · exact Does.bind _ hst (does_harmless lasting_between
        (SyncEngine.all_store fun p => pending_ne_fileKey p)) fun _ => Does.pure hst fun _ h => h
    · exact Does.pure hst fun _ h => h

/-! ### Files and their metadata -/

/-- A file is written, and only its metadata is missing. -/
theorem does_filePut {E : Disk → Prop}
    (hD : ∀ d now, d.WellFormed → D d → walkName d path = some path → max 0 (d.stamp now m) = m →
      (FsFileStore.put d now path data m).1 = .ok () → E (FsFileStore.put d now path data m).2) :
    EngineDoes (fun s => Between late stray s ∧ D s.desk.disk)
      (SyncEngine.store (.filePut path data m))
      (Post (Between late stray) fun _ s => E s.desk.disk ∧ ∀ fm : FileMeta, fm.mtime = m →
        Between (fun p t => p ≠ path ∧ late p t) (fun p => p ≠ path ∧ stray p)
          (s.withMeta path fm)) := by
  refine Does.ask_perform rfl lasting_between.stable ?_ fun o s ⟨hs, hd⟩ hcond => ⟨trivial, ?_, ?_⟩
  · rintro _ s s' ⟨hd, hs⟩ ⟨now, rfl⟩
    exact ⟨hd, fun fm hfm => lasting_between.tick _ now (hs fm hfm)⟩
  · intro u hput
    have hput' : (FsFileStore.put s.desk.disk s.desk.now path data m).1 = .ok () := hput
    have hstate : (semantics.exec () (.inl (.filePut path data m)) o s).2 =
        ⟨{ s.desk with disk := (FsFileStore.put s.desk.disk s.desk.now path data m).2 },
          s.wrote.insert path data⟩ := by
      show (⟨_, noted (.inl (.filePut path data m))
        (FsFileStore.put s.desk.disk s.desk.now path data m).1 s.wrote⟩ : Repeated) = _
      rw [hput']
      rfl
    obtain ⟨hname, htime⟩ := hcond.1 (path, m) rfl
    rw [hstate]
    refine ⟨hD _ _ hs.wellFormed hd hname htime hput', ?_⟩
    rintro fm rfl
    exact hs.put hname htime hput'
  · intro x hput
    have hput' : (FsFileStore.put s.desk.disk s.desk.now path data m).1 = .error x := hput
    have hstate : (semantics.exec () (.inl (.filePut path data m)) o s).2 =
        { s with desk := { s.desk with
          disk := (FsFileStore.put s.desk.disk s.desk.now path data m).2 } } := by
      show (⟨_, noted (.inl (.filePut path data m))
        (FsFileStore.put s.desk.disk s.desk.now path data m).1 s.wrote⟩ : Repeated) = _
      rw [hput']
      rfl
    rw [hstate]
    exact hs.put_error hput'

/-- The metadata follows. -/
theorem does_metaPut {Q : Repeated → Prop} (hB : contract.Stable () B) (hQ : contract.Stable () Q)
    {fm : FileMeta} : EngineDoes (fun s => Q (s.withMeta path fm))
      (SyncEngine.store (.metaPut (fileKey path) (.fileMeta fm))) (Post B fun _ => Q) :=
  Does.ask_perform rfl hB (fun _ => hQ) fun _ _ hs _ => ⟨trivial, fun _ _ => hs, nofun⟩

/-- A file is removed, and only its metadata is left. -/
theorem does_fileDelete {E : Disk → Prop}
    (hD : ∀ d, d.WellFormed → D d → NoOther d path → (FsFileStore.delete d path).1 = .ok () →
      E (FsFileStore.delete d path).2) :
    EngineDoes (fun s => Between late stray s ∧ D s.desk.disk)
      (SyncEngine.store (.fileDelete path))
      (Post (Between late stray) fun _ s => E s.desk.disk ∧
        Between (fun p t => p ≠ path ∧ late p t) (fun p => p ≠ path ∧ stray p)
          (s.withoutMeta path)) := by
  refine Does.ask_perform rfl lasting_between.stable ?_ fun o s ⟨hs, hd⟩ hcond => ⟨trivial, ?_, ?_⟩
  · rintro _ s s' ⟨hd, hs⟩ ⟨now, rfl⟩
    exact ⟨hd, lasting_between.tick _ now hs⟩
  · intro u hdel
    have hdel' : (FsFileStore.delete s.desk.disk path).1 = .ok () := hdel
    have hstate : (semantics.exec () (.inl (.fileDelete path)) o s).2 =
        ⟨{ s.desk with disk := (FsFileStore.delete s.desk.disk path).2 }, s.wrote.erase path⟩ := by
      show (⟨_, noted (.inl (.fileDelete path)) (FsFileStore.delete s.desk.disk path).1
        s.wrote⟩ : Repeated) = _
      rw [hdel']
      rfl
    have hother := hcond.2 path rfl
    rw [hstate]
    exact ⟨hD _ hs.wellFormed hd hother hdel', hs.delete hother hdel'⟩
  · intro x hdel
    have hdel' : (FsFileStore.delete s.desk.disk path).1 = .error x := hdel
    have hstate : (semantics.exec () (.inl (.fileDelete path)) o s).2 = s := by
      show (⟨{ s.desk with disk := (FsFileStore.delete s.desk.disk path).2 },
        noted (.inl (.fileDelete path)) (FsFileStore.delete s.desk.disk path).1
          s.wrote⟩ : Repeated) = _
      rw [hdel', FsFileStore.delete_of_error hdel']
      rfl
    rw [hstate]
    exact hs

theorem does_metaDelete {Q : Repeated → Prop} (hB : contract.Stable () B)
    (hQ : contract.Stable () Q) : EngineDoes (fun s => Q (s.withoutMeta path))
      (SyncEngine.store (.metaDelete (fileKey path))) (Post B fun _ => Q) :=
  Does.ask_perform rfl hB (fun _ => hQ) fun _ _ hs _ => ⟨trivial, fun _ _ => hs, nofun⟩

/-! ### The pull -/

theorem does_applyRemote (hub : HubId) (entry : ChangeEntry) (rep : PullReport) :
    EngineDoes Quiet (SyncEngine.applyRemote hub entry rep) (Post Quiet fun _ => Quiet) := by
  have hst : contract.Stable () Quiet := lasting_between.stable
  have hquiet : ∀ s : Repeated, Between (fun p t => p ≠ entry.path ∧ False)
      (fun p => p ≠ entry.path ∧ False) s → Quiet s :=
    fun s h => h.mono (fun _ _ h => h.2) fun _ h => h.2
  refine Does.bind _ hst (does_harmless lasting_between
    (.bind harmless_loadPending fun _ => Fallible.all_pure _)) fun queued => ?_
  split
  · exact Does.pure hst fun _ h => h
  split
  · refine Does.bind _ hst ((does_fileDelete (D := fun _ => True) (E := fun _ => True)
      fun _ _ _ _ _ => trivial).pre fun s hs => ⟨hs, trivial⟩) fun _ => ?_
    refine Does.bind (fun _ => Quiet) hst ((does_metaDelete hst hst).pre
      fun s hs => hquiet _ hs.2) fun _ => Does.pure hst fun _ h => h
  · refine Does.bind _ hst (does_harmless lasting_between (SyncEngine.all_ask trivial))
      fun file => ?_
    cases file with
    | none => exact Does.throw hst fun _ h => h
    | some f =>
      refine Does.bind _ hst ((does_filePut (D := fun _ => True) (E := fun _ => True)
        fun _ _ _ _ _ _ _ => trivial).pre fun s hs => ⟨hs, trivial⟩) fun _ => ?_
      refine Does.bind (fun _ => Quiet) hst ((does_metaPut hst hst).pre
        fun s hs => hquiet _ (hs.2 _ rfl)) fun _ => Does.pure hst fun _ h => h

theorem does_applyAll (hub : HubId) (entries : List ChangeEntry) (rep : PullReport) :
    EngineDoes Quiet (SyncEngine.applyAll hub entries rep) (Post Quiet fun _ => Quiet) := by
  have hst : contract.Stable () Quiet := lasting_between.stable
  induction entries generalizing rep with
  | nil => exact Does.pure hst fun _ h => h
  | cons entry entries ih => exact Does.bind _ hst (does_applyRemote hub entry rep) ih

/-- **A pull** leaves nothing to record. -/
theorem does_pull : EngineDoes Quiet eng.pull (Post Quiet fun _ => Quiet) := by
  have hst : contract.Stable () Quiet := lasting_between.stable
  have hnotify : ∀ e, Triple semantics condition contract () Quiet
      (.perform (.inl (.notifyError e))) fun _ => Quiet :=
    fun e => triple_harmless lasting_between trivial
  refine SyncEngine.does_failover hst (fun _ => hst) hnotify (fun hub => ?_) _ _
  refine Does.bind _ hst (does_harmless lasting_between (SyncEngine.all_store trivial))
    fun since => ?_
  refine Does.bind _ hst (does_harmless lasting_between (SyncEngine.all_ask trivial))
    fun resp => ?_
  refine Does.bind _ hst (does_applyAll hub _ _) fun rep => ?_
  refine Does.bind _ hst (does_harmless lasting_between
    (SyncEngine.all_store fun p => checkpointKey_ne_fileKey hub p)) fun _ =>
      Does.pure hst fun _ h => h

/-! ## The recording half -/

theorem stable_true : contract.Stable () fun _ => True := fun _ _ _ _ => trivial

/-- An operation of the engine. -/
theorem does_engine {x : Engine α} (hB : contract.Stable () B) (hM : ∀ a, contract.Stable () (M a))
    (hx : EngineDoes P x (Post B M)) : DesktopDoes P (engine x) (Post B M) := by
  refine Does.adapt hB hM ?_
  rw [Does, ExceptT.run_mk, Prog.expand_perform]
  exact hx

/-- A call of the system. -/
theorem does_os {e : OsReq α} (hM : ∀ a, contract.Stable () (M a))
    (hstep : ∀ s, P s → M (osExec e s.desk).1 s) : DesktopDoes P (os e) (Post B M) := by
  refine Does.iff_triple.2 (Triple.call M hM (fun o s hs _ => ⟨trivial, ?_⟩) fun a =>
    Triple.done (Q := Post B M) (hM a) fun _ hs => hs)
  have hwrote : noted (.inr e) (osExec e s.desk).1 s.wrote = s.wrote := by
    cases e <;> rfl
  have hdesk : (osExec e s.desk).2 = s.desk := by
    cases e with
    | scan => rfl
    | nowSecs => rfl
    | readFile path =>
      simp only [osExec]
      split <;> rfl
  show M (osExec e s.desk).1 ⟨(osExec e s.desk).2, noted (.inr e) (osExec e s.desk).1 s.wrote⟩
  rw [hwrote, hdesk]
  exact hstep s hs

/-- The scan names these paths. -/
def Lists (seen : List (Path × ℤ)) (d : Disk) : Prop :=
  ∀ p, (∃ t, (p, t) ∈ d.scan) ↔ p ∈ seen.map Prod.fst

/-- While the scanned files are gone through. -/
def Filing (seen files : List (Path × ℤ)) (s : Repeated) : Prop :=
  Between (fun p t => (p, t) ∈ files) (fun p => p ∉ seen.map Prod.fst) s ∧ Lists seen s.desk.disk

/-- While the known paths are. -/
def Missing (seen : List (Path × ℤ)) (paths : List Path) (s : Repeated) : Prop :=
  Between (fun _ _ => False) (fun p => p ∈ paths ∧ p ∉ seen.map Prod.fst) s ∧
    Lists seen s.desk.disk

variable {seen files : List (Path × ℤ)} {paths : List Path} {mtime : ℤ} {contentType : String}

theorem lasting_filing : Lasting (Filing seen files) := lasting_between.and lasting_disk

theorem lasting_missing : Lasting (Missing seen paths) := lasting_between.and lasting_disk

theorem harmless_knownRev (path : Path) : Fallible.All Harmless (SyncEngine.knownRev path) :=
  .bind (SyncEngine.all_store trivial) fun _ => Fallible.all_pure _

/-- A failure that is reported ends the pass. -/
theorem does_report {x : Engine α} (hM : ∀ a, contract.Stable () (M a))
    (hx : EngineDoes P x (Post (fun _ => True) M)) :
    EngineDoes P (eng.report x) (Post (fun _ => True) M) := by
  have hnotify : ∀ e, Triple semantics condition contract () (fun _ => True)
      (.perform (.inl (.notifyError e))) fun _ _ => True :=
    fun e => Triple.perform (fun _ => stable_true) fun _ _ _ _ => ⟨trivial, trivial⟩
  exact SyncEngine.does_report stable_true hM hnotify hx

/-- **Recording a scanned file**: its time is known. -/
theorem does_recordUpsert (hseen : path ∈ seen.map Prod.fst) :
    EngineDoes (Filing seen ((path, mtime) :: files)) (eng.recordUpsert path mtime contentType c)
      (Post (fun _ => True) fun _ => Filing seen files) := by
  have hst : contract.Stable () (Filing seen files) := lasting_filing.stable
  refine does_report (fun _ => hst) ?_
  refine Does.bind (fun _ => Filing seen ((path, mtime) :: files)) stable_true
    (Does.mono (does_harmless lasting_filing (harmless_knownRev path)) (fun _ _ => trivial)
      fun _ _ h => h) fun baseRev => ?_
  refine Does.bind _ stable_true (Does.mono (does_filePut (D := Lists seen) (E := Lists seen)
    fun d now hd hlists hname htime hput p => ?_) (fun _ _ => trivial) fun _ _ h => h) fun _ => ?_
  · rw [← hlists p]
    constructor
    · rintro ⟨t, ht⟩
      rcases (mem_scan_put hd hname htime hput).1 ht with ⟨rfl, -⟩ | ⟨-, hold⟩
      exacts [(hlists p).2 hseen, ⟨t, hold⟩]
    · rintro ⟨t, ht⟩
      by_cases hp : p = path
      · exact ⟨_, (mem_scan_put hd hname htime hput).2 (.inl ⟨hp, rfl⟩)⟩
      · exact ⟨t, (mem_scan_put hd hname htime hput).2 (.inr ⟨hp, ht⟩)⟩
  · refine Does.bind (fun _ => Filing seen files) stable_true ((does_metaPut stable_true hst).pre
      fun s hs => ⟨(hs.2 _ rfl).mono (fun p t h => ?_) fun p h => h.2, hs.1⟩) fun _ => ?_
    · refine (List.mem_cons.1 h.2).resolve_left fun heq => h.1 (Prod.mk.inj heq).1
    · exact Does.mono (does_harmless lasting_filing (harmless_upsertPending _))
        (fun _ _ => trivial) fun _ _ h => h

/-- **Recording the deletion of a path the scan did not see.** -/
theorem does_recordDelete (hseen : path ∉ seen.map Prod.fst) :
    EngineDoes (Missing seen (path :: paths)) (eng.recordDelete path mtime)
      (Post (fun _ => True) fun _ => Missing seen paths) := by
  have hst : contract.Stable () (Missing seen paths) := lasting_missing.stable
  refine does_report (fun _ => hst) ?_
  refine Does.bind (fun _ => Missing seen (path :: paths)) stable_true
    (Does.mono (does_harmless lasting_missing (harmless_knownRev path)) (fun _ _ => trivial)
      fun _ _ h => h) fun baseRev => ?_
  refine Does.bind _ stable_true (Does.mono (does_fileDelete (D := Lists seen) (E := Lists seen)
    fun d hd hlists hother hdel p => ?_) (fun _ _ => trivial) fun _ _ h => h) fun _ => ?_
  · rw [← hlists p]
    simp only [mem_scan_delete hd hother hdel]
    constructor
    · rintro ⟨t, -, ht⟩
      exact ⟨t, ht⟩
    · rintro ⟨t, ht⟩
      refine ⟨t, ?_, ht⟩
      rintro rfl
      exact hseen ((hlists p).1 ⟨t, ht⟩)
  · refine Does.bind (fun _ => Missing seen paths) stable_true
      ((does_metaDelete stable_true hst).pre
        fun s hs => ⟨hs.2.mono (fun p t h => h.2) fun p h => ?_, hs.1⟩) fun _ => ?_
    · exact ⟨(List.mem_cons.1 h.2.1).resolve_left h.1, h.2.2⟩
    · exact Does.mono (does_harmless lasting_missing (harmless_upsertPending _))
        (fun _ _ => trivial) fun _ _ h => h

/-- A scanned file whose time is known is in order, -/
theorem Filing.skipped (h : Filing seen ((path, mtime) :: files) s)
    (htime : s.desk.knownTime path = some mtime) : Filing seen files s := by
  obtain ⟨hs, hlists⟩ := h
  refine ⟨⟨hs.wellFormed, fun p t hp => ?_, hs.seen, hs.written⟩, hlists⟩
  rcases hs.time p t hp with hold | hlate
  · exact .inl hold
  · rcases List.mem_cons.1 hlate with heq | hrest
    · obtain ⟨rfl, rfl⟩ := Prod.mk.inj heq
      exact .inl htime
    · exact .inr hrest

/-- and so is one that has vanished: the scan would not list it now. -/
theorem Filing.vanished (h : Filing seen ((path, mtime) :: files) s)
    (hnone : ∀ t, (path, t) ∉ s.desk.disk.scan) : Filing seen files s := by
  obtain ⟨hs, hlists⟩ := h
  refine ⟨⟨hs.wellFormed, fun p t hp => (hs.time p t hp).imp_right fun hlate => ?_, hs.seen,
    hs.written⟩, hlists⟩
  refine (List.mem_cons.1 hlate).resolve_left fun heq => ?_
  obtain ⟨rfl, rfl⟩ := Prod.mk.inj heq
  exact hnone _ hp

/-- What the scan lists can be read. -/
theorem not_mem_scan_of_notFound {d : Desktop} (hd : d.disk.WellFormed)
    (h : (osExec (.readFile path) d).1 = .error .notFound) (t : ℤ) : (path, t) ∉ d.disk.scan := by
  intro ht
  obtain ⟨q, b, t', ⟨hfile, hshows⟩, rfl, -⟩ := Disk.mem_scan.1 ht
  have hread : (osExec (.readFile (Disk.relPath q)) d).1 = .ok b := by
    simp only [osExec, hd.pathFor_relPath (Disk.fileAt_eq_some.1 hfile)
      (Disk.not_mem_of_shows hshows), FsFileStore.read_existing hd hfile]
  rw [hread] at h
  cases h

theorem does_recordFile (hseen : path ∈ seen.map Prod.fst) :
    DesktopDoes (Filing seen ((path, mtime) :: files)) (recordFile eng mimeOf path mtime)
      (Post (fun _ => True) fun _ => Filing seen files) := by
  have hst : contract.Stable () (Filing seen files) := lasting_filing.stable
  have hread : ∀ known : Option FileMeta, contract.Stable () fun s : Repeated =>
      Filing seen ((path, mtime) :: files) s ∧ s.desk.fileMeta? path = known := by
    rintro known s s' ⟨hs, hk⟩ ⟨now, rfl⟩
    exact ⟨lasting_filing.tick s now hs, hk⟩
  have hmeta : EngineDoes (Filing seen ((path, mtime) :: files)) (SyncEngine.readFileMeta path)
      (Post (fun _ => True) fun known s =>
        Filing seen ((path, mtime) :: files) s ∧ s.desk.fileMeta? path = known) := by
    refine Does.bind (fun v s => Filing seen ((path, mtime) :: files) s ∧
      s.desk.fileMeta? path = v.bind Blob.toFileMeta?) stable_true ?_ fun v =>
        Does.pure (hread _) fun s hs => hs
    refine Does.ask_perform rfl stable_true (fun _ => hread _) fun o s hs _ =>
      ⟨trivial, fun v hv => ⟨hs, ?_⟩, nofun⟩
    rw [← Except.ok.inj hv]
    rfl
  refine Does.bind _ stable_true (does_engine stable_true hread hmeta) fun known => ?_
  by_cases hknown : known.map FileMeta.mtime = some mtime
  · rw [if_pos hknown]
    refine Does.pure hst fun s hs => hs.1.skipped ?_
    rw [knownTime, hs.2, hknown]
  · rw [if_neg hknown]
    have hgone : ∀ r : Except IoError Bytes, contract.Stable () fun s : Repeated =>
        Filing seen ((path, mtime) :: files) s ∧
          (r = .error .notFound → ∀ t, (path, t) ∉ s.desk.disk.scan) := by
      rintro r s s' ⟨hs, hr⟩ ⟨now, rfl⟩
      exact ⟨lasting_filing.tick s now hs, hr⟩
    refine Does.bind _ stable_true (does_os hgone fun s hs => ⟨hs.1, fun hr =>
      not_mem_scan_of_notFound hs.1.1.wellFormed hr⟩) fun r => ?_
    rcases r with (_ | message) | content
    · exact Does.pure hst fun s hs => hs.1.vanished (hs.2 rfl)
    · exact Does.throw stable_true fun _ _ => trivial
    · exact does_engine stable_true (fun _ => hst) ((does_recordUpsert hseen).pre fun s hs => hs.1)

theorem does_recordFiles (hfiles : ∀ f ∈ files, f.1 ∈ seen.map Prod.fst) :
    DesktopDoes (Filing seen files) (recordFiles eng mimeOf files)
      (Post (fun _ => True) fun _ => Filing seen []) := by
  induction files with
  | nil => exact Does.pure lasting_filing.stable fun _ h => h
  | cons f files ih =>
    obtain ⟨path, mtime⟩ := f
    exact Does.bind _ stable_true (does_recordFile (hfiles _ List.mem_cons_self))
      fun _ => ih fun g hg => hfiles g (List.mem_cons_of_mem _ hg)

theorem does_recordMissing (paths : List Path) :
    DesktopDoes (Missing seen paths) (recordMissing eng seen paths)
      (Post (fun _ => True) fun _ => Missing seen []) := by
  induction paths with
  | nil => exact Does.pure lasting_missing.stable fun _ h => h
  | cons path paths ih =>
    unfold recordMissing
    by_cases hseen : path ∉ seen.map Prod.fst
    · rw [if_pos hseen]
      refine Does.bind (fun _ => Missing seen (path :: paths)) stable_true
        (does_os (fun _ => lasting_missing.stable) fun s hs => hs) fun now => ?_
      exact Does.bind _ stable_true (does_engine stable_true (fun _ => lasting_missing.stable)
        (does_recordDelete hseen)) fun _ => ih
    · rw [if_neg hseen]
      refine ih.pre fun s hs => ⟨hs.1.mono (fun _ _ h => h) fun p h => ⟨?_, h.2⟩, hs.2⟩
      refine (List.mem_cons.1 h.1).resolve_left ?_
      rintro rfl
      exact hseen h.2

/-- Nothing has been written yet. -/
def Fresh (s : Repeated) : Prop := s.desk.disk.WellFormed ∧ s.wrote = ∅

theorem stable_fresh : contract.Stable () Fresh := by
  rintro s s' hs ⟨now, rfl⟩
  exact hs

/-- **The recording half** leaves nothing to record. -/
theorem does_recordChanges : DesktopDoes Fresh (recordChanges eng mimeOf)
    (Post (fun _ => True) fun _ => Quiet) := by
  have hscan : DesktopDoes Fresh (os .scan) (Post (fun _ => True) fun seen => Filing seen seen) := by
    refine does_os (fun seen => lasting_filing.stable) fun s ⟨hd, hwrote⟩ => ⟨?_, fun p => ?_⟩
    · have hnone : ∀ p, s.wrote.lookup p = none := fun p => by rw [hwrote]; rfl
      refine ⟨hd, fun p t hp => .inr hp, fun p _ => (em (s.desk.Seen p)).imp_right id, fun p b hb => ?_⟩
      rw [hnone p] at hb
      cases hb
    · exact seen_iff.symm
  refine Does.bind _ stable_true hscan fun seen => ?_
  refine Does.bind _ stable_true (does_recordFiles fun f hf => List.mem_map_of_mem hf) fun _ => ?_
  have hknown : ∀ paths : List Path, contract.Stable () (Missing seen paths) :=
    fun _ => lasting_missing.stable
  have hlist : EngineDoes (Filing seen []) SyncEngine.listFilePaths
      (Post (fun _ => True) fun paths => Missing seen paths) := by
    have hkeys : ∀ keys : List String, contract.Stable () fun s : Repeated =>
        Filing seen [] s ∧ keys = listKeys s.desk.blobs "file/" := by
      rintro keys s s' ⟨hs, hk⟩ ⟨now, rfl⟩
      exact ⟨lasting_filing.tick s now hs, hk⟩
    refine Does.bind _ stable_true (Does.ask_perform rfl stable_true hkeys fun o s hs _ =>
      ⟨trivial, fun keys hk => ⟨hs, (Except.ok.inj hk).symm⟩, nofun⟩) fun keys => ?_
    refine Does.pure (hknown _) fun s ⟨⟨hs, hlists⟩, hk⟩ => ⟨?_, hlists⟩
    refine ⟨hs.wellFormed, fun p t hp => (hs.time p t hp).imp_right fun h => (List.not_mem_nil h).elim,
      fun p hp => (hs.seen p hp).imp_right fun hstray => ⟨?_, hstray⟩, hs.written⟩
    rw [hk]
    exact mem_listKeys.2 hp
  refine Does.bind _ stable_true (does_engine stable_true hknown hlist) fun paths => ?_
  refine Does.mono (does_recordMissing paths) (fun _ _ => trivial) fun _ s hs => ?_
  exact hs.1.mono (fun _ _ h => h) fun p h => absurd h.1 List.not_mem_nil

/-- **A whole pass.** -/
theorem does_reconcileAndSync : DesktopDoes Fresh (reconcileAndSync eng mimeOf)
    (Post (fun _ => True) fun _ => Quiet) := by
  have hst : contract.Stable () Quiet := lasting_between.stable
  have hsync : EngineDoes Quiet eng.sync (Post Quiet fun _ => Quiet) :=
    Does.bind _ hst does_push fun _ => Does.bind _ hst does_pull fun _ =>
      Does.pure hst fun _ h => h
  refine Does.bind _ stable_true does_recordChanges fun _ => ?_
  exact Does.bind (fun _ => Quiet) stable_true (does_engine stable_true (fun _ => hst)
    (Does.mono hsync (fun _ _ => trivial) fun _ _ h => h)) fun _ => Does.pure hst fun _ h => h

/-- **After a pass there is nothing to record.** In every run of a pass that
writes its files under the names the walk has for them, which have the times
they are given, and removes none that has another name: when it has succeeded, the
next pass records no upsert and no delete, whenever it comes, and every file
is there as the pass last wrote it. -/
theorem nothing_to_record_after_pass (eng : SyncEngine) (mimeOf : Path → String) (desk : Desktop)
    (ms : List (Move Unit HubAnswers ℤ)) (hd : desk.disk.WellFormed)
    (hmeets : (start eng mimeOf desk).Meets semantics condition ms)
    (hdone : ((start eng mimeOf desk).runs semantics ms).task () = .done (.ok ())) :
    (∀ now, RecordsNothing eng mimeOf
        { ((start eng mimeOf desk).runs semantics ms).state.desk with now := now }) ∧
      ((start eng mimeOf desk).runs semantics ms).state.Written := by
  have hpool : PoolSafe semantics condition contract
      (fun _ => Post (fun _ => True) fun _ => Quiet) (start eng mimeOf desk) :=
    PoolSafe.init (P := fun _ => Fresh) (fun _ => stable_fresh) (fun _ => ⟨hd, rfl⟩)
      fun _ => Does.iff_triple.1 does_reconcileAndSync
  have hquiet : Quiet ((start eng mimeOf desk).runs semantics ms).state :=
    (hpool.runs contract_fits hmeets).of_done hdone
  exact ⟨fun now => Quiet.recordsNothing hquiet now,
    fun path data hwrote => get_of_holds hquiet.wellFormed (hquiet.written path data hwrote)⟩

/-! ## A file with no time -/

instance (i : Unit) (β : Type) (e : DesktopReq β) (o : HubAnswers) (s : Repeated) :
    Decidable (condition.call i e o s) := inferInstanceAs (Decidable (Spelled e s))

instance (now : ℤ) (s : Repeated) : Decidable (condition.env now s) :=
  inferInstanceAs (Decidable True)

/-- Nothing synced yet, at the time 5. -/
def nothing : Desktop := ⟨∅, Disk.empty, 5⟩

/-- A hub that has one file, with this name and time. -/
def serving (path : Path) (mtime : ℤ) : HubAnswers where
  changes := .ok ⟨[⟨path, false, ⟨1, "x"⟩⟩], 1⟩
  file := .ok (some ⟨some ⟨1, "x"⟩, mtime, octetStream, [1]⟩)
  push := .ok []

/-- The hub answers every call of the pass. -/
def onePass (o : HubAnswers) : List (Move Unit HubAnswers ℤ) := List.replicate 12 (.run () o)

/-- **A file with no time is recorded as an edit**, and one whose name the
scan does not give it as one more file, and deleted under the first name. -/
theorem pulled_file_recorded :
    ((start (oneHub true) anyType nothing).runs semantics (onePass (serving "a" 0))).task () =
        .done (.ok ()) ∧
      ¬ RecordsNothing (oneHub true) anyType
        ((start (oneHub true) anyType nothing).runs semantics (onePass (serving "a" 0))).state.desk ∧
      ((start (oneHub true) anyType nothing).runs semantics (onePass (serving "a//b" 7))).task () =
        .done (.ok ()) ∧
      ¬ RecordsNothing (oneHub true) anyType
        ((start (oneHub true) anyType nothing).runs semantics (onePass (serving "a//b" 7))).state.desk := by
  have hdisk : ((start (oneHub true) anyType nothing).runs semantics
      (onePass (serving "a" 0))).state.desk.disk =
        (FsFileStore.put Disk.empty 5 "a" [1] 0).2 := rfl
  have hdisk' : ((start (oneHub true) anyType nothing).runs semantics
      (onePass (serving "a//b" 7))).state.desk.disk =
        (FsFileStore.put Disk.empty 5 "a//b" [1] 7).2 := rfl
  have hwf : (FsFileStore.put Disk.empty 5 "a" [1] 0).2.WellFormed :=
    FsFileStore.wellFormed_put Disk.wellFormed_empty
  have hwf' : (FsFileStore.put Disk.empty 5 "a//b" [1] 7).2.WellFormed :=
    FsFileStore.wellFormed_put Disk.wellFormed_empty
  rw [← hdisk] at hwf
  rw [← hdisk'] at hwf'
  refine ⟨Prog.result?_eq_some.1 (by decide +kernel), fun h => ?_,
    Prog.result?_eq_some.1 (by decide +kernel), fun h => ?_⟩
  · have htime := ((recordsNothing_iff hwf).1 h "a").time 5 (by decide +kernel)
    exact absurd htime (by decide +kernel)
  · have htime := ((recordsNothing_iff hwf').1 h "a/b").time 7 (by decide +kernel)
    exact absurd htime (by decide +kernel)

theorem pulled_file_settled :
    (∀ now, RecordsNothing (oneHub true) anyType
        { ((start (oneHub true) anyType nothing).runs semantics (onePass (serving "a" 7))).state.desk with
          now := now }) ∧
      ((start (oneHub true) anyType nothing).runs semantics (onePass (serving "a" 7))).state.Written := by
  refine nothing_to_record_after_pass (oneHub true) anyType nothing (onePass (serving "a" 7))
    Disk.wellFormed_empty (by decide +kernel) (Prog.result?_eq_some.1 ?_)
  decide +kernel

end Repeated

end FileSync
