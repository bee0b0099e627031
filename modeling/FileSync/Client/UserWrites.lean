import FileSync.Client.Reconcile
/-!
# The user at work while a pass is under way

One file of the directory is watched over two passes, the user free to write
and remove files until the second one scans. The state carries the user's
last action on the file, whether the client has read the file since, and
what the client has sent.

What the user wrote survives as long as the first pass leaves the file alone
until it has read it. From there on the client keeps it by itself: bytes it
has read are queued, what is queued is sent before the queue is emptied, and
a pull leaves queued paths alone.
-/

namespace FileSync

namespace UserWrites

open Desktop Relation

/-- What goes on outside the client. A write through a link is one of the file
the link leads to. -/
inductive Outside
  | write (place : Place) (content : Bytes) (mtime : ℤ)
  | delete (place : Place)
  | clock (now : ℤ)

/-- It is the user's. -/
def Outside.onFiles : Outside → Bool
  | clock _ => false
  | _ => true

/-- The place the user writes, and the time of it. -/
def Outside.written : Outside → Option (Place × ℤ)
  | write place _ mtime => some (place, mtime)
  | _ => none

/-- The client, and the history of the watched file. -/
structure State where
  desk : Desktop
  /-- How many passes have scanned. -/
  scans : ℕ
  /-- What the user last wrote, if that was the last action on the file. -/
  last : Option (Bytes × ℤ)
  /-- The client has not read the file since. -/
  unread : Bool
  sent : List PushChange

def isScan : ∀ ⦃β : Type⦄, DesktopReq β → Bool
  | _, .inr .scan => true
  | _, _ => false

/-- The path whose file the call reads. -/
def readsFile : ∀ ⦃β : Type⦄, DesktopReq β → Option Path
  | _, .inl (.fileGet path) => some path
  | _, .inr (.readFile path) => some path
  | _, _ => none

/-- The path whose file the call writes or removes. -/
def writesFile : ∀ ⦃β : Type⦄, DesktopReq β → Option Path
  | _, .inl (.filePut path _ _) => some path
  | _, .inl (.fileDelete path) => some path
  | _, _ => none

/-- The key and the time of the metadata the call stores. -/
def storesTime : ∀ ⦃β : Type⦄, DesktopReq β → Option (String × ℤ)
  | _, .inl (.metaPut key (.fileMeta m)) => some (key, m.mtime)
  | _, _ => none

def sends : ∀ ⦃β : Type⦄, DesktopReq β → List PushChange
  | _, .inl (.hubPush _ changes) => changes
  | _, _ => []

variable (q : Place)

/-- What a call is noted as. -/
def State.note ⦃β : Type⦄ (s : State) (e : DesktopReq β) : State where
  desk := s.desk
  scans := if isScan e then s.scans + 1 else s.scans
  last := s.last
  unread := s.unread && readsFile e ≠ some (Disk.relPath q)
  sent := s.sent ++ sends e

/-- An action on the watched file: it names the file, or leads to it. -/
def OnWatched (s : State) (p : Place) : Prop := p = q ∨ s.desk.disk.reaches p = some q

instance (s : State) (p : Place) : Decidable (OnWatched q s p) :=
  inferInstanceAs (Decidable (_ ∨ _))

/-- The user's file operations fail as the directory lets them. -/
def act (s : State) : Outside → State
  | .write p content mtime =>
    if ∀ name ∈ p, ValidName name then
      let r := s.desk.disk.put ⟨p, false⟩ content mtime
      let s' := { s with desk := { s.desk with disk := r.2 } }
      if OnWatched q s p ∧ r.1.isOk then
        { s' with last := some (content, mtime), unread := true }
      else s'
    else s
  | .delete p =>
    let r := s.desk.disk.remove ⟨p, false⟩
    let s' := { s with desk := { s.desk with disk := r.2 } }
    if OnWatched q s p ∧ r.1.isOk then { s' with last := none } else s'
  | .clock now => { s with desk := { s.desk with now := now } }

def semantics : Semantics Unit DesktopReq HubAnswers Outside State where
  exec _ _ e o s := ((Desktop.exec e o s.desk).1,
    { s with desk := (Desktop.exec e o s.desk).2 }.note q e)
  env a s := act q s a

/-- **When the user's bytes are safe.** The client writes or removes the
watched file under its own path only, never if it is one the walk does not
come to, and in the first pass only once it has read what the user last
wrote. The file the user writes is under the root and no link is on the way
to it, and the time it is given is not one the client knows. The user acts
until the second scan. -/
def Respected : StepCond Unit DesktopReq HubAnswers Outside State where
  call _ _ e _ s :=
    (∀ path ∈ writesFile e, FsFileStore.leads s.desk.disk path = some q →
      path = Disk.relPath q ∧ s.desk.disk.shows q = true ∧ (s.scans ≤ 1 → s.unread = false)) ∧
    ∀ x ∈ storesTime e, x.1 = fileKey (Disk.relPath q) → s.unread = true →
      ∀ w ∈ s.last, x.2 ≠ max 0 w.2
  env a s :=
    (a.onFiles = true → s.scans ≤ 1) ∧
    ∀ w ∈ a.written, OnWatched q s w.1 → s.desk.disk.reaches w.1 = some q ∧ ".." ∉ q ∧
      s.desk.knownTime (Disk.relPath q) ≠ some (max 0 w.2)

instance (q : Place) (i : Unit) (β : Type) (e : DesktopReq β) (o : HubAnswers) (s : State) :
    Decidable ((Respected q).call i e o s) :=
  inferInstanceAs (Decidable ((∀ path ∈ writesFile e, _) ∧ ∀ x ∈ storesTime e, _))

instance (q : Place) (s : State) (a : Outside) : Decidable ((Respected q).env a s) :=
  inferInstanceAs (Decidable (_ ∧ ∀ w ∈ a.written, _))

/-- The bytes were sent in a push of the watched file. -/
def Sent (s : State) (content : Bytes) : Prop :=
  ∃ change ∈ s.sent, change.path = Disk.relPath q ∧
    change.contentBase64 = some (.encode content)

instance (q : Place) (s : State) (content : Bytes) : Decidable (Sent q s content) :=
  inferInstanceAs (Decidable (∃ change ∈ _, _))

/-- What holds of the user's last write unless it has been sent. -/
def Owes (s : State) (φ : Bytes → ℤ → Prop) : Prop :=
  ∀ content mtime, s.last = some (content, mtime) → ¬ Sent q s content → φ content mtime

/-- **The user's bytes are there, or were sent.** -/
def Kept (s : State) : Prop := Owes q s fun content _ => s.desk.bytesAt q = some content

/-- A pass, and another one whatever became of the first. -/
def passes (eng : SyncEngine) (mimeOf : Path → String) : DesktopM Unit := do
  let _ ← Fallible.attempt (reconcileAndSync eng mimeOf)
  reconcileAndSync eng mimeOf

def start (eng : SyncEngine) (mimeOf : Path → String) (desk : Desktop) :
    Config Unit DesktopReq (Except DesktopError Unit) State where
  task _ := (passes eng mimeOf).run
  state := ⟨desk, 0, none, false, []⟩

/-! ## What a step leaves -/

variable {q}

/-- The watched file and its history are as they were. -/
structure Same (q : Place) (s s' : State) : Prop where
  last : s'.last = s.last
  unread : s'.unread = s.unread
  file : s'.desk.disk.fileAt q = s.desk.disk.fileAt q
  time : s.unread = true → ∀ content mtime, s.last = some (content, mtime) →
    s.desk.knownTime (Disk.relPath q) ≠ some (max 0 mtime) →
    s'.desk.knownTime (Disk.relPath q) ≠ some (max 0 mtime)

/-- The user has written the watched file. -/
structure Fresh (q : Place) (s : State) (content : Bytes) (mtime : ℤ) : Prop where
  inside : ".." ∉ q
  unread : s.unread = true
  file : s.desk.disk.fileAt q = some (content, mtime)
  time : s.desk.knownTime (Disk.relPath q) ≠ some (max 0 mtime)

/-- What calls that have nothing to do with the watched file leave, and the
user's actions. -/
structure Later (q : Place) (s s' : State) : Prop where
  scans : s'.scans = s.scans
  sent : s'.sent = s.sent
  pending : s'.desk.pending = s.desk.pending
  wellFormed : s.desk.disk.WellFormed → s'.desk.disk.WellFormed
  shows : s'.desk.disk.shows q = s.desk.disk.shows q
  turn : Same q s s' ∨ s.scans ≤ 1 ∧
    (s'.last = none ∨ ∃ content mtime, s'.last = some (content, mtime) ∧ Fresh q s' content mtime)

def contract (q : Place) : Contract Unit State where
  rely _ s s' := s'.desk.blobs = s.desk.blobs ∧ Later q s s'
  guar _ _ s' := Kept q s'

variable {s s' : State} {o : HubAnswers} {path : Path} {c : Bytes} {m : ℤ}
  {seen files : List (Path × ℤ)}

theorem Later.sent_iff (h : Later q s s') : Sent q s' c ↔ Sent q s c := by
  rw [Sent, Sent, h.sent]

/-- **What is owed stays owed**, if it stays so while the file is the same
and holds of any file the user has just written. -/
theorem Later.owes (h : Later q s s') {φ : State → Bytes → ℤ → Prop}
    (hs : Owes q s (φ s))
    (hsame : Same q s s' → ∀ c m, s.last = some (c, m) → φ s c m → φ s' c m)
    (hfresh : s.scans ≤ 1 → ∀ c m, Fresh q s' c m → φ s' c m) : Owes q s' (φ s') := by
  intro c m hlast hsent
  rw [h.sent_iff] at hsent
  rcases h.turn with hturn | ⟨hscans, hnone | ⟨c', m', hlast', hfresh'⟩⟩
  · rw [hturn.last] at hlast
    exact hsame hturn c m hlast (hs c m hlast hsent)
  · rw [hnone] at hlast
    cases hlast
  · rw [hlast'] at hlast
    obtain ⟨rfl, rfl⟩ := Prod.mk.inj (Option.some.inj hlast)
    exact hfresh hscans _ _ hfresh'

/-! ## What is known of the watched file -/

/-- The user's bytes are there, as the user left them if the client has not
read them. -/
structure Held (q : Place) (s : State) : Prop where
  scanned : 1 ≤ s.scans
  wellFormed : s.desk.disk.WellFormed
  inside : Owes q s fun _ _ => ".." ∉ q
  bytes : Owes q s fun c m => s.desk.bytesAt q = some c ∧
    (s.unread = true → s.desk.disk.fileAt q = some (c, m) ∧
      s.desk.knownTime (Disk.relPath q) ≠ some (max 0 m))

/-- And queued if it has. -/
structure Secured (q : Place) (s : State) : Prop extends Held q s where
  queued : Owes q s fun _ _ => s.unread = true ∨ s.desk.Queued (Disk.relPath q) false

/-- What the client has not read. -/
def AllUnread (q : Place) (s : State) : Prop := Owes q s fun _ _ => s.unread = true

/-- What the client has read is one of these bytes. -/
def HasRead (q : Place) (φ : Bytes → Prop) (s : State) : Prop :=
  Owes q s fun c _ => s.unread = true ∨ φ c

/-- A pass that has not seen the watched file has not read it. -/
def NotSeen (q : Place) (seen : List (Path × ℤ)) (s : State) : Prop :=
  Disk.relPath q ∉ seen.map Prod.fst → s.desk.disk.shows q = true →
    Owes q s fun _ _ => s.unread = true ∧ s.scans ≤ 1

/-- The second pass has read the watched file or has it still before it. -/
def Ahead (q : Place) (files : List (Path × ℤ)) (s : State) : Prop :=
  2 ≤ s.scans → s.desk.disk.shows q = true →
    Owes q s fun _ m => s.unread = false ∨ (Disk.relPath q, max 0 m) ∈ files

theorem Held.kept (h : Held q s) : Kept q s := fun c m hl hs => (h.bytes c m hl hs).1

theorem Held.later (hs : Held q s) (h : Later q s s') : Held q s' where
  scanned := h.scans.symm ▸ hs.scanned
  wellFormed := h.wellFormed hs.wellFormed
  inside := h.owes (φ := fun _ _ _ => ".." ∉ q) hs.inside (fun _ _ _ _ hφ => hφ)
    fun _ _ _ hfresh => hfresh.inside
  bytes := h.owes (φ := fun s c m => s.desk.bytesAt q = some c ∧
    (s.unread = true → s.desk.disk.fileAt q = some (c, m) ∧
      s.desk.knownTime (Disk.relPath q) ≠ some (max 0 m))) hs.bytes
    (fun hsame c m hlast hφ => by
      refine ⟨?_, fun hu => ?_⟩
      · rw [bytesAt, hsame.file]
        exact hφ.1
      · rw [hsame.unread] at hu
        rw [hsame.file]
        exact ⟨(hφ.2 hu).1, hsame.time hu c m hlast (hφ.2 hu).2⟩)
    fun _ c m hfresh => ⟨by rw [bytesAt, hfresh.file]; rfl, fun _ => ⟨hfresh.file, hfresh.time⟩⟩

theorem Later.queued (h : Later q s s') {deleted : Bool} :
    s'.desk.Queued path deleted ↔ s.desk.Queued path deleted := by
  rw [Queued, Queued, h.pending]

theorem Secured.later (hs : Secured q s) (h : Later q s s') : Secured q s' where
  toHeld := hs.toHeld.later h
  queued := h.owes (φ := fun s _ _ => s.unread = true ∨ s.desk.Queued (Disk.relPath q) false)
    hs.queued
    (fun hsame _ _ _ hφ => hφ.imp (fun hu => hsame.unread.trans hu) fun hq => h.queued.2 hq)
    fun _ _ _ hfresh => .inl hfresh.unread

theorem AllUnread.later (hs : AllUnread q s) (h : Later q s s') : AllUnread q s' :=
  h.owes (φ := fun s _ _ => s.unread = true) hs
    (fun hsame _ _ _ hφ => hsame.unread.trans hφ) fun _ _ _ hfresh => hfresh.unread

theorem HasRead.later {φ : Bytes → Prop} (hs : HasRead q φ s) (h : Later q s s') :
    HasRead q φ s' :=
  h.owes (φ := fun s c _ => s.unread = true ∨ φ c) hs
    (fun hsame _ _ _ hφ => hφ.imp_left fun hu => hsame.unread.trans hu)
    fun _ _ _ hfresh => .inl hfresh.unread

theorem NotSeen.later (hs : NotSeen q seen s) (h : Later q s s') : NotSeen q seen s' :=
  fun hseen hshows => h.owes (φ := fun s _ _ => s.unread = true ∧ s.scans ≤ 1)
    (hs hseen (h.shows ▸ hshows))
    (fun hsame _ _ _ hφ => ⟨hsame.unread.trans hφ.1, h.scans ▸ hφ.2⟩)
    fun hscans _ _ hfresh => ⟨hfresh.unread, h.scans ▸ hscans⟩

theorem Ahead.later (hs : Ahead q files s) (h : Later q s s') : Ahead q files s' := by
  intro hscans hshows
  rw [h.scans] at hscans
  rw [h.shows] at hshows
  exact h.owes (φ := fun s _ m => s.unread = false ∨ (Disk.relPath q, max 0 m) ∈ files)
    (hs hscans hshows)
    (fun hsame _ _ _ hφ => hφ.imp_left fun hu => hsame.unread.trans hu)
    fun h1 _ _ _ => absurd h1 (by omega)

/-- In the second pass, what the client has read it has read for good. -/
def ReadForGood (s : State) : Prop := 2 ≤ s.scans → s.unread = false

theorem ReadForGood.later (hs : ReadForGood s) (h : Later q s s') : ReadForGood s' := by
  intro hscans
  rw [h.scans] at hscans
  rcases h.turn with hsame | ⟨h1, -⟩
  · exact hsame.unread.trans (hs hscans)
  · omega

/-- Before the first scan: only the user has been at work. -/
structure Unscanned (q : Place) (s : State) : Prop where
  scans : s.scans = 0
  wellFormed : s.desk.disk.WellFormed
  fresh : Owes q s (Fresh q s)

theorem Unscanned.later (hs : Unscanned q s) (h : Later q s s') : Unscanned q s' where
  scans := h.scans.trans hs.scans
  wellFormed := h.wellFormed hs.wellFormed
  fresh := h.owes (φ := Fresh q) hs.fresh
    (fun hsame c m hlast hfresh =>
      ⟨hfresh.inside, hsame.unread.trans hfresh.unread, hsame.file.trans hfresh.file,
        hsame.time hfresh.unread c m hlast hfresh.time⟩)
    fun _ _ _ hfresh => hfresh

/-! ## The steps -/

/-- The user's actions leave what `Later` says. -/
theorem later_act {a : Outside} (ha : (Respected q).env a s) : Later q s (act q s a) := by
  cases a with
  | clock now => exact ⟨rfl, rfl, rfl, fun h => h, rfl, .inl ⟨rfl, rfl, rfl, fun _ _ _ _ h => h⟩⟩
  | write p c m =>
    have hscans : s.scans ≤ 1 := ha.1 rfl
    have hwatched := ha.2 (p, m) rfl
    have hshows : (s.desk.disk.put ⟨p, false⟩ c m).2.shows q = s.desk.disk.shows q := by
      rw [Disk.shows, (Disk.put_fixed ..).1, Disk.shows]
    simp only [act]
    split
    · rename_i hnames
      have hwf : s.desk.disk.WellFormed → (s.desk.disk.put ⟨p, false⟩ c m).2.WellFormed :=
        fun hd => hd.put fun name hname => by
          obtain ⟨h1, h2, h3, h4, -⟩ := hnames name hname
          exact ⟨h1, h2, h3, h4⟩
      split
      · rename_i hp
        -- the watched place is written: the bytes are there now and unread
        obtain ⟨hreaches, hin, htime⟩ := hwatched hp.1
        refine ⟨rfl, rfl, rfl, hwf, hshows, .inr ⟨hscans, .inr ⟨c, m, rfl, hin, rfl, ?_, htime⟩⟩⟩
        have hok : (s.desk.disk.put ⟨p, false⟩ c m).1 = .ok () := by
          cases hput : (s.desk.disk.put ⟨p, false⟩ c m).1 with
          | ok _ => rfl
          | error e =>
            rw [hput] at hp
            cases hp.2
        obtain ⟨r, hr, hfile⟩ := Disk.fileAt_put_of_ok hok
        obtain rfl := Except.ok.inj (hr.symm.trans (Disk.reaches_eq_some.1 hreaches))
        exact hfile
      · rename_i hp
        refine ⟨rfl, rfl, rfl, hwf, hshows, .inl ⟨rfl, rfl, ?_, fun _ _ _ _ h => h⟩⟩
        by_cases hpq : OnWatched q s p
        · refine Disk.fileAt_put_of_error (l := ⟨p, false⟩) fun hok => hp ⟨hpq, ?_⟩
          rw [hok]
          rfl
        · exact Disk.fileAt_put_of_ne fun hr => hpq (.inr (Disk.reaches_eq_some.2 hr))
    · exact ⟨rfl, rfl, rfl, fun h => h, rfl, .inl ⟨rfl, rfl, rfl, fun _ _ _ _ h => h⟩⟩
  | delete p =>
    have hshows : (s.desk.disk.remove ⟨p, false⟩).2.shows q = s.desk.disk.shows q := by
      rw [Disk.shows, (Disk.remove_fixed ..).1, Disk.shows]
    simp only [act]
    split
    · exact ⟨rfl, rfl, rfl, fun h => h.remove, hshows, .inr ⟨ha.1 rfl, .inl rfl⟩⟩
    · rename_i hp
      refine ⟨rfl, rfl, rfl, fun h => h.remove, hshows, .inl ⟨rfl, rfl, ?_, fun _ _ _ _ h => h⟩⟩
      by_cases hpq : OnWatched q s p
      · refine Disk.fileAt_remove_of_error (l := ⟨p, false⟩) fun hok => hp ⟨hpq, ?_⟩
        rw [hok]
        rfl
      · exact Disk.fileAt_remove_of_ne fun hr => hpq (.inr (Disk.reaches_eq_some.2 hr))

theorem blobs_act (a : Outside) : (act q s a).desk.blobs = s.desk.blobs := by
  cases a with
  | clock now => rfl
  | write p c m =>
    simp only [act]
    split
    · split <;> rfl
    · rfl
  | delete p =>
    simp only [act]
    split <;> rfl

theorem fits : (contract q).Fits (semantics q) (Respected q) where
  guar_rely _ _ hij := absurd (Subsingleton.elim _ _) hij
  env_rely _ a _ ha := ⟨blobs_act a, later_act ha⟩

/-- The call has nothing to do with the watched file or the queue. -/
def Quiet (q : Place) ⦃β : Type⦄ : EngineReq β → Prop
  | .metaPut key value => key ≠ keyPending ∧ ∀ path, key = fileKey path → ∃ m, value = .fileMeta m
  | .metaDelete key => key ≠ keyPending
  | .fileGet path => path ≠ Disk.relPath q
  | .filePut path _ _ => path ≠ Disk.relPath q
  | .fileDelete path => path ≠ Disk.relPath q
  | .hubPush _ _ => False
  | _ => True

/-- A call of the engine, as the desktop client makes it. -/
abbrev inEngine ⦃β : Type⦄ (e : EngineReq β) : DesktopReq β := .inl e

/-- A call that neither scans nor reads nor sends is not noted. -/
theorem exec_eq {β : Type} {e : DesktopReq β} (hscan : isScan e = false)
    (hread : readsFile e ≠ some (Disk.relPath q)) (hsend : sends e = []) :
    ((semantics q).exec () e o s).2 = { s with desk := (Desktop.exec e o s.desk).2 } := by
  simp [semantics, State.note, hscan, hread, hsend]

/-- Under another path the client does not touch the watched file. -/
theorem leads_ne {β : Type} {e : DesktopReq β} (hcond : (Respected q).call () e o s)
    (hw : writesFile e = some path) (hne : path ≠ Disk.relPath q) :
    FsFileStore.leads s.desk.disk path ≠ some q := fun hq => hne (hcond.1 path hw hq).1

/-- **A quiet call** leaves the watched file and the queue alone. -/
theorem later_of_quiet {β : Type} {e : EngineReq β} (he : Quiet q e)
    (hcond : (Respected q).call () (inEngine e) o s) :
    Later q s ((semantics q).exec () (inEngine e) o s).2 := by
  have hread : readsFile (inEngine e) ≠ some (Disk.relPath q) := by
    cases e with
    | fileGet path => exact fun h => he (Option.some.inj h)
    | _ => rintro ⟨⟩
  have hsend : sends (inEngine e) = [] := by
    cases e with
    | hubPush hub changes => exact he.elim
    | _ => rfl
  rw [exec_eq rfl hread hsend]
  have hsame : ∀ d : Desktop, d.disk.fileAt q = s.desk.disk.fileAt q →
      d.knownTime (Disk.relPath q) = s.desk.knownTime (Disk.relPath q) →
      Same q s { s with desk := d } :=
    fun d hf ht => ⟨rfl, rfl, hf, fun _ _ _ _ h => ht ▸ h⟩
  cases e with
  | metaPut key value =>
    refine ⟨rfl, rfl, ?_, fun h => h, rfl, .inl ⟨rfl, rfl, rfl, fun hu c m hlast ht => ?_⟩⟩
    · simp only [Desktop.exec, engineExec, pending, AList.lookup_insert_ne he.1.symm]
    · by_cases hkey : key = fileKey (Disk.relPath q)
      · obtain ⟨f, rfl⟩ := he.2 _ hkey
        have hne := hcond.2 (key, f.mtime) rfl hkey hu (c, m) hlast
        subst hkey
        simpa [Desktop.exec, engineExec, knownTime, fileMeta?, Blob.toFileMeta?] using hne
      · simpa only [Desktop.exec, engineExec, knownTime, fileMeta?,
          AList.lookup_insert_ne (Ne.symm hkey)] using ht
  | metaDelete key =>
    have hkey : key ≠ keyPending := he
    refine ⟨rfl, rfl, ?_, fun h => h, rfl, .inl ⟨rfl, rfl, rfl, fun hu c m hlast ht => ?_⟩⟩
    · simp only [Desktop.exec, engineExec, pending, AList.lookup_erase_ne hkey.symm]
    · by_cases hkey : key = fileKey (Disk.relPath q)
      · subst hkey
        simp [Desktop.exec, engineExec, knownTime, fileMeta?]
      · simpa only [Desktop.exec, engineExec, knownTime, fileMeta?,
          AList.lookup_erase_ne (Ne.symm hkey)] using ht
  | filePut path data mtime =>
    exact ⟨rfl, rfl, rfl, FsFileStore.wellFormed_put, FsFileStore.shows_put, .inl (hsame _
      (FsFileStore.fileAt_put_of_ne (leads_ne hcond rfl he)) rfl)⟩
  | fileDelete path =>
    exact ⟨rfl, rfl, rfl, FsFileStore.wellFormed_delete, FsFileStore.shows_delete, .inl (hsame _
      (FsFileStore.fileAt_delete_of_ne (leads_ne hcond rfl he)) rfl)⟩
  | hubPush hub changes => exact he.elim
  | _ => exact ⟨rfl, rfl, rfl, fun h => h, rfl, .inl (hsame _ rfl rfl)⟩

end UserWrites

end FileSync
