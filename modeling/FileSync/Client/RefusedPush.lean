import FileSync.Client.Calls
import FileSync.Model.HubClient
import FileSync.Hub.Alone
/-!
# A push the hub refuses

One device and one healthy hub. The hub ends a batch at the first change it
cannot apply, and the client takes the batch as a whole: a refused batch
stays queued and is reported, however often it is tried, and it leaves the
queue when the hub takes all of it.
-/

namespace FileSync

/-- The change a queued one is sent as. -/
def MemStore.toPush (s : MemStore) (p : PendingChange) : PushChange :=
  if p.deleted then ⟨p.path, true, p.baseRev, p.mtime, none, none⟩
  else ⟨p.path, false, p.baseRev, p.mtime,
    some (((((s.fileMeta? p.path).map FileMeta.contentType).filter (· ≠ "")).or
      p.contentType).getD octetStream),
    some (.encode ((s.files.lookup p.path).getD []))⟩

/-- The batch a push sends. -/
def MemStore.batch (s : MemStore) : List PushChange := s.pending.map s.toPush

namespace RefusedPush

variable {C : Couch} {env : HubEnv} {w : World} {eng : SyncEngine}

/-- Run an engine program on the device. -/
abbrev exec {α : Type} (C : Couch) (env : HubEnv) (x : Engine α) (w : World) :
    Except SyncError α × World :=
  Fallible.exec (World.exec C env) x w

/-! ## The steps of a push -/

theorem exec_loadPending : exec C env SyncEngine.loadPending w = (.ok w.store.pending, w) := by
  unfold SyncEngine.loadPending exec
  rw [Fallible.exec_bind_of_ok (a := w.store.blobs.lookup keyPending) (t := w) rfl]
  cases h : w.store.blobs.lookup keyPending <;> simp [MemStore.pending, h]

theorem exec_buildPushChange (p : PendingChange) :
    exec C env (SyncEngine.buildPushChange p) w = (.ok (w.store.toPush p), w) := by
  unfold SyncEngine.buildPushChange MemStore.toPush
  by_cases h : p.deleted = true
  · rw [if_pos h, if_pos h]
    rfl
  · rw [if_neg h, if_neg h]
    rfl

theorem exec_buildPushChanges (ps : List PendingChange) :
    exec C env (SyncEngine.buildPushChanges ps) w = (.ok (ps.map w.store.toPush), w) := by
  induction ps with
  | nil => rfl
  | cons p ps ih =>
    unfold SyncEngine.buildPushChanges exec
    rw [Fallible.exec_bind_of_ok (exec_buildPushChange p), Fallible.exec_bind_of_ok ih]
    rfl

/-- What the engine gets back for a batch is what the hub answers it. -/
theorem exec_hubPush (C : Couch) (env : HubEnv) (w : World) (hub : HubId) (batch : List PushChange) :
    exec C env (SyncEngine.ask (.hubPush hub batch)) w =
      (((Hub.exec C (Push.postChanges env batch) w.db).1.mapError ApiError.toHubError).mapError
        .hub, { w with db := (Hub.exec C (Push.postChanges env batch) w.db).2 }) := by
  have hrun : (HubClient.push env batch).run C.answer w.db =
      ((Hub.exec C (Push.postChanges env batch) w.db).1.mapError ApiError.toHubError,
        (Hub.exec C (Push.postChanges env batch) w.db).2) :=
    Fallible.exec_adapt _ _
  show (((HubClient.push env batch).run C.answer w.db).1.mapError SyncError.hub,
    { w with db := ((HubClient.push env batch).run C.answer w.db).2 }) = _
  rw [hrun]

variable (eng) in
/-- The world once an error has been reported. -/
def told (error : SyncError) (w : World) : World :=
  if eng.notifier then { w with notified := w.notified ++ [error] } else w

@[simp] theorem told_store {error : SyncError} : (told eng error w).store = w.store := by
  unfold told
  split <;> rfl

theorem exec_notify {α : Type} {error : SyncError} (h : error ≠ .panic) :
    exec C env (eng.notify error : Engine α) w = (.error error, told eng error w) := by
  unfold SyncEngine.notify told
  by_cases hn : eng.notifier = true
  · simp only [hn, h, ne_eq, not_false_eq_true, decide_true, Bool.and_self, if_true]
    rfl
  · simp only [hn, Bool.false_and, Bool.false_eq_true, if_false]
    rfl

theorem exec_report_of_ok {α : Type} {x : Engine α} {a : α} {w' : World}
    (hx : exec C env x w = (.ok a, w')) : exec C env (eng.report x) w = (.ok a, w') := by
  unfold SyncEngine.report exec
  rw [Fallible.exec_bind_of_ok (Fallible.exec_attempt_of hx)]
  rfl

/-- A push of a queue that is not empty comes down to the one hub's
answer. -/
theorem exec_push (hq : w.store.pending ≠ []) :
    exec C env eng.push w =
      exec C env (eng.failover (SyncEngine.pushTo w.store.pending w.store.batch) eng.hubs none) w := by
  have hne : w.store.pending.isEmpty = false := by simpa using hq
  unfold SyncEngine.push exec
  rw [Fallible.exec_bind_of_ok (exec_report_of_ok exec_loadPending)]
  simp only [hne, Bool.false_eq_true, if_false]
  rw [Fallible.exec_bind_of_ok (exec_report_of_ok (exec_buildPushChanges _))]
  rfl

/-! ## Refused -/

/-- **A refused batch ends the sync with the refusal.** Nothing in the
stores changes, and the error is reported once. -/
theorem exec_sync_of_refused {hub : HubId} {e : ApiError} {db' : Db} (hhubs : eng.hubs = [hub])
    (hq : w.store.pending ≠ [])
    (hrefuse : Hub.exec C (Push.postChanges env w.store.batch) w.db = (.error e, db')) :
    exec C env eng.sync w =
      (.error (.hub e.toHubError), told eng (.hub e.toHubError) { w with db := db' }) := by
  have hpushTo : exec C env (SyncEngine.pushTo w.store.pending w.store.batch hub) w =
      (.error (.hub e.toHubError), { w with db := db' }) := by
    unfold SyncEngine.pushTo exec
    refine Fallible.exec_bind_of_error ?_
    have hask := exec_hubPush C env w hub w.store.batch
    rw [hrefuse] at hask
    exact hask
  have hpush : exec C env eng.push w =
      (.error (.hub e.toHubError), told eng (.hub e.toHubError) { w with db := db' }) := by
    rw [exec_push hq, hhubs]
    unfold SyncEngine.failover exec
    rw [Fallible.exec_bind_of_ok (Fallible.exec_attempt_of hpushTo)]
    exact exec_notify (by rintro ⟨⟩)
  unfold SyncEngine.sync exec
  exact Fallible.exec_bind_of_error hpush

/-! ## Accepted -/

/-- The hub answers every change of a batch it accepts. -/
theorem length_of_exec_postChanges {batch : List PushChange} {results : List PushResult}
    {db db' : Db} (h : Hub.exec C (Push.postChanges env batch) db = (.ok results, db')) :
    results.length = batch.length := by
  induction batch generalizing results db db' with
  | nil =>
    obtain rfl : ([] : List PushResult) = results := Except.ok.inj (Prod.mk.inj h).1
    rfl
  | cons change batch ih =>
    unfold Push.postChanges at h
    rcases h₁ : Hub.exec C (Push.applyOne env change) db with ⟨e | result, db₁⟩
    · rw [Hub.exec_bind_of_error h₁] at h
      cases h
    rw [Hub.exec_bind_of_ok h₁] at h
    rcases h₂ : Hub.exec C (Push.postChanges env batch) db₁ with ⟨e | rest, db₂⟩
    · rw [Hub.exec_bind_of_error h₂] at h
      cases h
    rw [Hub.exec_bind_of_ok h₂] at h
    obtain rfl : result :: rest = results := Except.ok.inj (Prod.mk.inj h).1
    rw [List.length_cons, List.length_cons, ih h₂]

theorem parses_insert {s : MemStore} (hs : s.Parses) (path : Path) (m : FileMeta) :
    MemStore.Parses { s with blobs := s.blobs.insert (fileKey path) (.fileMeta m) } := by
  intro q b hb
  by_cases hq : q = path
  · subst hq
    rw [AList.lookup_insert] at hb
    exact ⟨m, (Option.some.inj hb).symm⟩
  · rw [AList.lookup_insert_ne (by simpa using hq)] at hb
    exact hs q b hb

/-- Adopting a revision succeeds where the metadata parses. -/
theorem exec_bumpRev (C : Couch) (env : HubEnv) (hw : w.store.Parses) (path : Path) (rev : Option Rev) :
    ∃ s, exec C env (SyncEngine.bumpRev path rev) w = (.ok (), { w with store := s }) ∧
      s.Parses := by
  unfold SyncEngine.bumpRev exec
  rw [Fallible.exec_bind_of_ok (a := w.store.blobs.lookup (fileKey path)) (t := w) rfl]
  cases hb : w.store.blobs.lookup (fileKey path) with
  | none => exact ⟨w.store, rfl, hw⟩
  | some b =>
    obtain ⟨m, rfl⟩ := hw path b hb
    exact ⟨_, rfl, parses_insert hw path { m with rev := rev }⟩

theorem exec_bumpRevs (C : Couch) (env : HubEnv) (hw : w.store.Parses) (l : List (PendingChange × PushResult)) (pushed : ℕ) :
    ∃ n s, exec C env (SyncEngine.bumpRevs l pushed) w = (.ok n, { w with store := s }) := by
  induction l generalizing w pushed with
  | nil => exact ⟨pushed, w.store, rfl⟩
  | cons x l ih =>
    obtain ⟨change, result⟩ := x
    unfold SyncEngine.bumpRevs
    split
    · obtain ⟨s, hs, hparses⟩ := exec_bumpRev C env hw change.path result.rev
      obtain ⟨n, s', hs'⟩ := ih (w := { w with store := s }) hparses (pushed + 1)
      refine ⟨n, s', ?_⟩
      rw [exec, Fallible.exec_bind_of_ok hs]
      exact hs'
    · exact ih hw (pushed + 1)

/-- **A batch the hub accepts leaves the queue empty.** -/
theorem exec_push_of_accepted {hub : HubId} {results : List PushResult} {db' : Db}
    (hhubs : eng.hubs = [hub]) (hq : w.store.pending ≠ []) (hw : w.store.Parses)
    (haccept : Hub.exec C (Push.postChanges env w.store.batch) w.db = (.ok results, db')) :
    ∃ report w', exec C env eng.push w = (.ok report, w') ∧ w'.store.pending = [] := by
  have hask := exec_hubPush C env w hub w.store.batch
  rw [haccept] at hask
  obtain ⟨n, s, hbump⟩ := exec_bumpRevs C env (w := { w with db := db' }) hw
    (w.store.pending.zip results) 0
  have hpushTo : exec C env (SyncEngine.pushTo w.store.pending w.store.batch hub) w =
      (.ok ⟨hub, n⟩, { w with
        store := { s with blobs := s.blobs.insert keyPending (.queue []) }, db := db' }) := by
    unfold SyncEngine.pushTo exec
    rw [Fallible.exec_bind_of_ok hask, Fallible.exec_bind_of_ok hbump,
      if_pos (length_of_exec_postChanges haccept)]
    rfl
  have hpush : exec C env eng.push w = (.ok ⟨hub, n⟩, { w with
      store := { s with blobs := s.blobs.insert keyPending (.queue []) }, db := db' }) := by
    rw [exec_push hq, hhubs]
    unfold SyncEngine.failover exec
    rw [Fallible.exec_bind_of_ok (Fallible.exec_attempt_of hpushTo)]
    rfl
  exact ⟨_, _, hpush, by simp [MemStore.pending, Blob.toQueue?]⟩

/-- A pull leaves the queue as it is. -/
theorem pending_exec_pull : (exec C env eng.pull w).2.store.pending = w.store.pending := by
  refine Prog.All.run_invariant (I := fun w' : World => w'.store.pending = w.store.pending)
    (fun β e he w' hw' => ?_) SyncEngine.keeps_pull rfl
  cases e with
  | metaPut key value =>
    exact (MemStore.exec_pending (s := w'.store) (o := .unreachable) he).trans hw'
  | metaDelete key =>
    exact (MemStore.exec_pending (s := w'.store) (o := .unreachable) he).trans hw'
  | _ => exact hw'

theorem pending_exec_sync_of_accepted {hub : HubId} {results : List PushResult} {db' : Db}
    (hhubs : eng.hubs = [hub]) (hq : w.store.pending ≠ []) (hw : w.store.Parses)
    (haccept : Hub.exec C (Push.postChanges env w.store.batch) w.db = (.ok results, db')) :
    (exec C env eng.sync w).2.store.pending = [] := by
  obtain ⟨report, w', hpush, hw'⟩ := exec_push_of_accepted hhubs hq hw haccept
  unfold SyncEngine.sync exec
  rw [Fallible.exec_bind_of_ok hpush, Fallible.exec_bind]
  have hpull : (exec C env eng.pull w').2.store.pending = [] := pending_exec_pull.trans hw'
  rcases hp : Fallible.exec (World.exec C env) eng.pull w' with ⟨e | pull, w''⟩
  all_goals
    rw [exec, hp] at hpull
    exact hpull

/-! ## Over several syncs -/

/-- One sync after another, the hub's database as each one finds it. -/
def syncs (C : Couch) (env : HubEnv) (eng : SyncEngine) :
    List Db → World → List (Except SyncError SyncReport) × World
  | [], w => ([], w)
  | db :: dbs, w =>
    let r := exec C env eng.sync { w with db := db }
    let rest := syncs C env eng dbs r.2
    (r.1 :: rest.1, rest.2)

/-- While the hub refuses the batch every sync is the one before it again. -/
theorem syncs_of_refused {hub : HubId} {dbs : List Db} (hhubs : eng.hubs = [hub])
    (hq : w.store.pending ≠ [])
    (hrefuse : ∀ db ∈ dbs, ∃ e, (Hub.exec C (Push.postChanges env w.store.batch) db).1 = .error e ∧
      e.status = 409) :
    (∀ r ∈ (syncs C env eng dbs w).1, ∃ message, r = .error (.hub (.api 409 message))) ∧
      (syncs C env eng dbs w).2.store = w.store ∧
      (syncs C env eng dbs w).2.notified.length =
        w.notified.length + (if eng.notifier then dbs.length else 0) := by
  induction dbs generalizing w with
  | nil => exact ⟨by simp [syncs], rfl, by simp [syncs]⟩
  | cons db dbs ih =>
    obtain ⟨e, he, hstatus⟩ := hrefuse db List.mem_cons_self
    have hsync := exec_sync_of_refused (w := { w with db := db }) hhubs hq (Prod.ext he rfl)
    obtain ⟨w', hrun, hstore', hnotified'⟩ : ∃ w', exec C env eng.sync { w with db := db } =
        (.error (.hub e.toHubError), w') ∧ w'.store = w.store ∧
          w'.notified.length = w.notified.length + (if eng.notifier then 1 else 0) := by
      refine ⟨_, hsync, told_store, ?_⟩
      unfold told
      split <;> simp
    obtain ⟨hall, hstore, hnotified⟩ := ih (hstore' ▸ hq)
      (hstore' ▸ fun d hd => hrefuse d (List.mem_cons_of_mem _ hd))
    unfold syncs
    rw [hrun]
    refine ⟨fun r hr => ?_, hstore.trans hstore', ?_⟩
    · rcases List.mem_cons.1 hr with rfl | hr
      · exact ⟨e.message, by rw [ApiError.toHubError, hstatus]⟩
      · exact hall r hr
    · show (syncs C env eng dbs w').2.notified.length = _
      rw [hnotified, hnotified', List.length_cons]
      split <;> omega

/-- **A refused batch stays queued until it is accepted as a whole.** While
the hub refuses it, every sync returns the refusal and reports it once, and
the queue stays as it is; the sync in which the hub accepts it empties the
queue. -/
theorem refused_batch_stays_queued (C : Couch) (env : HubEnv) (eng : SyncEngine) (hub : HubId)
    (w : World) (dbs : List Db) (hhubs : eng.hubs = [hub]) (hq : w.store.pending ≠ [])
    (hw : w.store.Parses)
    (hrefuse : ∀ db ∈ dbs, ∃ e, (Hub.exec C (Push.postChanges env w.store.batch) db).1 = .error e ∧
      e.status = 409) :
    (∀ r ∈ (syncs C env eng dbs w).1, ∃ message, r = .error (.hub (.api 409 message))) ∧
      (syncs C env eng dbs w).2.store.pending = w.store.pending ∧
      (syncs C env eng dbs w).2.notified.length =
        w.notified.length + (if eng.notifier then dbs.length else 0) ∧
      ∀ db results, (Hub.exec C (Push.postChanges env w.store.batch) db).1 = .ok results →
        (exec C env eng.sync { (syncs C env eng dbs w).2 with db := db }).2.store.pending = [] := by
  obtain ⟨hall, hstore, hnotified⟩ := syncs_of_refused hhubs hq hrefuse
  refine ⟨hall, by rw [hstore], hnotified, fun db results haccept => ?_⟩
  -- the batch is the same one still, for the stores are
  rw [← hstore] at hq hw haccept
  exact pending_exec_sync_of_accepted (w := { (syncs C env eng dbs w).2 with db := db }) hhubs hq hw
    (Prod.ext haccept rfl)

/-! ## A queue that is stuck -/

/-- Another device has put a file `a` on the hub. -/
def hubWithA : Db :=
  (Hub.exec (.counting true) (Push.postChanges .plain
    [⟨"a", false, none, 1, some "text/plain", some (.encode [1])⟩]) Db.empty).2

/-- This device, which has never pulled, has recorded the deletion of its
own `a` and a file `b`. -/
def blindDelete : World :=
  (exec (.counting true) .plain (do
    (oneHub true).recordDelete "a" 5
    (oneHub true).recordUpsert "b" 6 "text/plain" [2]) ⟨.empty, [], hubWithA⟩).2

/-- The device, after so many syncs. -/
def afterSyncs : ℕ → World
  | 0 => blindDelete
  | n + 1 => (exec (.counting true) .plain (oneHub true).sync (afterSyncs n)).2

/-- **One refused change holds up the queue**: the hub refuses the delete and
would take the other change alone, and after two syncs both are queued and
nothing has been pulled. -/
theorem refused_change_holds_up_queue :
    (Hub.exec (.counting true) (Push.postChanges .plain
        [blindDelete.store.toPush ⟨"a", true, none, 5, none⟩]) hubWithA).1 =
        .error ⟨409, "cannot apply change to a"⟩ ∧
      (Hub.exec (.counting true) (Push.postChanges .plain
        [blindDelete.store.toPush ⟨"b", false, none, 6, some "text/plain"⟩]) hubWithA).1 =
        .ok [⟨"b", some ⟨2, "xx"⟩⟩] ∧
      blindDelete.store.pending =
        [⟨"a", true, none, 5, none⟩, ⟨"b", false, none, 6, some "text/plain"⟩] ∧
      (afterSyncs 2).store.pending = blindDelete.store.pending ∧
      (afterSyncs 2).store.files.lookup "a" = none ∧
      (afterSyncs 2).store.blobs.lookup (checkpointKey "hub") = none := by
  decide +kernel

/-- **Every store the engine leaves parses.** -/
theorem parses_of_tidy {α : Type} {x : Engine α} (hx : Fallible.All EngineReq.Tidy x)
    (hw : w.store.Parses) : (exec C env x w).2.store.Parses := by
  refine Prog.All.run_invariant (I := fun w' : World => w'.store.Parses)
    (fun β e he w' hw' => ?_) hx hw
  cases e with
  | hubChanges hub since => exact hw'
  | hubGetFile hub path => exact hw'
  | hubPush hub batch => exact hw'
  | notifyError error => exact hw'
  | _ => exact MemStore.parses_exec he hw'

theorem refused_change_stays_queued :
    (∀ r ∈ (syncs (.counting true) .plain (oneHub true) [hubWithA, hubWithA] blindDelete).1,
        ∃ message, r = .error (.hub (.api 409 message))) ∧
      (syncs (.counting true) .plain (oneHub true) [hubWithA, hubWithA] blindDelete).2.store.pending =
        blindDelete.store.pending ∧
      (syncs (.counting true) .plain (oneHub true) [hubWithA, hubWithA] blindDelete).2.notified.length =
        blindDelete.notified.length +
          (if (oneHub true).notifier then [hubWithA, hubWithA].length else 0) ∧
      ∀ db results, (Hub.exec (.counting true)
          (Push.postChanges .plain blindDelete.store.batch) db).1 = .ok results →
        (exec (.counting true) .plain (oneHub true).sync
          { (syncs (.counting true) .plain (oneHub true) [hubWithA, hubWithA] blindDelete).2 with
            db := db }).2.store.pending = [] := by
  have hparses : blindDelete.store.Parses := by
    unfold blindDelete
    exact parses_of_tidy (.bind (SyncEngine.tidy_record (.delete "a" 5)) fun _ =>
      SyncEngine.tidy_record (.upsert "b" 6 "text/plain" [2])) MemStore.parses_empty
  have hrefused : ∀ db ∈ [hubWithA, hubWithA], ∃ e, (Hub.exec (.counting true)
      (Push.postChanges .plain blindDelete.store.batch) db).1 = .error e ∧ e.status = 409 := by
    intro db hdb
    obtain rfl : db = hubWithA := by simpa using hdb
    exact ⟨⟨409, "cannot apply change to a"⟩, by decide +kernel, rfl⟩
  obtain ⟨hfails, hqueue, hnotified, hsent⟩ := refused_batch_stays_queued (.counting true)
    .plain (oneHub true) "hub" blindDelete [hubWithA, hubWithA] rfl (by decide +kernel) hparses hrefused
  refine ⟨hfails, hqueue, hnotified, fun db results haccept => ?_⟩
  have hempty := hsent db results haccept
  -- the two name the last world differently, and are not to be compared by running it
  dsimp only at hempty ⊢
  exact hempty

end RefusedPush

end FileSync
