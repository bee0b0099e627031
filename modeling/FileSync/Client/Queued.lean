import Mathlib.Data.List.Dedup
import FileSync.Client.Device
import FileSync.Client.Faults
/-!
# What happens to a queued change

The queue is one blob: recording replaces the entry of one path, and a push
empties it as a whole. Its bytes are read with a fallback, so bytes that do
not parse would be an empty queue. Here everything that ever left the queue
is written down, with the call that was under way and what the hubs had
answered it.
-/

namespace FileSync

namespace Queued

/-- An operation of the engine, as part of the `nth` call of the device. -/
structure Op (β : Type) where
  nth : ℕ
  call : DeviceCall
  req : EngineReq β

/-- The path of a record call that stores the queue. -/
def Op.records {β : Type} (op : Op β) : Option Path :=
  match op.call with
  | .record call => op.req.storesQueue.map fun _ => call.path
  | _ => none

/-- One call of the device after another, whatever became of the last. -/
def script (eng : SyncEngine) : ℕ → List DeviceCall → Prog Op Unit
  | _, [] => .done ()
  | n, c :: calls =>
    ((c.run eng).run.expand fun _ e => .perform ⟨n, c, e⟩) >>= fun _ => script eng (n + 1) calls

/-- A batch that was sent, and what the hub answered. -/
structure Sent where
  nth : ℕ
  changes : List PushChange
  answer : Except HubError (List PushResult)

/-- An entry that left the queue, the call that was under way, and the queue
without it. -/
structure Left where
  entry : PendingChange
  nth : ℕ
  call : DeviceCall
  after : List PendingChange

structure State where
  store : MemStore
  /-- The paths whose changes were queued, in the order of the record calls. -/
  recorded : List Path
  sent : List Sent
  left : List Left

namespace State

variable (s : State)

/-- What an operation does when it is done. -/
def took {β : Type} (op : Op β) (answers : HubAnswers) : β × State :=
  let r := MemStore.exec op.req answers s.store
  (r.1, {
    store := r.2
    recorded := s.recorded ++ op.records.toList
    sent := match op.req with
      | .hubPush _ changes => s.sent ++ [⟨op.nth, changes, answers.push⟩]
      | _ => s.sent
    left := s.left ++ (s.store.pending.filter (· ∉ r.2.pending)).map fun entry =>
      ⟨entry, op.nth, op.call, r.2.pending⟩ })

end State

/-- What becomes of an operation, and what the hubs answer. -/
structure Chance where
  fate : Fate
  answers : HubAnswers

/-- A put that fails leaves the old value. What comes back from a hub is its
answer, be it an error. -/
def Chance.fateOf (o : Chance) ⦃β : Type⦄ : EngineReq β → Fate
  | .metaPut .. | .filePut .. => if o.fate = .done then .done else .refused
  | .hubPush .. | .hubChanges .. | .hubGetFile .. => .done
  | _ => o.fate

def semantics : Semantics Unit Op Chance Empty State where
  exec _ _ op o s := (o.fateOf op.req).deal op.req (s.took op o.answers) s
  env a := a.elim

def start (eng : SyncEngine) (calls : List DeviceCall) : Config Unit Op Unit State :=
  ⟨fun _ => script eng 0 calls, ⟨.empty, [], [], []⟩⟩

/-! ## When an entry may leave -/

/-- The hub answered success, with a result for each change. -/
def Sent.Accepted (a : Sent) : Prop :=
  ∃ results, a.answer = .ok results ∧ results.length = a.changes.length

/-- A queued change as it is sent. -/
def Carries (change : PushChange) (entry : PendingChange) : Prop :=
  change.path = entry.path ∧ change.deleted = entry.deleted ∧ change.baseRev = entry.baseRev ∧
    change.mtime = entry.mtime

/-- The push that was under way sent the entry to a hub that accepted the
batch. -/
def Left.Pushed (l : Left) (sent : List Sent) : Prop :=
  ∃ a ∈ sent, a.nth = l.nth ∧ a.Accepted ∧ ∃ change ∈ a.changes, Carries change l.entry

/-- A record call for the same path was under way, and what it recorded took
the entry's place. -/
def Left.Replaced (l : Left) : Prop :=
  ∃ call, l.call = .record call ∧ call.path = l.entry.path ∧
    ∃ baseRev, call.change baseRev ∈ l.after

/-- **Nothing queued is dropped.** -/
structure Kept (s : State) : Prop where
  /-- What is stored parses. -/
  formed : ∀ b, s.store.blobs.lookup keyPending = some b → ∃ l, b = .queue l
  /-- No path is queued twice. -/
  unique : (s.store.pending.map PendingChange.path).Nodup
  /-- The queue is in the order of each path's last record call. -/
  ordered : (s.store.pending.map PendingChange.path).Sublist s.recorded.dedup
  left : ∀ l ∈ s.left, l.Replaced ∨ l.Pushed s.sent

variable {eng : SyncEngine} {n : ℕ} {c : DeviceCall} {s s' : State} {α ε : Type}
  {P B : State → Prop} {M : α → State → Prop}

/-! ## What leaves the queue alone -/

/-- The queue is as it was, and a hub may have answered. -/
structure Ahead (s s' : State) : Prop where
  stored : s'.store.blobs.lookup keyPending = s.store.blobs.lookup keyPending
  recorded : s'.recorded = s.recorded
  left : s'.left = s.left
  sent : ∀ a ∈ s.sent, a ∈ s'.sent

theorem Ahead.pending (h : Ahead s s') : s'.store.pending = s.store.pending := by
  simp only [MemStore.pending, h.stored]

/-- What does not change as long as the queue is left alone. -/
def Lasts (P : State → Prop) : Prop := ∀ ⦃s s'⦄, P s → Ahead s s' → P s'

theorem Lasts.and {P' : State → Prop} (h : Lasts P) (h' : Lasts P') : Lasts fun s => P s ∧ P' s :=
  fun _ _ hs ha => ⟨h hs.1 ha, h' hs.2 ha⟩

theorem Left.Pushed.mono {l : Left} {sent sent' : List Sent} (h : l.Pushed sent)
    (hsent : ∀ a ∈ sent, a ∈ sent') : l.Pushed sent' := by
  obtain ⟨a, ha, hl⟩ := h
  exact ⟨a, hsent a ha, hl⟩

theorem lasts_kept : Lasts Kept := fun s s' hs h => by
  have hpending := h.pending
  refine ⟨fun b hb => hs.formed b (h.stored ▸ hb), hpending ▸ hs.unique, ?_, fun l hl => ?_⟩
  · rw [hpending, h.recorded]
    exact hs.ordered
  · rw [h.left] at hl
    exact (hs.left l hl).imp_right fun hpushed => hpushed.mono h.sent

theorem lasts_pending (l : List PendingChange) : Lasts fun s => s.store.pending = l :=
  fun _ _ hs h => h.pending.trans hs

/-- An operation that keeps the queue. -/
theorem ahead_of_keeps {β : Type} {e : EngineReq β} (he : e.KeepsQueue) (answers : HubAnswers) :
    Ahead s (s.took ⟨n, c, e⟩ answers).2 := by
  have hpending : (MemStore.exec e answers s.store).2.pending = s.store.pending :=
    MemStore.exec_pending he
  have hnone : (Op.mk n c e).records = none := by
    unfold Op.records
    split
    · simp only [he.storesQueue, Option.map_none]
    · rfl
  refine ⟨MemStore.exec_lookup_pending he, ?_, ?_, fun a ha => ?_⟩
  · simp [State.took, hnone]
  · simp [State.took, hpending]
  · simp only [State.took]
    split
    · exact List.mem_append_left _ ha
    · exact ha

/-- What an engine's program does as part of the `n`-th call. -/
abbrev OpDoes (n : ℕ) (c : DeviceCall) (P : State → Prop) (x : Engine α) (B : State → Prop)
    (M : α → State → Prop) : Prop :=
  Does semantics .any (.solo Kept) () (fun _ e => .perform ⟨n, c, e⟩) P x (Post B M)

theorem does_pure {b : α} (h : ∀ s, P s → M b s) : OpDoes n c P (pure b : Engine α) B M :=
  Does.pure Contract.solo_stable h

/-- An operation has taken place or it has not. -/
theorem exec_state {β : Type} (op : Op β) (o : Chance) (s : State) :
    (semantics.exec () op o s).2 = s ∨
      (semantics.exec () op o s).2 = (s.took op o.answers).2 :=
  Fate.deal_snd (o.fateOf op.req) op.req (s.took op o.answers) s

/-- An operation that keeps the queue keeps what lasts, done or not. -/
theorem exec_keeps {β : Type} {e : EngineReq β} (he : e.KeepsQueue) (hP : Lasts P) (hs : P s)
    (o : Chance) : P (semantics.exec () (⟨n, c, e⟩ : Op β) o s).2 := by
  rcases exec_state (⟨n, c, e⟩ : Op β) o s with h | h
  · rw [h]
    exact hs
  · rw [h]
    exact hP hs (ahead_of_keeps he o.answers)

theorem triple_keeps {β : Type} {e : EngineReq β} (he : e.KeepsQueue) (hP : Lasts P)
    (hK : ∀ s, P s → Kept s) :
    Triple semantics .any (.solo Kept) () P (.perform (⟨n, c, e⟩ : Op β)) fun _ => P :=
  Triple.perform (fun _ => Contract.solo_stable) fun o s hs _ => by
    have hlater := exec_keeps (n := n) (c := c) he hP hs o
    exact ⟨hK _ hlater, hlater⟩

/-- **Programs that keep the queue** keep what lasts. -/
theorem does_keeps {x : Engine α} (hx : Fallible.All EngineReq.KeepsQueue x) (hP : Lasts P)
    (hK : ∀ s, P s → Kept s) : OpDoes n c P x P fun _ => P :=
  Does.of_all Contract.solo_stable (fun _ _ he => triple_keeps he hP hK) hx

/-- Loading the queue gives what is queued. -/
theorem does_loadPending (hP : Lasts P) (hK : ∀ s, P s → Kept s) :
    OpDoes n c P SyncEngine.loadPending P fun l s => P s ∧ s.store.pending = l := by
  unfold SyncEngine.loadPending
  refine Does.bind (fun v s => P s ∧ s.store.pending = (v.bind Blob.toQueue?).getD [])
    Contract.solo_stable (Does.ask_perform rfl Contract.solo_stable
      (fun _ => Contract.solo_stable) fun o s hs _ => ?_) fun v => ?_
  · have hload : (EngineReq.metaGet keyPending).KeepsQueue := trivial
    have hlater := exec_keeps (n := n) (c := c) hload hP hs o
    refine ⟨hK _ hlater, fun v hv => ⟨hlater, ?_⟩, fun x _ => hlater⟩
    obtain ⟨hv, hstate⟩ := Fate.of_ok ⟨_, rfl⟩ hv
    obtain rfl : s.store.blobs.lookup keyPending = v := by cases hv; rfl
    have hpending := congrArg (fun s' : State => s'.store.pending) hstate
    exact hpending
  · cases v with
    | none => exact does_pure fun _ h => h
    | some bytes => exact does_pure fun _ h => h

/-! ## Storing the queue -/

/-- **Storing a queue**: done, or refused with the old one in place. -/
theorem does_putQueue {l : List PendingChange} (hP : ∀ s, P s → Kept s)
    (hput : ∀ s o, P s → Kept (s.took ⟨n, c, .metaPut keyPending (.queue l)⟩ o).2) :
    OpDoes n c P (SyncEngine.store (.metaPut keyPending (.queue l))) P fun _ => Kept :=
  Does.ask_perform rfl Contract.solo_stable (fun _ => Contract.solo_stable) fun o s hs _ => by
    show Kept ((o.fateOf _).deal _ (s.took _ o.answers) s).2 ∧ _
    have hexec : semantics.exec () (⟨n, c, .metaPut keyPending (.queue l)⟩ : Op _) o s =
        (o.fateOf (.metaPut keyPending (.queue l))).deal (.metaPut keyPending (.queue l))
          (s.took ⟨n, c, .metaPut keyPending (.queue l)⟩ o.answers) s := rfl
    rw [hexec]
    by_cases hfate : o.fate = .done
    · have hdone : o.fateOf (.metaPut keyPending (.queue l)) = .done := if_pos hfate
      rw [hdone]
      exact ⟨hput s _ hs, fun _ _ => hput s _ hs, fun x hx => by cases hx⟩
    · have hrefused : o.fateOf (.metaPut keyPending (.queue l)) = .refused := if_neg hfate
      rw [hrefused]
      exact ⟨hP s hs, fun b hb => (by cases hb), fun _ _ => hs⟩

/-- What storing a queue makes of the queue. -/
theorem took_putQueue (l : List PendingChange) (o : HubAnswers) :
    (s.took ⟨n, c, .metaPut keyPending (.queue l)⟩ o).2.store.pending = l ∧
      (s.took ⟨n, c, .metaPut keyPending (.queue l)⟩ o).2.store.blobs.lookup keyPending =
        some (.queue l) := by
  simp [State.took, MemStore.exec, MemStore.pending, Blob.toQueue?]

/-- What was queued and is not in the new queue has left. -/
theorem mem_left_putQueue {l : List PendingChange} {o : HubAnswers} {x : Left} :
    x ∈ (s.took ⟨n, c, .metaPut keyPending (.queue l)⟩ o).2.left ↔
      x ∈ s.left ∨ ∃ p ∈ s.store.pending, p ∉ l ∧ x = ⟨p, n, c, l⟩ := by
  have hl : (MemStore.exec (.metaPut keyPending (.queue l)) o s.store).2.pending = l :=
    (took_putQueue (n := n) (c := c) (s := s) l o).1
  simp only [State.took, hl, List.mem_append, List.mem_map, List.mem_filter, decide_eq_true_eq]
  constructor
  · rintro (hx | ⟨p, ⟨hp, hnot⟩, rfl⟩)
    exacts [.inl hx, .inr ⟨p, hp, hnot, rfl⟩]
  · rintro (hx | ⟨p, hp, hnot, rfl⟩)
    exacts [.inl hx, .inr ⟨p, ⟨hp, hnot⟩, rfl⟩]

/-! ## Recording -/

/-- Recorded last, a path is the last of all. -/
theorem dedup_append_singleton (paths : List Path) (path : Path) :
    (paths ++ [path]).dedup = paths.dedup.filter (· ≠ path) ++ [path] := by
  induction paths with
  | nil => rfl
  | cons p paths ih =>
    rw [List.cons_append]
    by_cases hmem : p ∈ paths
    · rw [List.dedup_cons_of_mem (List.mem_append_left _ hmem), ih, List.dedup_cons_of_mem hmem]
    rw [List.dedup_cons_of_notMem hmem]
    by_cases hp : p = path
    · subst hp
      rw [List.dedup_cons_of_mem (by simp), ih]
      simp
    · rw [List.dedup_cons_of_notMem (by simp [hmem, hp]), ih]
      simp [hp]

theorem map_enqueue (l : List PendingChange) (change : PendingChange) :
    (SyncEngine.enqueue l change).map PendingChange.path =
      (l.map PendingChange.path).filter (· ≠ change.path) ++ [change.path] := by
  simp only [SyncEngine.enqueue, List.map_append, List.map_cons, List.map_nil, List.filter_map]
  rfl

/-- **A recorded change** takes the place of the path's entry, behind all
others. -/
theorem kept_enqueue {call : LocalCall} {baseRev : Option Rev} (hs : Kept s) (o : HubAnswers) :
    Kept (s.took ⟨n, .record call, .metaPut keyPending
      (.queue (SyncEngine.enqueue s.store.pending (call.change baseRev)))⟩ o).2 := by
  obtain ⟨hpending, hstored⟩ := took_putQueue (s := s) (n := n) (c := .record call)
    (SyncEngine.enqueue s.store.pending (call.change baseRev)) o
  have hpaths := map_enqueue s.store.pending (call.change baseRev)
  rw [LocalCall.change_path] at hpaths
  have hrecorded : (s.took ⟨n, .record call, .metaPut keyPending
      (.queue (SyncEngine.enqueue s.store.pending (call.change baseRev)))⟩ o).2.recorded =
        s.recorded ++ [call.path] := by
    simp [State.took, Op.records, EngineReq.storesQueue]
  have hordered : ((SyncEngine.enqueue s.store.pending (call.change baseRev)).map
      PendingChange.path).Sublist (s.recorded ++ [call.path]).dedup := by
    rw [hpaths, dedup_append_singleton]
    exact (hs.ordered.filter _).append (List.Sublist.refl _)
  refine ⟨fun b hb => ⟨_, Option.some.inj (hb.symm.trans hstored)⟩, ?_, ?_, fun l hl => ?_⟩
  · rw [hpending]
    exact hordered.nodup (List.nodup_dedup _)
  · rw [hpending, hrecorded]
    exact hordered
  rcases mem_left_putQueue.1 hl with hl | ⟨p, hp, hnot, rfl⟩
  · exact (hs.left l hl).imp_right fun h => h.mono fun a ha => ha
  -- what is not in the new queue is an entry of this path
  · have hpath : p.path = call.path := by
      by_contra hne
      exact hnot (SyncEngine.mem_enqueue.2 (.inr ⟨hp, by rwa [LocalCall.change_path]⟩))
    exact .inl ⟨call, rfl, hpath.symm, baseRev, SyncEngine.mem_enqueue.2 (.inl rfl)⟩

/-- **A record call.** -/
theorem does_record (call : LocalCall) :
    OpDoes n (.record call) Kept (call.record eng) Kept fun _ => Kept := by
  have hnotify := fun e => triple_keeps (n := n) (c := .record call) (P := Kept)
    (e := .notifyError e) trivial lasts_kept fun _ h => h
  rw [LocalCall.record_eq]
  refine SyncEngine.does_report Contract.solo_stable (fun _ => Contract.solo_stable) hnotify ?_
  refine Does.bind _ Contract.solo_stable
    (does_keeps (SyncEngine.keeps_knownRev _) lasts_kept fun _ h => h) fun baseRev => ?_
  refine Does.bind _ Contract.solo_stable
    (does_keeps (call.keeps_apply baseRev) lasts_kept fun _ h => h) fun _ => ?_
  refine Does.bind _ Contract.solo_stable (does_loadPending lasts_kept fun _ h => h) fun l => ?_
  refine Does.mono (does_putQueue (fun _ h => h.1) fun s o hs => ?_) (fun _ h => h.1)
    fun _ _ h => h
  obtain ⟨hs, rfl⟩ := hs
  exact kept_enqueue hs o

/-! ## Pushing -/

/-- The queue is the one the push has loaded. -/
def Loaded (pending : List PendingChange) (s : State) : Prop :=
  Kept s ∧ s.store.pending = pending

theorem lasts_loaded (pending : List PendingChange) : Lasts (Loaded pending) :=
  lasts_kept.and (lasts_pending pending)

theorem loaded_kept {pending : List PendingChange} : ∀ s, Loaded pending s → Kept s :=
  fun _ h => h.1

theorem does_buildPushChange {pending : List PendingChange} (p : PendingChange) :
    OpDoes n c (Loaded pending) (SyncEngine.buildPushChange p) (Loaded pending)
      fun change s => Loaded pending s ∧ Carries change p := by
  unfold SyncEngine.buildPushChange
  split
  · rename_i hdel
    exact does_pure fun s hs => ⟨hs, rfl, hdel.symm, rfl, rfl⟩
  rename_i hdel
  refine Does.bind _ Contract.solo_stable (does_keeps (SyncEngine.all_store trivial)
    (lasts_loaded pending) loaded_kept) fun _ => ?_
  refine Does.bind _ Contract.solo_stable (does_keeps (SyncEngine.all_store trivial)
    (lasts_loaded pending) loaded_kept) fun _ => ?_
  exact does_pure fun s hs => ⟨hs, rfl, by simpa using hdel, rfl, rfl⟩

/-- Every one of the entries is in the batch. -/
def Covers (changes : List PushChange) (entries : List PendingChange) : Prop :=
  ∀ p ∈ entries, ∃ change ∈ changes, Carries change p

/-- **Every queued change is in the batch.** -/
theorem does_buildPushChanges {pending : List PendingChange} (ps : List PendingChange) :
    OpDoes n c (Loaded pending) (SyncEngine.buildPushChanges ps) (Loaded pending)
      fun changes s => Loaded pending s ∧ Covers changes ps := by
  induction ps with
  | nil => exact does_pure fun s hs => ⟨hs, fun p hp => by cases hp⟩
  | cons p ps ih =>
    refine Does.bind _ Contract.solo_stable (does_buildPushChange p) fun change => ?_
    refine Triple.of_pure (φ := Carries change p) (fun _ h => h.2) fun hcarries => ?_
    refine Does.bind _ Contract.solo_stable (ih.pre fun _ h => h.1) fun changes => ?_
    refine does_pure fun s hs => ⟨hs.1, fun q hq => ?_⟩
    rcases List.mem_cons.1 hq with rfl | hq
    · exact ⟨change, List.mem_cons_self, hcarries⟩
    · obtain ⟨other, hother, hq⟩ := hs.2 q hq
      exact ⟨other, List.mem_cons_of_mem _ hother, hq⟩

/-- **Emptying the queue** after a hub has accepted the batch. -/
theorem kept_clear {changes : List PushChange} {results : List PushResult} (hs : Kept s)
    (hsent : ⟨n, changes, .ok results⟩ ∈ s.sent) (hlen : results.length = changes.length)
    (hall : Covers changes s.store.pending) (o : HubAnswers) :
    Kept (s.took ⟨n, c, .metaPut keyPending (.queue [])⟩ o).2 := by
  obtain ⟨hpending, hstored⟩ := took_putQueue (s := s) (n := n) (c := c) [] o
  refine ⟨fun b hb => ⟨_, Option.some.inj (hb.symm.trans hstored)⟩, ?_, ?_, fun l hl => ?_⟩
  · rw [hpending]
    exact List.nodup_nil
  · rw [hpending]
    exact List.nil_sublist _
  rcases mem_left_putQueue.1 hl with hl | ⟨p, hp, -, rfl⟩
  · exact (hs.left l hl).imp_right fun h => h.mono fun a ha => ha
  · exact .inr ⟨_, hsent, rfl, ⟨results, rfl, hlen⟩, hall p hp⟩

/-- What a push sends. -/
def Ready (changes : List PushChange) (s : State) : Prop :=
  Kept s ∧ Covers changes s.store.pending

theorem lasts_ready {changes : List PushChange} : Lasts (Ready changes) :=
  lasts_kept.and fun s s' hs h => by rw [h.pending]; exact hs

theorem ready_kept {changes : List PushChange} : ∀ s, Ready changes s → Kept s :=
  fun _ h => h.1

/-- **Sending a batch**: an answer the engine gets is one the hub gave. -/
theorem does_hubPush {changes : List PushChange} (hub : HubId) :
    OpDoes n c (Ready changes) (SyncEngine.ask (.hubPush hub changes)) (Ready changes)
      fun results s => Ready changes s ∧ ⟨n, changes, .ok results⟩ ∈ s.sent := by
  refine Does.ask_perform rfl Contract.solo_stable (fun _ => Contract.solo_stable)
    fun o s hs _ => ?_
  have hkeep : (EngineReq.hubPush hub changes).KeepsQueue := trivial
  have hlater := exec_keeps (n := n) (c := c) hkeep lasts_ready hs o
  refine ⟨ready_kept _ hlater, fun results hresults => ⟨hlater, ?_⟩, fun _ _ => hlater⟩
  have hanswer : o.answers.push = .ok results := hresults
  have hsent : (semantics.exec () (⟨n, c, .hubPush hub changes⟩ : Op _) o s).2.sent =
      s.sent ++ [⟨n, changes, o.answers.push⟩] := rfl
  rw [hsent, hanswer]
  exact List.mem_append_right _ List.mem_cons_self

/-- **One hub**: the queue is emptied on a full answer only, and a failure
leaves what was to be sent. -/
theorem does_pushTo {pending : List PendingChange} {changes : List PushChange} (hub : HubId) :
    OpDoes n c (Ready changes) (SyncEngine.pushTo pending changes hub) (Ready changes)
      fun _ => Kept := by
  refine Does.bind _ Contract.solo_stable (does_hubPush hub) fun results => ?_
  have hanswered : Lasts fun s => Ready changes s ∧ ⟨n, changes, .ok results⟩ ∈ s.sent :=
    lasts_ready.and fun s s' hs h => h.sent _ hs
  refine Does.bind _ Contract.solo_stable (Does.mono (does_keeps (SyncEngine.keeps_bumpRevs _ _)
    hanswered fun _ h => h.1.1) (fun _ h => h.1) fun _ _ h => h) fun pushed => ?_
  dsimp only
  split
  · rename_i hlen
    refine Does.bind (fun _ => Kept) Contract.solo_stable (Does.mono (does_putQueue
      (fun _ h => h.1.1) fun s o hs => ?_) (fun _ h => h.1) fun _ _ h => h)
        fun _ => does_pure fun _ h => h
    obtain ⟨⟨hkept, hcovers⟩, hsent⟩ := hs
    exact kept_clear hkept hsent hlen hcovers o
  · exact does_pure fun _ h => h.1.1

/-- **A push.** -/
theorem does_push : OpDoes n c Kept eng.push Kept fun _ => Kept := by
  have hnotify : ∀ {P : State → Prop}, Lasts P → (∀ s, P s → Kept s) → ∀ e,
      Triple semantics .any (.solo Kept) () P
        (.perform (⟨n, c, .notifyError e⟩ : Op Unit)) fun _ => P := fun hP hK e =>
    triple_keeps (e := .notifyError e) trivial hP hK
  refine Does.bind _ Contract.solo_stable (SyncEngine.does_report Contract.solo_stable
    (fun _ => Contract.solo_stable) (hnotify lasts_kept fun _ h => h)
      (does_loadPending lasts_kept fun _ h => h)) fun pending => ?_
  split
  · exact does_pure fun s hs => hs.1
  have hbuild : OpDoes n c (Loaded pending) (SyncEngine.buildPushChanges pending) Kept
      fun changes => Ready changes := by
    refine Does.mono (does_buildPushChanges pending) loaded_kept fun changes s hs => ?_
    obtain ⟨⟨hkept, rfl⟩, hcovers⟩ := hs
    exact ⟨hkept, hcovers⟩
  refine Does.bind _ Contract.solo_stable (SyncEngine.does_report Contract.solo_stable
    (fun _ => Contract.solo_stable) (hnotify lasts_kept fun _ h => h) hbuild) fun changes => ?_
  exact Does.mono (SyncEngine.does_failover Contract.solo_stable
    (fun _ => Contract.solo_stable) (hnotify lasts_ready ready_kept)
    (fun hub => does_pushTo hub) _ _) ready_kept fun _ _ h => h

/-! ## Calls one after another -/

theorem does_pull : OpDoes n c Kept eng.pull Kept fun _ => Kept :=
  does_keeps SyncEngine.keeps_pull lasts_kept fun _ h => h

theorem does_run : OpDoes n c Kept (c.run eng) Kept fun _ => Kept := by
  cases c with
  | record call => exact does_record call
  | push => exact Does.bind _ Contract.solo_stable does_push fun _ => does_pure fun _ h => h
  | pull => exact Does.bind _ Contract.solo_stable does_pull fun _ => does_pure fun _ h => h
  | sync =>
    have hsync : OpDoes n .sync Kept eng.sync Kept fun _ => Kept :=
      Does.bind _ Contract.solo_stable does_push fun _ =>
        Does.bind _ Contract.solo_stable does_pull fun _ => does_pure fun _ h => h
    exact Does.bind _ Contract.solo_stable hsync fun _ => does_pure fun _ h => h

theorem triple_script (n : ℕ) (calls : List DeviceCall) :
    Triple semantics .any (.solo Kept) () Kept (script eng n calls) fun _ => Kept := by
  induction calls generalizing n with
  | nil => exact Triple.done Contract.solo_stable fun _ h => h
  | cons c calls ih =>
    exact Triple.bind (fun _ => Kept) (Triple.post does_run fun r s hs => by
      cases r <;> exact hs) fun _ => ih (n + 1)

/-- **A rejected push is never dropped.** Wherever a run of calls stands,
whatever failed and whatever the hubs answered: an entry has left the queue
only in a record call for its path, which put its own in the entry's place,
or in a push that sent it to a hub that answered success with as many
results as changes; no path is queued twice, and the queue is in the order
of the last record call for each path. -/
theorem queue_kept (eng : SyncEngine) (calls : List DeviceCall)
    (ms : List (Move Unit Chance Empty)) : Kept ((start eng calls).runs semantics ms).state := by
  have hempty : Kept (start eng calls).state :=
    ⟨fun b hb => by simp [start, MemStore.empty] at hb, List.nodup_nil, List.nil_sublist _,
      fun l hl => absurd hl List.not_mem_nil⟩
  exact PoolSafe.solo_invariant (triple_script 0 calls) hempty hempty (Config.meets_any ms _)

/-- A short answer leaves both entries queued, a full one takes them. -/
example :
    let answers : HubAnswers := ⟨.error (.transport ""), .ok none, .ok [⟨"b", none⟩]⟩
    let calls : List DeviceCall := [.record (.delete "a" 1), .record (.delete "b" 2),
      .record (.delete "a" 3), .push]
    let c := (start (oneHub false) calls).runs semantics
      (List.replicate 20 (.run () ⟨.done, answers⟩))
    c.state.store.pending.map PendingChange.path = ["b", "a"] ∧
      c.state.left.map (fun l => l.entry.mtime) = [1] := by
  decide +kernel

end Queued

end FileSync
