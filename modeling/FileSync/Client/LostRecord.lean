import FileSync.Client.Calls
import Mathlib.Data.Fintype.Option
/-!
# Recording while a push is under way

One push and any number of record calls share the stores. The state carries
what a statement about lost changes needs besides them: the changes recorded
since the push loaded the queue, and for each record call those recorded
since it loaded the queue itself.

The queue is written back whole by whoever loaded it, so a change is safe
as long as nobody writes back a queue loaded before it: neither the push,
which empties it, nor another record call.
-/

namespace FileSync

namespace LostRecord

/-- The last of the changes for its path. -/
def LastFor (c : PendingChange) (l : List PendingChange) : Prop :=
  ∃ before after, l = before ++ c :: after ∧ ∀ d ∈ after, d.path ≠ c.path

theorem not_lastFor_nil (c : PendingChange) : ¬ LastFor c [] := by
  rintro ⟨before, after, h, -⟩
  simp at h

/-- One change more is the last for its path and replaces those before. -/
theorem lastFor_append {c d : PendingChange} {l : List PendingChange}
    (h : LastFor c (l ++ [d])) : c = d ∨ LastFor c l ∧ d.path ≠ c.path := by
  obtain ⟨before, after, heq, hafter⟩ := h
  rcases List.eq_nil_or_concat after with rfl | ⟨after, e, rfl⟩
  · obtain ⟨-, hcd⟩ := List.append_inj' heq rfl
    exact .inl (List.head_eq_of_cons_eq hcd).symm
  · rw [List.concat_eq_append, ← List.cons_append, ← List.append_assoc] at heq
    obtain ⟨hl, hde⟩ := List.append_inj' heq rfl
    obtain rfl := List.head_eq_of_cons_eq hde
    refine .inr ⟨⟨before, after, hl, fun x hx => hafter x ?_⟩, hafter d ?_⟩ <;>
      simp [List.concat_eq_append, *]

variable {ι : Type}

/-- The stores, and what has been recorded since when. -/
structure State (ι : Type) where
  store : MemStore
  /-- The push has loaded the queue. -/
  loaded : Bool
  /-- The changes recorded since then, oldest first. -/
  recorded : List PendingChange
  /-- Of those, the ones recorded since a record call loaded the queue. -/
  since : ι → List PendingChange

/-- Who makes a call: the push, or one of the record calls. -/
abbrev Who (ι : Type) := Option ι

/-- The change a written queue ends in. -/
def newest (value : Blob) : Option PendingChange := value.toQueue?.bind List.getLast?

/-- Enter a change into the books. -/
def State.enter (s : State ι) (c : PendingChange) : State ι :=
  if s.loaded then
    { s with recorded := s.recorded ++ [c], since := fun j => s.since j ++ [c] }
  else s

variable [DecidableEq ι]

/-- What a call is noted as. The push's load opens the books; a record call
that writes the queue has recorded the change it ends in. -/
def State.note ⦃β : Type⦄ (s : State ι) (who : Who ι) (e : EngineReq β) : State ι :=
  match who with
  | none => if e.loadsQueue then { s with loaded := true, recorded := [], since := fun _ => [] } else s
  | some i =>
    if e.loadsQueue then { s with since := Function.update s.since i [] }
    else (e.storesQueue.bind newest).elim s s.enter

/-- The stores never fail, the hubs answer anything. -/
def semantics : Semantics (Who ι) EngineReq HubAnswers Empty (State ι) where
  exec who _ e o s :=
    ((MemStore.exec e o s.store).1, { s with store := (MemStore.exec e o s.store).2 }.note who e)
  env a _ := a.elim

/-- **When nothing is lost.** The push empties the queue only if no change
has been recorded since it loaded it, and a record call writes the queue
only if every change recorded since it loaded it is for its own path. -/
def NoneInBetween (calls : ι → LocalCall) :
    StepCond (Who ι) EngineReq HubAnswers Empty (State ι) where
  call who _ e _ s := e.storesQueue.isSome →
    match who with
    | none => s.recorded = []
    | some i => ∀ c ∈ s.since i, c.path = (calls i).path
  env a _ := a.elim

instance (calls : ι → LocalCall) (who : Who ι) (β : Type) (e : EngineReq β) (o : HubAnswers)
    (s : State ι) : Decidable ((NoneInBetween calls).call who e o s) :=
  match who with
  | none => inferInstanceAs (Decidable (_ → s.recorded = []))
  | some i => inferInstanceAs (Decidable (_ → ∀ c ∈ s.since i, c.path = (calls i).path))

instance (calls : ι → LocalCall) (a : Empty) (s : State ι) :
    Decidable ((NoneInBetween calls).env a s) := a.elim

/-- One push and the record calls, all about to start. -/
def start (eng : SyncEngine) (calls : ι → LocalCall) (store : MemStore) :
    Config (Who ι) EngineReq (Except SyncError Unit) (State ι) where
  task
    | none => (eng.push >>= fun _ => pure () : Engine Unit).run
    | some i => ((calls i).record eng).run
  state := ⟨store, false, [], fun _ => []⟩

/-- **No recorded change is lost**: every change recorded since the push
loaded the queue is in the queue, unless a later one for its path is
recorded too. -/
def Kept (s : State ι) : Prop :=
  s.loaded = true → ∀ c, LastFor c s.recorded → c ∈ s.store.pending

/-! ## What each call does to the books -/

variable {calls : ι → LocalCall} {s s' : State ι} {who : Who ι} {β : Type} {e : EngineReq β}
  {o : HubAnswers}

/-- What record call `j` sees of another's step: nothing, one change more,
or the books opened. -/
def Later (j : ι) (s s' : State ι) : Prop :=
  (s'.loaded = s.loaded ∧ s'.recorded = s.recorded ∧ s'.since j = s.since j) ∨
    (∃ c, s'.loaded = s.loaded ∧ s'.recorded = s.recorded ++ [c] ∧
      s'.since j = s.since j ++ [c]) ∨ s'.recorded = []

/-- What the calls promise each other: no recorded change is lost, and the
books are kept. -/
def contract : Contract (Who ι) (State ι) where
  rely who s s' := (Kept s → Kept s') ∧ ∀ j, who = some j → Later j s s'
  guar who s s' := (Kept s → Kept s') ∧ ∀ j, who ≠ some j → Later j s s'

theorem fits : (contract (ι := ι)).Fits semantics (NoneInBetween calls) where
  guar_rely _ _ hij _ _ h := ⟨h.1, fun j hj => h.2 j fun hi => hij (hi.trans hj.symm)⟩
  env_rely _ a := a.elim

omit [DecidableEq ι] in
theorem stable_kept : (contract (ι := ι)).Stable who Kept := fun _ _ hs h => h.1 hs

omit [DecidableEq ι] in
/-- Entering a change adds it to both books or to none. -/
theorem later_enter (c : PendingChange) (j : ι) : Later j s (s.enter c) := by
  unfold State.enter
  split
  exacts [.inr (.inl ⟨c, rfl, rfl, rfl⟩), .inl ⟨rfl, rfl, rfl⟩]

omit [DecidableEq ι] in
theorem mem_queue {c : PendingChange} {key : String} {l : List PendingChange} {s : MemStore}
    {o : HubAnswers} (hkey : key = keyPending) :
    c ∈ (MemStore.exec (.metaPut key (.queue l)) o s).2.pending ↔ c ∈ l := by
  subst hkey
  simp [MemStore.exec, MemStore.pending, Blob.toQueue?]

omit [DecidableEq ι] in
@[simp] theorem enter_store (c : PendingChange) : (s.enter c).store = s.store := by
  unfold State.enter
  split <;> rfl

omit [DecidableEq ι] in
@[simp] theorem enter_loaded (c : PendingChange) : (s.enter c).loaded = s.loaded := by
  unfold State.enter
  split <;> rfl

omit [DecidableEq ι] in
/-- The last change for its path, after one was entered. -/
theorem recorded_enter {c d : PendingChange} (hl : s.loaded = true)
    (h : LastFor d (s.enter c).recorded) : d = c ∨ LastFor d s.recorded ∧ c.path ≠ d.path := by
  rw [State.enter, if_pos hl] at h
  exact lastFor_append h

/-- A call of the push keeps the promise where the condition holds: when it
empties the queue there is nothing to lose. -/
theorem guar_push (hclears : e.ClearsQueue) (hcond : (NoneInBetween calls).call none e o s) :
    contract.guar none s (semantics.exec none e o s).2 := by
  by_cases hload : e.loadsQueue = true
  · have hrec : (semantics.exec none e o s).2.recorded = [] := by
      simp [semantics, State.note, hload]
    refine ⟨fun _ _ c hc => ?_, fun j _ => .inr (.inr hrec)⟩
    rw [hrec] at hc
    exact absurd hc (not_lastFor_nil c)
  · have hnote : (semantics.exec none e o s).2 =
        { s with store := (MemStore.exec e o s.store).2 } := by
      simp [semantics, State.note, hload]
    rw [hnote]
    refine ⟨fun hs hl c hc => ?_, fun j _ => .inl ⟨rfl, rfl, rfl⟩⟩
    rcases hclears with hkeeps | hput
    · show c ∈ (MemStore.exec e o s.store).2.pending
      rw [MemStore.exec_pending hkeeps]
      exact hs hl c hc
    · rw [hcond (by rw [hput]; rfl)] at hc
      exact absurd hc (not_lastFor_nil c)

/-- So does a call of a record operation that leaves the queue alone. -/
theorem guar_record {i : ι} (hkeeps : e.KeepsQueue) :
    contract.guar (some i) s (semantics.exec (some i) e o s).2 := by
  obtain ⟨since, hnote, hsince⟩ : ∃ since, (semantics.exec (some i) e o s).2 =
      { s with store := (MemStore.exec e o s.store).2, since := since } ∧
        ∀ j, some i ≠ some j → since j = s.since j := by
    by_cases hload : e.loadsQueue = true
    · refine ⟨Function.update s.since i [], by simp [semantics, State.note, hload], fun j hj => ?_⟩
      exact Function.update_of_ne (fun h => hj (congrArg some h.symm)) _ _
    · exact ⟨s.since, by simp [semantics, State.note, hload, hkeeps.storesQueue], fun _ _ => rfl⟩
  rw [hnote]
  refine ⟨fun hs hl c hc => ?_, fun j hj => .inl ⟨rfl, rfl, hsince j hj⟩⟩
  show c ∈ (MemStore.exec e o s.store).2.pending
  rw [MemStore.exec_pending hkeeps]
  exact hs hl c hc

/-! ## The queue a record call holds -/

/-- A record call has loaded `pending`: what it does not hold of the
recorded changes has been recorded since. -/
def Holds (i : ι) (pending : List PendingChange) (s : State ι) : Prop :=
  s.loaded = true → ∀ c, LastFor c s.recorded → c ∈ s.since i ∨ c ∈ pending

omit [DecidableEq ι] in
theorem stable_holds (i : ι) (pending : List PendingChange) :
    (contract (ι := ι)).Stable (some i) fun s => Kept s ∧ Holds i pending s := by
  rintro s s' ⟨hkept, hholds⟩ ⟨hkeep, hlater⟩
  refine ⟨hkeep hkept, fun hl c hc => ?_⟩
  rcases hlater i rfl with ⟨hloaded, hrec, hsince⟩ | ⟨d, hloaded, hrec, hsince⟩ | hrec
  · rw [hrec] at hc
    rw [hsince]
    exact hholds (hloaded ▸ hl) c hc
  · rw [hrec] at hc
    rw [hsince]
    rcases lastFor_append hc with rfl | ⟨hc, -⟩
    · exact .inl (by simp)
    · exact (hholds (hloaded ▸ hl) c hc).imp_left fun h => List.mem_append_left _ h
  · rw [hrec] at hc
    exact absurd hc (not_lastFor_nil c)

omit [DecidableEq ι] in
theorem stable_loaded (i : ι) {ε : Type} (r : Except ε (List PendingChange)) :
    (contract (ι := ι)).Stable (some i) fun s =>
      Kept s ∧ ∀ pending, r = .ok pending → Holds i pending s :=
  fun _ _ hs h => ⟨h.1 hs.1, fun pending hr => (stable_holds i pending ⟨hs.1, hs.2 pending hr⟩ h).2⟩

/-- Loading the queue: it holds every recorded change there is. -/
theorem triple_loadPending (i : ι) :
    Triple semantics (NoneInBetween calls) contract (some i) Kept SyncEngine.loadPending.run
      fun r s => Kept s ∧ ∀ pending, r = .ok pending → Holds i pending s := by
  have hload : Triple semantics (NoneInBetween calls) contract (some i) Kept
      (SyncEngine.store (.metaGet keyPending)).run fun r s => Kept s ∧ ∀ pending,
        r.map (fun v => (v.bind Blob.toQueue?).getD []) = .ok pending → Holds i pending s := by
    refine Triple.ask (fun r => stable_loaded i _) fun o s hs _ => ?_
    have hg : contract.guar (some i) s
        (semantics.exec (some i) (.metaGet keyPending) o s).2 := guar_record trivial
    refine ⟨hg, hg.1 hs, fun pending hr hl c hc => .inr ?_⟩
    obtain rfl : s.store.pending = pending := Except.ok.inj hr
    exact hs (by simpa [semantics, State.note, EngineReq.loadsQueue] using hl) c
      (by simpa [semantics, State.note, EngineReq.loadsQueue] using hc)
  unfold SyncEngine.loadPending
  refine Triple.bindE _ hload (fun v => ?_) (fun e => stable_loaded i _)
    fun e s hs => ⟨hs.1, fun _ h => by cases h⟩
  rcases v with _ | bytes
  all_goals
    exact Triple.done (stable_loaded i _) fun s hs => ⟨hs.1, fun pending hr => hs.2 pending hr⟩

/-- **Writing the queue back.** The condition says that nothing of another
path has come in between, and what came in of the same path is replaced. -/
theorem triple_upsertPending (i : ι) (c : PendingChange) (hpath : c.path = (calls i).path) :
    Triple semantics (NoneInBetween calls) contract (some i) Kept
      (SyncEngine.upsertPending c).run fun _ => Kept := by
  unfold SyncEngine.upsertPending
  refine Triple.bindE _ (triple_loadPending i) (fun pending => ?_) (fun e => stable_loaded i _)
    fun e s hs => hs.1
  refine Triple.ask (fun _ => stable_kept) fun o s ⟨hs, hholds⟩ hcond => ?_
  have hnote : (semantics.exec (some i)
      (.metaPut keyPending (.queue (SyncEngine.enqueue pending c))) o s).2 =
        { s with store := (MemStore.exec (.metaPut keyPending
          (.queue (SyncEngine.enqueue pending c))) o s.store).2 }.enter c := by
    simp [semantics, State.note, EngineReq.loadsQueue, EngineReq.storesQueue, newest,
      Blob.toQueue?, SyncEngine.enqueue]
  have hsame : ∀ d ∈ s.since i, d.path = c.path := fun d hd =>
    (hcond (by simp [EngineReq.storesQueue]) d hd).trans hpath.symm
  rw [hnote]
  have hkept : Kept ({ s with store := (MemStore.exec (.metaPut keyPending
      (.queue (SyncEngine.enqueue pending c))) o s.store).2 }.enter c) := by
    intro hl d hd
    rw [enter_loaded] at hl
    rw [enter_store, mem_queue rfl]
    rcases recorded_enter hl hd with rfl | ⟨hd, hne⟩
    · exact SyncEngine.mem_enqueue.2 (.inl rfl)
    · refine SyncEngine.mem_enqueue.2 (.inr ⟨?_, hne.symm⟩)
      exact (hholds pending rfl hl d hd).resolve_left fun h => hne (hsame d h).symm
  exact ⟨⟨fun _ => hkept, fun j _ => later_enter c j⟩, hkept⟩

/-- A program that leaves the queue alone. -/
theorem triple_keeps {i : ι} {α : Type} {x : Engine α}
    (hx : Fallible.All EngineReq.KeepsQueue x) :
    Triple semantics (NoneInBetween calls) contract (some i) Kept x.run fun _ => Kept :=
  Triple.of_all stable_kept
    (fun _ _ he o _ hs _ => ⟨guar_record he, (guar_record (o := o) he).1 hs⟩) hx

/-- **A record call loses nothing that was recorded.** -/
theorem triple_record (eng : SyncEngine) (i : ι) :
    Triple semantics (NoneInBetween calls) contract (some i) Kept
      ((calls i).record eng).run fun _ => Kept := by
  rw [LocalCall.record_eq]
  refine Triple.bindE (fun _ => Kept) ?_ (fun r => ?_) (fun _ => stable_kept) fun _ _ hs => hs
  · refine Triple.bind (fun _ => Kept) ?_ fun r => Triple.done stable_kept fun _ hs => hs
    refine Triple.bindE _ (triple_keeps (SyncEngine.keeps_knownRev _)) (fun baseRev => ?_)
      (fun _ => stable_kept) fun _ _ hs => hs
    refine Triple.bindE _ (triple_keeps (LocalCall.keeps_apply _ _)) (fun _ => ?_)
      (fun _ => stable_kept) fun _ _ hs => hs
    exact triple_upsertPending i _ (LocalCall.change_path _ _)
  · cases r with
    | ok a => exact Triple.done stable_kept fun _ hs => hs
    | error e => exact triple_keeps (SyncEngine.all_notify (fun _ => trivial) e)

theorem triple_push (eng : SyncEngine) :
    Triple semantics (NoneInBetween calls) contract none Kept
      (eng.push >>= fun _ => pure () : Engine Unit).run fun _ => Kept :=
  Triple.of_all stable_kept
    (fun _ _ he _ _ hs hcond => ⟨guar_push he hcond, (guar_push he hcond).1 hs⟩)
    (Fallible.All.bind SyncEngine.clears_push fun _ => Fallible.all_pure _)

/-- **No change recorded during a push is lost**, in any run in which the
queue is never written back over a change recorded since it was loaded. -/
theorem recorded_changes_kept (eng : SyncEngine) (calls : ι → LocalCall) (store : MemStore)
    (ms : List (Move (Who ι) HubAnswers Empty))
    (h : (start eng calls store).Meets semantics (NoneInBetween calls) ms) :
    Kept ((start eng calls store).runs semantics ms).state := by
  have hstart : Kept (start eng calls store).state := fun hl => by cases hl
  refine PoolSafe.invariant (Q := fun _ _ => Kept) fits (fun _ _ _ hg => hg.1)
    (fun a => a.elim) (PoolSafe.init (fun _ => stable_kept) (fun _ => hstart) ?_) h hstart
  rintro (_ | i)
  exacts [triple_push eng, triple_record eng i]

/-! ## A run that loses a change -/

def twoUpserts : Bool → LocalCall
  | false => .upsert "a" 1 "text/plain" [1]
  | true => .upsert "b" 2 "text/plain" [2]

def acknowledgesA : HubAnswers :=
  { HubAnswers.unreachable with push := .ok [⟨"a", some ⟨1, "x"⟩⟩] }

/-- Record `a`; push up to the hub's answer; record `b`; finish the push. -/
def recordDuringPush : List (Move (Who Bool) HubAnswers Empty) :=
  List.replicate 5 (.run (some false) .unreachable) ++ List.replicate 4 (.run none acknowledgesA) ++
    List.replicate 5 (.run (some true) .unreachable) ++ List.replicate 3 (.run none .unreachable)

/-- **A change recorded while the push waits for the hub is lost**: all
three calls succeed, and the queue is empty. -/
theorem change_recorded_during_push_lost :
    let c := (start (oneHub false) twoUpserts MemStore.empty).runs semantics recordDuringPush
    (∀ who, (c.task who).result? = some (.ok ())) ∧
      c.state.recorded = [⟨"b", false, none, 2, some "text/plain"⟩] ∧
      c.state.store.pending = [] := by
  decide +kernel

/-- Record `a`; push it; record `b`. -/
def recordAfterPush : List (Move (Who Bool) HubAnswers Empty) :=
  List.replicate 5 (.run (some false) .unreachable) ++ List.replicate 7 (.run none acknowledgesA) ++
    List.replicate 5 (.run (some true) .unreachable)

theorem change_recorded_after_push_kept :
    Kept ((start (oneHub false) twoUpserts MemStore.empty).runs semantics recordAfterPush).state :=
  recorded_changes_kept (oneHub false) twoUpserts MemStore.empty recordAfterPush (by decide +kernel)

end LostRecord

end FileSync
