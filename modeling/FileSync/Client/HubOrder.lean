import FileSync.Client.Calls
/-!
# Hubs in order, failures reported once

The engine runs against stores and hubs that answer as they like, and what it
asks of a hub or tells the notifier is written down. Hubs are tried in the
order they are listed, the next one only after a hub's failure; whoever gets
an error back, the notifier has been told it, once.
-/

namespace FileSync

namespace HubOrder

open SyncEngine Fallible

/-! ## What is written down -/

inductive Event
  | contacted (hub : HubId)
  | notified (error : SyncError)
deriving DecidableEq, Repr

/-- A request to a hub, or a word to the notifier. -/
def event? : ∀ ⦃β : Type⦄, EngineReq β → Option Event
  | _, .hubChanges hub _ => some (.contacted hub)
  | _, .hubGetFile hub _ => some (.contacted hub)
  | _, .hubPush hub _ => some (.contacted hub)
  | _, .notifyError error => some (.notified error)
  | _, _ => none

def Event.isNotice : Event → Bool
  | contacted _ => false
  | notified _ => true

variable {σ α β : Type}

/-- Stores and hubs that answer as `h` says, with a record of the events. -/
def recorded (h : Prog.Handler EngineReq σ) : Prog.Handler EngineReq (σ × List Event) :=
  fun _ e s => ((h e s.1).1, ((h e s.1).2, s.2 ++ (event? e).toList))

/-- The engine's program, run so. -/
abbrev run (h : Prog.Handler EngineReq σ) (x : Engine α) (s : σ × List Event) :
    Except SyncError α × (σ × List Event) := exec (recorded h) x s

/-- What the notifier is told about a result. A panic is no result. -/
def notices (eng : SyncEngine) : Except SyncError α → List Event
  | .ok _ => []
  | .error e => if eng.notifier && e ≠ .panic then [.notified e] else []

/-! ## Trying hubs in order -/

section Tries

variable (h : Prog.Handler EngineReq σ) (attempt : HubId → Engine α) (hubs : List HubId)
  (s : σ × List Event)

/-- The state once the first `k` hubs have been tried. -/
def tried (k : ℕ) : σ × List Event :=
  (hubs.take k).foldl (fun s hub => (run h (attempt hub) s).2) s

/-- What trying the `k`-th hub gives, the ones before it having been tried. -/
def outcome (k : ℕ) : Option (Except SyncError α) :=
  hubs[k]?.map fun hub => (run h (attempt hub) (tried h attempt hubs s k)).1

/-- The `k`-th hub fails as a hub. -/
def HubFails (k : ℕ) : Prop := ∃ e, outcome h attempt hubs s k = some (.error (.hub e))

/-- The `k`-th hub succeeds. -/
def Succeeds (k : ℕ) : Prop := ∃ a, outcome h attempt hubs s k = some (.ok a)

/-- **Hubs are tried in order**: the first `k` of them, the next one only
after a hub's failure, up to a success or another failure. The result is a
success exactly where some hub succeeds with all before it failing as hubs.
No other hub is asked for anything, a hub that is tried is asked unless the
stores fail, and the notifier is told of an error. -/
structure InOrder (eng : SyncEngine) (k : ℕ) (r : Except SyncError α) (s' : σ × List Event) :
    Prop where
  le : k ≤ hubs.length
  onward : ∀ j, j + 1 < k → HubFails h attempt hubs s j
  stops : k < hubs.length → ∃ j, k = j + 1 ∧ ¬ HubFails h attempt hubs s j
  result : ∀ a, r = .ok a → ∃ j, k = j + 1 ∧ outcome h attempt hubs s j = some (.ok a)
  ok_iff : (∃ a, r = .ok a) ↔
    ∃ j, Succeeds h attempt hubs s j ∧ ∀ i < j, HubFails h attempt hubs s i
  events : ∃ times : List ℕ, times.length = k ∧
    (∀ j, times[j]? = some 0 → ∃ e, outcome h attempt hubs s j = some (.error (.store e))) ∧
    s'.2 = s.2 ++ (hubs.zipWith (fun hub m => List.replicate m (.contacted hub)) times).flatten ++
      notices eng r

end Tries

/-! ## One hub -/

variable {h : Prog.Handler EngineReq σ} {eng : SyncEngine} {s : σ × List Event} {hub : HubId}

/-- The call says nothing but to the hub. -/
def AtMost (hub : HubId) ⦃β : Type⦄ (e : EngineReq β) : Prop :=
  event? e = none ∨ event? e = some (.contacted hub)

/-- The call says nothing to the notifier. -/
def Silent ⦃β : Type⦄ (e : EngineReq β) : Prop := (event? e).all (!·.isNotice)

theorem storeCalls_none : StoreCalls fun _ e => event? e = none :=
  ⟨fun _ => rfl, fun _ _ => rfl, fun _ => rfl, fun _ => rfl, fun _ _ _ => rfl, fun _ => rfl⟩

theorem storeCalls_atMost : StoreCalls (AtMost hub) :=
  ⟨fun _ => .inl rfl, fun _ _ => .inl rfl, fun _ => .inl rfl, fun _ => .inl rfl,
    fun _ _ _ => .inl rfl, fun _ => .inl rfl⟩

theorem hubCalls_atMost : HubCalls hub (AtMost hub) :=
  ⟨fun _ => .inr rfl, fun _ => .inr rfl, fun _ => .inr rfl⟩

/-- **A program that uses its stores only leaves no event.** -/
theorem events_of_none {x : Engine α} (hx : All (fun _ e => event? e = none) x) :
    (run h x s).2.2 = s.2 := by
  refine Prog.All.run_invariant (I := fun t : σ × List Event => t.2 = s.2) ?_ hx rfl
  intro β e he t ht
  show t.2 ++ (event? e).toList = s.2
  rw [he, Option.toList_none, List.append_nil, ht]

/-- **A program that asks one hub leaves that hub's events.** -/
theorem events_of_atMost {x : Engine α} (hx : All (AtMost hub) x) :
    ∃ m, (run h x s).2.2 = s.2 ++ List.replicate m (.contacted hub) := by
  refine Prog.All.run_invariant
    (I := fun t : σ × List Event => ∃ m, t.2 = s.2 ++ List.replicate m (.contacted hub)) ?_ hx ⟨0, (List.append_nil _).symm⟩
  rintro β e he t ⟨m, ht⟩
  rcases he with he | he
  · exact ⟨m, by rw [← ht]; show t.2 ++ (event? e).toList = t.2; simp [he]⟩
  · refine ⟨m + 1, ?_⟩
    show t.2 ++ (event? e).toList = _
    rw [he, ht, List.replicate_succ', Option.toList_some, List.append_assoc]

theorem exec_notify (eng : SyncEngine) (s : σ × List Event) (e : SyncError) :
    (run h (eng.notify e : Engine α) s).1 = .error e ∧
      (run h (eng.notify e : Engine α) s).2.2 =
        s.2 ++ notices eng (.error e : Except SyncError α) := by
  by_cases hsaid : (eng.notifier && e ≠ .panic) = true
  · simp only [run, exec, notify, notices, if_pos hsaid]
    exact ⟨rfl, rfl⟩
  · simp only [run, exec, notify, notices, if_neg hsaid]
    exact ⟨rfl, (List.append_nil _).symm⟩

/-- What a program leaves when it is tried: its hub's events, and at least
one of them unless the stores fail. -/
def Asks (h : Prog.Handler EngineReq σ) (attempt : HubId → Engine α) (hub : HubId) : Prop :=
  ∀ s, ∃ m, (run h (attempt hub) s).2.2 = s.2 ++ List.replicate m (.contacted hub) ∧
    (m = 0 → ∃ e, (run h (attempt hub) s).1 = .error (.store e))

/-- What was written down stays. -/
theorem events_prefix (x : Engine α) : s.2 <+: (run h x s).2.2 :=
  Prog.run_invariant (I := fun t : σ × List Event => s.2 <+: t.2)
    (fun _ e t ht => ht.trans (List.prefix_append t.2 (event? e).toList)) x.run List.prefix_rfl

/-- A program that starts by asking its hub has asked it. -/
theorem asked_of_ask {e : EngineReq (Except HubError α)} (he : event? e = some (.contacted hub))
    (f : α → Engine β) : s.2 ++ [.contacted hub] <+: (run h (ask e >>= f) s).2.2 := by
  have hstep : (run h (ask e) s).2.2 = s.2 ++ [.contacted hub] := by
    show s.2 ++ (event? e).toList = _
    rw [he, Option.toList_some]
  rcases hr : run h (ask e) s with ⟨x | a, t⟩
  · rw [run, exec_bind_of_error hr, ← hstep, hr]
  · rw [run, exec_bind_of_ok hr, ← hstep, hr]
    exact events_prefix (f a)

/-- And is not found to have asked it no times. -/
theorem ne_zero_of_asked {t : σ × List Event} {m : ℕ} (h : s.2 ++ [.contacted hub] <+: t.2)
    (hm : t.2 = s.2 ++ List.replicate m (.contacted hub)) : m ≠ 0 := by
  rintro rfl
  have hle := h.length_le
  rw [hm] at hle
  simp only [List.length_append, List.length_singleton, List.replicate_zero, List.length_nil] at hle
  omega

/-- A pull starts with the checkpoint, and then asks its hub. -/
theorem asks_pullFrom (hub : HubId) : Asks h pullFrom hub := by
  intro s
  obtain ⟨m, hm⟩ := events_of_atMost (h := h) (s := s) (x := pullFrom hub)
    (all_pullFrom storeCalls_atMost hubCalls_atMost)
  refine ⟨m, hm, fun hzero => ?_⟩
  -- the store's answer decides whether the hub is asked
  have hrun : run h (store (.metaGet (checkpointKey hub))) s =
      ((h (.metaGet (checkpointKey hub)) s.1).1.mapError .store,
        ((h (.metaGet (checkpointKey hub)) s.1).2, s.2)) := by
    simp only [run, store, exec_ask, recorded, event?, Option.toList_none, List.append_nil]
  cases hget : (h (.metaGet (checkpointKey hub)) s.1).1 with
  | error x =>
    rw [hget] at hrun
    exact ⟨x, by rw [run, pullFrom, exec_bind_of_error hrun]⟩
  | ok b =>
    rw [hget] at hrun
    have hpull : (run h (pullFrom hub) s).2.2 = s.2 ++ List.replicate m (.contacted hub) := hm
    rw [run, pullFrom, exec_bind_of_ok hrun] at hpull
    exact absurd hzero (ne_zero_of_asked
      (asked_of_ask (s := ((h (.metaGet (checkpointKey hub)) s.1).2, s.2)) rfl _) hpull)

theorem asks_pushTo (pending : List PendingChange) (changes : List PushChange) (hub : HubId) :
    Asks h (pushTo pending changes) hub := by
  intro s
  obtain ⟨m, hm⟩ := events_of_atMost (h := h) (s := s) (x := pushTo pending changes hub)
    (all_pushTo storeCalls_atMost hubCalls_atMost pending changes)
  exact ⟨m, hm, fun hzero => absurd hzero (ne_zero_of_asked (asked_of_ask rfl _) hm)⟩

/-! ## The loop -/

variable {attempt : HubId → Engine α} {hubs : List HubId}

theorem outcome_zero : outcome h attempt (hub :: hubs) s 0 =
    some (run h (attempt hub) s).1 := rfl

/-- **Onward from a hub that failed.** -/
theorem InOrder.cons {k : ℕ} {r : Except SyncError α} {s' : σ × List Event} {e : HubError}
    (hasks : Asks h attempt hub) (hfail : (run h (attempt hub) s).1 = .error (.hub e))
    (hrest : InOrder h attempt hubs (run h (attempt hub) s).2 eng k r s') :
    InOrder h attempt (hub :: hubs) s eng (k + 1) r s' := by
  have hzero : HubFails h attempt (hub :: hubs) s 0 := ⟨e, by rw [outcome_zero, hfail]⟩
  -- what is said of the hubs after this one, moved on by one
  refine ⟨Nat.succ_le_succ hrest.le, ?_, fun hk => ?_, fun a ha => ?_, ?_, ?_⟩
  · intro j hj
    cases j with
    | zero => exact hzero
    | succ j => exact hrest.onward j (by omega)
  · obtain ⟨j, rfl, hj⟩ := hrest.stops (Nat.lt_of_succ_lt_succ hk)
    exact ⟨j + 1, rfl, hj⟩
  · obtain ⟨j, rfl, hj⟩ := hrest.result a ha
    exact ⟨j + 1, rfl, hj⟩
  · rw [hrest.ok_iff]
    constructor
    · rintro ⟨j, hj, hbefore⟩
      refine ⟨j + 1, hj, fun i hi => ?_⟩
      cases i with
      | zero => exact hzero
      | succ i => exact hbefore i (by omega)
    · rintro ⟨j, ⟨a, hj⟩, hbefore⟩
      cases j with
      | zero =>
        rw [outcome_zero, hfail] at hj
        cases Option.some.inj hj
      | succ j => exact ⟨j, ⟨a, hj⟩, fun i hi => hbefore (i + 1) (by omega)⟩
  · obtain ⟨times, hlen, hasked, hevents⟩ := hrest.events
    obtain ⟨m, hm, hnone⟩ := hasks s
    refine ⟨m :: times, by rw [List.length_cons, hlen], fun j hj => ?_, ?_⟩
    · cases j with
      | zero =>
        obtain ⟨x, hx⟩ := hnone (Option.some.inj hj)
        rw [hfail] at hx
        cases hx
      | succ j => exact hasked j hj
    · rw [hevents, hm]
      simp only [List.zipWith_cons_cons, List.flatten_cons, List.append_assoc]

/-- **The search ends at a hub** that succeeds, or fails otherwise than as a
hub; `notify` is told of what it fails with, if anything. -/
theorem InOrder.stop {s' : σ × List Event} (hasks : Asks h attempt hub)
    (hends : ¬ HubFails h attempt (hub :: hubs) s 0)
    (hs' : s'.2 = (run h (attempt hub) s).2.2 ++ notices eng (run h (attempt hub) s).1) :
    InOrder h attempt (hub :: hubs) s eng 1 (run h (attempt hub) s).1 s' := by
  refine ⟨by simp, fun j hj => by omega, fun _ => ⟨0, rfl, hends⟩,
    fun a ha => ⟨0, rfl, by rw [outcome_zero, ha]⟩, ?_, ?_⟩
  · constructor
    · rintro ⟨a, ha⟩
      exact ⟨0, ⟨a, by rw [outcome_zero, ha]⟩, fun i hi => by omega⟩
    · rintro ⟨j, ⟨a, hj⟩, hbefore⟩
      cases j with
      | zero => exact ⟨a, Option.some.inj hj⟩
      | succ j => exact absurd (hbefore 0 (by omega)) hends
  · obtain ⟨m, hm, hnone⟩ := hasks s
    refine ⟨[m], rfl, fun j hj => ?_, ?_⟩
    · cases j with
      | zero =>
        obtain ⟨x, hx⟩ := hnone (Option.some.inj hj)
        exact ⟨x, by rw [outcome_zero, hx]⟩
      | succ j => cases hj
    · rw [hs', hm]
      simp

/-- **Failover follows the list.** By induction on what is left of it. -/
theorem inOrder_failover (hasks : ∀ hub, Asks h attempt hub) (last : Option SyncError) :
    ∃ k, InOrder h attempt hubs s eng k (run h (eng.failover attempt hubs last) s).1
      (run h (eng.failover attempt hubs last) s).2 := by
  induction hubs generalizing s last with
  | nil =>
    obtain ⟨hr, hs⟩ := exec_notify (h := h) (α := α) eng s (last.getD noHubs)
    have herror : (run h (eng.failover attempt [] last) s).1 = .error (last.getD noHubs) := hr
    refine ⟨0, le_rfl, fun j hj => by omega, fun hk => absurd hk (lt_irrefl 0), fun a ha => ?_,
      ?_, [], rfl, fun j hj => by simp at hj, ?_⟩
    · rw [herror] at ha
      cases ha
    · rw [herror]
      constructor
      · rintro ⟨a, ha⟩
        cases ha
      · rintro ⟨j, ⟨a, ha⟩, -⟩
        cases ha
    · rw [herror]
      refine hs.trans ?_
      simp
  | cons hub hubs ih =>
    have htry : run h (Fallible.attempt (attempt hub)) s =
        ((.ok (run h (attempt hub) s).1 : Except SyncError _), (run h (attempt hub) s).2) :=
      exec_attempt _
    -- a stop: the result is the hub's, whatever is said of it
    have hstop : (∀ e, (run h (attempt hub) s).1 ≠ .error (.hub e)) →
        ∀ s' : σ × List Event,
          s'.2 = (run h (attempt hub) s).2.2 ++ notices eng (run h (attempt hub) s).1 →
          run h (eng.failover attempt (hub :: hubs) last) s = ((run h (attempt hub) s).1, s') →
          ∃ k, InOrder h attempt (hub :: hubs) s eng k
            (run h (eng.failover attempt (hub :: hubs) last) s).1
            (run h (eng.failover attempt (hub :: hubs) last) s).2 := by
      intro hne s' hs' hrun
      rw [hrun]
      refine ⟨1, InOrder.stop (hasks hub) ?_ hs'⟩
      rintro ⟨e, he⟩
      exact hne e (Option.some.inj he)
    rcases hr : (run h (attempt hub) s).1 with (e | e | _) | a
    · obtain ⟨hnotice, hevents⟩ := exec_notify (h := h) (α := α) eng (run h (attempt hub) s).2
        (.store e)
      refine hstop (by simp [hr]) _ (by rw [hr]; exact hevents) ?_
      rw [run, failover, exec_bind_of_ok htry, hr]
      exact Prod.ext hnotice rfl
    · have hrun : run h (eng.failover attempt (hub :: hubs) last) s =
          run h (eng.failover attempt hubs (some (.hub e))) (run h (attempt hub) s).2 := by
        rw [run, failover, exec_bind_of_ok htry, hr]
      rw [hrun]
      obtain ⟨k, hk⟩ := ih (s := (run h (attempt hub) s).2) (some (.hub e))
      exact ⟨k + 1, hk.cons (hasks hub) hr⟩
    · refine hstop (by simp [hr]) (run h (attempt hub) s).2 (by simp [hr, notices]) ?_
      rw [run, failover, exec_bind_of_ok htry, hr]
      rfl
    · refine hstop (by simp [hr]) (run h (attempt hub) s).2 (by simp [hr, notices]) ?_
      rw [run, failover, exec_bind_of_ok htry, hr]
      rfl

/-! ## What is reported -/

/-- The notifier hears of exactly what the program fails with. -/
def Reports (h : Prog.Handler EngineReq σ) (eng : SyncEngine) (x : Engine α) : Prop :=
  ∀ s, (run h x s).2.2.filter Event.isNotice =
    s.2.filter Event.isNotice ++ notices eng (run h x s).1

/-- The program leaves the notifier alone. -/
theorem notices_of_silent {x : Engine α} (hx : All Silent x) :
    (run h x s).2.2.filter Event.isNotice = s.2.filter Event.isNotice := by
  refine Prog.All.run_invariant
    (I := fun t : σ × List Event => t.2.filter Event.isNotice = s.2.filter Event.isNotice) ?_ hx rfl
  intro β e he t ht
  have hnone : (event? e).toList.filter Event.isNotice = [] := by
    rw [List.filter_eq_nil_iff]
    intro event hevent
    rw [Silent, Option.mem_toList.mp hevent] at he
    simpa using he
  show (t.2 ++ (event? e).toList).filter Event.isNotice = _
  rw [List.filter_append, hnone, List.append_nil, ht]

theorem filter_notices (r : Except SyncError α) :
    (notices eng r).filter Event.isNotice = notices eng r := by
  rcases r with e | a
  · simp only [notices]
    split
    · rfl
    · rfl
  · rfl

/-- A notice is the only thing that is said of a failure. -/
theorem reports_notify (e : SyncError) : Reports h eng (eng.notify e : Engine α) := by
  intro s
  obtain ⟨hr, hs⟩ := exec_notify (h := h) (α := α) eng s e
  rw [hs, hr, List.filter_append, filter_notices]

/-- **A program that tells nobody, reported.** -/
theorem reports_report {x : Engine α} (hx : All Silent x) : Reports h eng (eng.report x) := by
  intro s
  have hquiet := notices_of_silent (h := h) (s := s) hx
  have htry : run h (Fallible.attempt x) s =
      ((.ok (run h x s).1 : Except SyncError _), (run h x s).2) := exec_attempt x
  rcases hr : (run h x s).1 with e | a
  · have hrun : run h (eng.report x) s = run h (eng.notify e) (run h x s).2 := by
      rw [run, report, exec_bind_of_ok htry, hr]
    rw [hrun, reports_notify, hquiet]
  · have hrun : run h (eng.report x) s = (.ok a, (run h x s).2) := by
      rw [run, report, exec_bind_of_ok htry, hr]
      rfl
    rw [hrun, hquiet]
    exact (List.append_nil _).symm

theorem Reports.pure (a : α) : Reports h eng (pure a : Engine α) :=
  fun _ => (List.append_nil _).symm

/-- **In sequence each reports its own failure**, and a failure of the first
is the only one. -/
theorem Reports.bind {x : Engine α} {f : α → Engine β} (hx : Reports h eng x)
    (hf : ∀ a, Reports h eng (f a)) : Reports h eng (x >>= f) := by
  intro s
  have hfirst := hx s
  rcases hr : run h x s with ⟨e | a, t⟩
  · rw [hr] at hfirst
    rw [run, exec_bind_of_error hr]
    exact hfirst
  · rw [hr] at hfirst
    rw [run, exec_bind_of_ok hr]
    refine (hf a t).trans ?_
    rw [hfirst]
    exact congrArg (· ++ _) (List.append_nil _)

/-- **Failover reports its last failure** and none of those before it. -/
theorem InOrder.reports {k : ℕ} {r : Except SyncError α} {s' : σ × List Event}
    (hr : InOrder h attempt hubs s eng k r s') :
    s'.2.filter Event.isNotice = s.2.filter Event.isNotice ++ notices eng r := by
  obtain ⟨times, -, -, hevents⟩ := hr.events
  have hnone : (hubs.zipWith (fun hub m => List.replicate m (.contacted hub)) times).flatten.filter
      Event.isNotice = [] := by
    rw [List.filter_eq_nil_iff]
    intro event hevent
    obtain ⟨l, hl, hin⟩ := List.mem_flatten.mp hevent
    obtain ⟨i, hi, rfl⟩ := List.mem_iff_getElem.mp hl
    rw [List.getElem_zipWith] at hin
    rw [List.eq_of_mem_replicate hin]
    exact Bool.false_ne_true
  rw [hevents, List.filter_append, List.filter_append, hnone, List.append_nil, filter_notices]

theorem reports_failover (hasks : ∀ hub, Asks h attempt hub) (last : Option SyncError) :
    Reports h eng (eng.failover attempt hubs last) := by
  intro s
  obtain ⟨_, hk⟩ : ∃ k, InOrder h attempt hubs s eng k
      (run h (eng.failover attempt hubs last) s).1 (run h (eng.failover attempt hubs last) s).2 :=
    inOrder_failover hasks last
  exact hk.reports

/-! ## The operations -/

theorem silent_of_none {x : Engine α} (hx : All (fun _ e => event? e = none) x) :
    All Silent x :=
  Prog.All.mono (fun _ e he => show (event? e).all _ by rw [he]; rfl) hx

theorem silent_loadPending : All Silent loadPending :=
  silent_of_none (all_loadPending storeCalls_none)

theorem silent_buildPushChanges (pending : List PendingChange) :
    All Silent (buildPushChanges pending) :=
  silent_of_none (all_buildPushChanges storeCalls_none pending)

theorem reports_pull : Reports h eng eng.pull := reports_failover asks_pullFrom none

theorem reports_push : Reports h eng eng.push := by
  refine .bind (reports_report silent_loadPending) fun pending => ?_
  split
  · exact .pure _
  · exact .bind (reports_report (silent_buildPushChanges pending)) fun changes =>
      reports_failover (asks_pushTo pending changes) none

theorem reports_sync : Reports h eng eng.sync :=
  .bind reports_push fun _ => .bind reports_pull fun _ => .pure _

theorem reports_record (c : LocalCall) : Reports h eng (c.record eng) := by
  rw [LocalCall.record_eq]
  exact reports_report (silent_of_none (all_apply storeCalls_none c))

/-- A failure before the hubs are tried ends the push there. -/
theorem exec_report_of_error (eng : SyncEngine) (f : α → Engine β) {x : Engine α} {e : SyncError}
    {t : σ × List Event} (hx : run h x s = (.error e, t)) :
    (run h (eng.report x >>= f) s).1 = .error e ∧
      (run h (eng.report x >>= f) s).2.2 = t.2 ++ notices eng (.error e : Except SyncError β) := by
  obtain ⟨hr, hs⟩ := exec_notify (h := h) (α := α) eng t e
  have hrun : run h (eng.report x) s = (.error e, (run h (eng.notify e : Engine α) t).2) := by
    rw [run, report, exec_bind_of_ok (exec_attempt_of hx)]
    exact Prod.ext hr rfl
  rw [run, exec_bind_of_error hrun]
  exact ⟨rfl, hs⟩

theorem exec_report_of_ok {x : Engine α} {a : α} {f : α → Engine β} {t : σ × List Event}
    (hx : run h x s = (.ok a, t)) : run h (eng.report x >>= f) s = run h (f a) t := by
  have hrun : run h (eng.report x) s = (.ok a, t) := by
    rw [run, report, exec_bind_of_ok (exec_attempt_of hx)]
    rfl
  exact exec_bind_of_ok hrun

/-- **What the engine's operations make of the hubs and the notifier**, from a
given state. A push first loads the queue and makes up the batch, and asks
no hub where either fails or nothing is queued. -/
structure FollowsHubs (h : Prog.Handler EngineReq σ) (eng : SyncEngine) (s : σ × List Event) :
    Prop where
  pull : ∃ k, InOrder h pullFrom eng.hubs s eng k (run h eng.pull s).1 (run h eng.pull s).2
  push : ∀ pending t changes u, run h loadPending s = (.ok pending, t) → pending ≠ [] →
    run h (buildPushChanges pending) t = (.ok changes, u) → u.2 = s.2 ∧
      ∃ k, InOrder h (pushTo pending changes) eng.hubs u eng k
        (run h eng.push s).1 (run h eng.push s).2
  push_unbuilt : ∀ pending t e u, run h loadPending s = (.ok pending, t) → pending ≠ [] →
    run h (buildPushChanges pending) t = (.error e, u) →
      (run h eng.push s).1 = .error e ∧
        (run h eng.push s).2.2 = s.2 ++ notices eng (run h eng.push s).1
  push_unloaded : ∀ e t, run h loadPending s = (.error e, t) →
    (run h eng.push s).1 = .error e ∧
      (run h eng.push s).2.2 = s.2 ++ notices eng (run h eng.push s).1
  sync_reports : (run h eng.sync s).2.2.filter Event.isNotice =
    s.2.filter Event.isNotice ++ notices eng (run h eng.sync s).1
  push_reports : (run h eng.push s).2.2.filter Event.isNotice =
    s.2.filter Event.isNotice ++ notices eng (run h eng.push s).1
  pull_reports : (run h eng.pull s).2.2.filter Event.isNotice =
    s.2.filter Event.isNotice ++ notices eng (run h eng.pull s).1
  upsert_reports : ∀ path mtime contentType content,
    (run h (eng.recordUpsert path mtime contentType content) s).2.2.filter Event.isNotice =
      s.2.filter Event.isNotice ++
        notices eng (run h (eng.recordUpsert path mtime contentType content) s).1
  delete_reports : ∀ path mtime,
    (run h (eng.recordDelete path mtime) s).2.2.filter Event.isNotice =
      s.2.filter Event.isNotice ++ notices eng (run h (eng.recordDelete path mtime) s).1

/-- **Hubs are followed in order and failures reported once**, whatever the
stores and the hubs answer, for any list of hubs. -/
theorem followsHubs (h : Prog.Handler EngineReq σ) (eng : SyncEngine) (s : σ × List Event) :
    FollowsHubs h eng s := by
  have hloaded : (run h loadPending s).2.2 = s.2 :=
    events_of_none (all_loadPending storeCalls_none)
  have hbuilt : ∀ pending t, (run h (buildPushChanges pending) t).2.2 = t.2 := fun pending t =>
    events_of_none (all_buildPushChanges storeCalls_none pending)
  refine ⟨inOrder_failover asks_pullFrom none, ?_, ?_, ?_, reports_sync s, reports_push s,
    reports_pull s, fun path mtime contentType content =>
      reports_record (.upsert path mtime contentType content) s,
    fun path mtime => reports_record (.delete path mtime) s⟩
  · intro pending t changes u hload hne hbuild
    have ht : t.2 = s.2 := by rw [← hloaded, hload]
    have hu : u.2 = t.2 := by rw [← hbuilt pending t, hbuild]
    have hrun : run h eng.push s =
        run h (eng.failover (pushTo pending changes) eng.hubs none) u := by
      rw [SyncEngine.push, exec_report_of_ok hload, if_neg (by simpa using hne),
        exec_report_of_ok hbuild]
    rw [hrun]
    exact ⟨hu.trans ht, inOrder_failover (asks_pushTo pending changes) none⟩
  · intro pending t e u hload hne hbuild
    have ht : t.2 = s.2 := by rw [← hloaded, hload]
    have hu : u.2 = t.2 := by rw [← hbuilt pending t, hbuild]
    obtain ⟨hr, hs⟩ := exec_report_of_error eng
      (fun changes => eng.failover (pushTo pending changes) eng.hubs none) hbuild
    have hrun : run h eng.push s = run h (eng.report (buildPushChanges pending) >>= fun changes =>
        eng.failover (pushTo pending changes) eng.hubs none) t := by
      rw [SyncEngine.push, exec_report_of_ok hload, if_neg (by simpa using hne)]
    rw [hrun]
    exact ⟨hr, by rw [hs, hr, hu, ht]⟩
  · intro e t hload
    have ht : t.2 = s.2 := by rw [← hloaded, hload]
    obtain ⟨hr, hs⟩ := exec_report_of_error eng (fun pending => do
      if pending.isEmpty then return ⟨"", 0⟩
      let changes ← eng.report (buildPushChanges pending)
      eng.failover (pushTo pending changes) eng.hubs none) hload
    exact ⟨hr, by rw [SyncEngine.push, hs, hr, ht]⟩

end HubOrder

end FileSync
