import FileSync.Model.Watcher
import FileSync.Hub.Tree
import FileSync.Common.Interleave
/-!
# What the watcher leaves behind

The watcher moves past a path's last update once it has gone through a feed
that had it. If the path is in conflict then, the watcher has resolved it,
and a resolution that succeeds has seen it without a conflict or written it
since. What it passes over in conflict is what it could not resolve, and
what was in conflict already when it asked for the feed from `now`.
-/

namespace FileSync

open Routes (isSystemId)

namespace Watched

/-- The path is shown with losing leaves beside its winner. -/
def InConflict (s : Watched) (path : Path) : Prop := (s.db.docs path).conflicts ≠ []

instance (s : Watched) (path : Path) : Decidable (s.InConflict path) :=
  inferInstanceAs (Decidable (_ ≠ _))

/-- The path was written after the update `k`. -/
def Later (s : Watched) (k : Checkpoint) (path : Path) : Prop := path ∈ s.db.log.drop k

instance (s : Watched) (k : Checkpoint) (path : Path) : Decidable (s.Later k path) :=
  inferInstanceAs (Decidable (_ ∈ _))

/-- **Nothing is left behind**: a path the watcher has moved past is in no
conflict. -/
def NothingBehind (s : Watched) : Prop :=
  ∀ k, s.since = some k → ∀ path, isSystemId path = false → ¬ s.Later k path → ¬ s.InConflict path

/-- Others write what they like to any document: pushes, replication. -/
structure Written where
  path : Path
  node : Node

/-- The watcher's requests fare as they may, and between them anything is
written. -/
def semantics (C : Couch) : Semantics Unit WatchReq Delivery Written Watched where
  exec _ _ e o s := exec C e o s
  env a s := { s with db := s.db.write a.path a.node }

/-- When `now` is asked for, no path is in conflict; and what could not be
resolved is no longer in conflict when that is noticed, or was written since
and will be in the next feed. -/
def Spared (s : Watched) (o : Delivery) ⦃β : Type⦄ : WatcherReq β → Prop
  | .changesWithDocs none => o = .delivered → ∀ path, isSystemId path = false → ¬ s.InConflict path
  | .resolutionFailed path _ lastSeq => s.InConflict path → s.Later lastSeq path
  | _ => True

def condition : StepCond Unit WatchReq Delivery Written Watched where
  call _ _ e o s :=
    match e with
    | .inl e => s.Spared o e
    | .inr _ => True
  env _ _ := True

/-- The watcher as a process that has just started, and from there on. -/
def start (env : HubEnv) (rounds : ℕ) (db : Db) : Config Unit WatchReq Unit Watched :=
  ⟨fun _ => Watcher.changeWatcher env rounds none, ⟨db, none⟩⟩

/-- A hub that is stopped and started any number of times, at any moment. -/
def lives (C : Couch) (env : HubEnv) (rounds : ℕ) (s : Watched)
    (runs : List (List (Move Unit Delivery Written))) : Watched :=
  runs.foldl (fun s ms => ((start env rounds s.db).runs (semantics C) ms).state) s

/-- Every life of it meets the condition. -/
def LivesMeet (C : Couch) (env : HubEnv) (rounds : ℕ) :
    Watched → List (List (Move Unit Delivery Written)) → Prop
  | _, [] => True
  | s, ms :: runs => (start env rounds s.db).Meets (semantics C) condition ms ∧
      LivesMeet C env rounds ((start env rounds s.db).runs (semantics C) ms).state runs

/-! ## What the others do -/

/-- What a step of anybody else leaves: a document is as it was, or was
written. -/
structure Others (s s' : Watched) : Prop where
  since : s'.since = s.since
  log : s.db.log <+: s'.db.log
  docs : ∀ p, ¬ s'.Later s.db.log.length p → s'.db.docs p = s.db.docs p

variable {s s' : Watched} {k k' : Checkpoint} {path p : Path} {C : Couch} {env : HubEnv}

theorem Later.mono (h : s.Later k p) (hk : k' ≤ k) : s.Later k' p :=
  (List.drop_sublist_drop_left _ hk).subset h

theorem others_write (s : Watched) (p : Path) (n : Node) :
    Others s { s with db := s.db.write p n } := by
  refine ⟨rfl, List.prefix_append _ _, fun q hq => Db.write_docs_of_ne ?_⟩
  rintro rfl
  refine hq ?_
  show q ∈ (s.db.log ++ [q]).drop s.db.log.length
  rw [List.drop_left]
  exact List.mem_cons_self

theorem others_refl (s : Watched) : Others s s := ⟨rfl, List.prefix_rfl, fun _ _ => rfl⟩

/-- A request of the resolver's is such a step. -/
theorem others_answer ⦃β : Type⦄ (e : CouchReq β) (s : Watched) :
    Others s { s with db := (C.answer e s.db).2 } := by
  cases e with
  | getDoc _ | getDocAtRev _ _ | getAttachment _ _ | openRevs _ | changes _ => exact others_refl s
  | putDoc _ id rev body =>
    simp only [Couch.answer]
    split
    exacts [others_write s _ _, others_refl s]
  | putAttachment _ id rev attachment =>
    simp only [Couch.answer]
    split
    exacts [others_write s _ _, others_refl s]
  | deleteDoc _ id rev =>
    simp only [Couch.answer]
    split
    exacts [others_write s _ _, others_refl s]
  | bulkDocs doc =>
    simp only [Couch.answer]
    split
    exacts [others_refl s, others_write s _ _]

/-- The update `k` has taken place. -/
def Reached (k : Checkpoint) (s : Watched) : Prop := k ≤ s.db.log.length

/-- The path was written after the update `k`, or is in no conflict. -/
structure Cleared (k : Checkpoint) (path : Path) (s : Watched) : Prop where
  reached : Reached k s
  clear : s.Later k path ∨ ¬ s.InConflict path

/-- The invariant of a life. -/
structure Sound (s : Watched) : Prop where
  reached : ∀ k, s.since = some k → Reached k s
  nothing : NothingBehind s

/-- What is left to do of the feed that ends at `k`: some of its rows. -/
structure Pending (k : Checkpoint) (rows : List WatchedRow) (s : Watched) : Prop where
  sound : Sound s
  reached : Reached k s
  paths : ∀ p, isSystemId p = false →
    (s.Later k p ∨ ¬ s.InConflict p) ∨ ∃ row ∈ rows, row.id = p ∧ row.conflicts ≠ []

theorem Others.reached (h : Others s s') (hk : Reached k s) : Reached k s' :=
  hk.trans h.log.length_le

theorem Others.later (h : Others s s') (hl : s.Later k p) : s'.Later k p := by
  obtain ⟨more, hmore⟩ := h.log
  unfold Later
  rw [← hmore, List.drop_append]
  exact List.mem_append_left _ hl

/-- A path that is clear stays so, or is written. -/
theorem Others.clear (h : Others s s') (hk : Reached k s)
    (hc : s.Later k p ∨ ¬ s.InConflict p) : s'.Later k p ∨ ¬ s'.InConflict p := by
  rcases hc with hl | hc
  · exact .inl (h.later hl)
  by_cases hw : s'.Later s.db.log.length p
  · exact .inl (hw.mono hk)
  · refine .inr ?_
    unfold InConflict
    rwa [h.docs p hw]

theorem Others.cleared (h : Others s s') (hc : Cleared k p s) : Cleared k p s' :=
  ⟨h.reached hc.reached, h.clear hc.reached hc.clear⟩

theorem Others.sound (h : Others s s') (hs : Sound s) : Sound s' := by
  refine ⟨fun k hk => h.reached (hs.reached k (h.since ▸ hk)), fun k hk p hp hl => ?_⟩
  have hk' : s.since = some k := h.since ▸ hk
  refine (h.clear (hs.reached k hk') ?_).resolve_left hl
  by_cases hold : s.Later k p
  · exact .inl hold
  · exact .inr (hs.nothing k hk' p hp hold)

theorem Others.pending {rows : List WatchedRow} (h : Others s s') (hs : Pending k rows s) :
    Pending k rows s' :=
  ⟨h.sound hs.sound, h.reached hs.reached, fun p hp =>
    (hs.paths p hp).imp_left (h.clear hs.reached)⟩

/-- Between the watcher's requests the others step, and its requests keep the
invariant. -/
def contract : Contract Unit Watched := ⟨fun _ => Others, fun _ s s' => Sound s → Sound s'⟩

theorem fits : contract.Fits (semantics C) condition :=
  ⟨fun _ _ hne => absurd rfl hne, fun _ a s _ => others_write s a.path a.node⟩

/-! ## What a resolution does -/

/-- What a part of the resolver does under the watcher, from a state that
has reached `k`. -/
abbrev WatchDoes {ε α : Type} (C : Couch) (k : Checkpoint) (P : Watched → Prop) (x : Hub ε α)
    (M : α → Watched → Prop) : Prop :=
  Does (semantics C) condition contract () (fun _ e => .perform (.inr e)) P x
    (Post (Reached k) M)

variable {ε ε' α β : Type} {P : Watched → Prop} {M : α → Watched → Prop}

theorem stable_reached : contract.Stable () (Reached k) := fun _ _ h h' => h'.reached h

theorem stable_cleared : contract.Stable () (Cleared k p) := fun _ _ h h' => h'.cleared h

theorem stable_pending {rows : List WatchedRow} : contract.Stable () (Pending k rows) :=
  fun _ _ h h' => h'.pending h

/-- A value that was read, once `k` was reached. -/
theorem stable_value {v : Prop} : contract.Stable () fun s => v ∧ Reached k s :=
  fun _ _ h h' => ⟨h.1, h'.reached h.2⟩

/-- **A request is somebody's step**, whatever becomes of it. -/
theorem others_exec ⦃β : Type⦄ (e : CouchReq β) (o : Delivery) (s : Watched) :
    Others s (exec C (.inr e) o s).2 := by
  cases o
  exacts [others_answer e s, others_refl s, others_answer e s]

/-- What nobody's step undoes, no program of the hub undoes. -/
theorem keeps {x : Hub ε α} (hP : contract.Stable () P) :
    Does (semantics C) condition contract () (fun _ e => .perform (.inr e)) P x
      (Post P fun _ => P) := by
  refine Does.of_all hP (fun β e _ => ?_) (Prog.all_of_forall (φ := fun _ _ => True)
    (fun _ _ => trivial) x.run)
  exact Triple.perform (fun _ => hP) fun o s hs _ =>
    ⟨(others_exec e o s).sound, hP hs (others_exec e o s)⟩

/-- **One request**: a lost one fails. -/
theorem does_request {e : CouchReq β} {g : β → Except ε α} (hP : ∀ s, P s → Reached k s)
    (hlost : ∃ x, g e.lost = .error x) (hM : ∀ a, contract.Stable () (M a))
    (hok : ∀ s a, P s → g (C.answer e s.db).1 = .ok a → M a { s with db := (C.answer e s.db).2 }) :
    WatchDoes C k P (.mk (.call e fun r => .done (g r))) M := by
  obtain ⟨x, hx⟩ := hlost
  refine Triple.bind (fun r s => Post (Reached k) M (g r) s) (Triple.perform (fun r =>
    stable_post stable_reached hM _) fun o s hs _ => ⟨(others_exec e o s).sound, ?_⟩) fun r =>
      Triple.done (stable_post stable_reached hM _) fun _ h => h
  cases o with
  | delivered =>
    have hreached := (others_answer (C := C) e s).reached (hP s hs)
    show Post (Reached k) M (g (C.answer e s.db).1) { s with db := (C.answer e s.db).2 }
    cases hr : g (C.answer e s.db).1 with
    | ok a => exact hok s a hs hr
    | error x => exact hreached
  | unsent =>
    show Post (Reached k) M (g e.lost) s
    rw [hx]
    exact hP s hs
  | unanswered =>
    show Post (Reached k) M (g e.lost) { s with db := (C.answer e s.db).2 }
    rw [hx]
    exact (others_answer e s).reached (hP s hs)

theorem does_orMissingLeaf {a : Option α} {v : α → Prop} (h : ∀ x, a = some x → v x) :
    WatchDoes C k (Reached k) (Resolver.orMissingLeaf a) fun x s => v x ∧ Reached k s := by
  cases a with
  | none => exact Does.throw stable_reached fun _ hs => hs
  | some x => exact Does.pure stable_value fun _ hs => ⟨h x rfl, hs⟩

/-- A leaf is read at the revision it is asked for. -/
theorem does_fetchLeaf {rev : Rev} : WatchDoes C k (Reached k) (Resolver.fetchLeaf path rev)
    fun leaf s => leaf.rev = rev ∧ Reached k s := by
  unfold Resolver.fetchLeaf
  refine Does.bind (fun doc? s => (∀ doc : RevDoc, doc? = some doc → doc.rev = rev) ∧ Reached k s)
    stable_reached (Does.adapt stable_reached (fun _ => stable_value) (does_request (fun _ h => h)
      ⟨_, rfl⟩ (fun _ => stable_value) fun s doc? hs hdoc => ⟨?_, hs⟩)) fun doc? => ?_
  · rintro doc rfl
    simp only [Couch.answer] at hdoc
    cases hf : (s.db.docs path).find? rev with
    | none =>
      rw [hf] at hdoc
      cases hdoc
    | some n =>
      rw [hf] at hdoc
      obtain ⟨-, hrev⟩ := Tree.find?_eq_some hf
      rw [← Option.some.inj (Except.ok.inj hdoc)]
      exact hrev
  refine Triple.of_pure (fun s hs => hs.1) fun hdoc => Does.bind (fun doc s => doc.rev = rev ∧
    Reached k s) stable_reached ((does_orMissingLeaf hdoc).pre fun _ h => h.2) fun doc => ?_
  refine Triple.of_pure (fun s hs => hs.1) fun hrev => ?_
  unfold Resolver.leafFromDoc
  split
  · exact Does.pure stable_value fun _ h => ⟨hrev, h.2⟩
  · exact Does.bind (fun _ => Reached k) stable_reached
      ((keeps stable_reached).pre fun _ h => h.2) fun content =>
        Does.pure stable_value fun _ h => ⟨hrev, h⟩

theorem does_fetchLeaves (revs : List Rev) :
    WatchDoes C k (Reached k) (Resolver.fetchLeaves path revs) fun leaves s =>
      leaves.map Leaf.rev = revs ∧ Reached k s := by
  induction revs with
  | nil => exact Does.pure stable_value fun _ hs => ⟨rfl, hs⟩
  | cons rev revs ih =>
    unfold Resolver.fetchLeaves
    refine Does.bind _ stable_reached does_fetchLeaf fun leaf => ?_
    refine Triple.of_pure (fun s hs => hs.1) fun hleaf => ?_
    refine Does.bind _ stable_reached (ih.pre fun _ h => h.2) fun leaves => ?_
    exact Does.pure stable_value fun _ h => ⟨by rw [List.map_cons, hleaf, h.1], h.2⟩

/-- Whatever is planned, every leaf but the winner is to be deleted. -/
theorem does_planResolution (leaves : List Leaf) (winnerRev : Rev) :
    WatchDoes C k (Reached k) (Resolver.planResolution env path leaves winnerRev) fun plan s =>
      plan.loserRevs = (leaves.filter fun l => l.rev ≠ winnerRev).map Leaf.rev ∧ Reached k s := by
  unfold Resolver.planResolution
  refine Does.bind (fun _ => Reached k) stable_reached (keeps stable_reached) fun winner => ?_
  dsimp only
  split
  · refine Does.bind (fun _ => Reached k) stable_reached (keeps stable_reached) fun other => ?_
    refine Does.bind (fun _ => Reached k) stable_reached (keeps stable_reached) fun base => ?_
    split
    · exact Does.pure stable_value fun _ hs => ⟨rfl, hs⟩
    · exact Does.pure stable_value fun _ hs => ⟨rfl, hs⟩
  · split
    · exact Does.pure stable_value fun _ hs => ⟨rfl, hs⟩
    · exact Does.pure stable_value fun _ hs => ⟨rfl, hs⟩

/-- Deleting a leaf writes its path. -/
theorem does_deleteLosers {rev : Rev} {revs : List Rev} :
    WatchDoes C k (Reached k) (Resolver.deleteLosers path (rev :: revs)) fun _ =>
      Cleared k path := by
  unfold Resolver.deleteLosers
  refine Does.bind (fun _ => Cleared k path) stable_reached (Does.adapt stable_reached
    (fun _ => stable_cleared) (does_request (fun _ h => h) ⟨_, rfl⟩ (fun _ => stable_cleared)
      fun s a hs ha => ?_)) fun _ => ?_
  · refine ⟨(others_answer (C := C) (.deleteDoc .resolver path rev) s).reached hs, .inl ?_⟩
    simp only [Couch.answer] at ha ⊢
    split at ha
    · show path ∈ (s.db.log ++ [path]).drop k
      rw [List.drop_append_of_le_length hs]
      exact List.mem_append_right _ List.mem_cons_self
    · cases ha
  · exact Does.mono (keeps stable_cleared) (fun _ h => h.reached) fun _ _ h => h

theorem does_applyPlan {plan : Plan} (hplan : plan.loserRevs ≠ []) :
    WatchDoes C k (Reached k) (Resolver.applyPlan env path plan) fun _ => Cleared k path := by
  obtain ⟨rev, revs, hrevs⟩ := List.exists_cons_of_ne_nil hplan
  unfold Resolver.applyPlan
  rw [hrevs]
  refine Does.bind (fun _ => Reached k) stable_reached (keeps stable_reached) fun written => ?_
  refine Does.bind (fun _ => Reached k) stable_reached (keeps stable_reached) fun _ => ?_
  exact Does.bind _ stable_reached does_deleteLosers fun _ =>
    Does.pure stable_cleared fun _ h => h

/-- What is known once a reader was shown a document or none. -/
def Shown (k : Checkpoint) (path : Path) : Option Doc → Watched → Prop
  | none, s => Cleared k path s
  | some doc, s => Reached k s ∧ (doc.conflicts = [] → Cleared k path s) ∧
      ∀ r ∈ doc.conflicts, r ≠ doc.rev

theorem stable_shown : ∀ doc?, contract.Stable () (Shown k path doc?)
  | none, _, _, h, ho => ho.cleared h
  | some _, _, _, h, ho => ⟨ho.reached h.1, fun hc => ho.cleared (h.2.1 hc), h.2.2⟩

theorem does_getDoc :
    WatchDoes C k (Reached k) (CouchClient.getDoc path) (Shown k path) := by
  refine does_request (fun _ h => h) ⟨_, rfl⟩ stable_shown fun s doc? hs hdoc => ?_
  simp only [Couch.answer] at hdoc ⊢
  cases hd : (s.db.docs path).doc? with
  | none =>
    rw [hd] at hdoc
    obtain rfl : none = doc? := Except.ok.inj hdoc
    refine ⟨hs, .inr ?_⟩
    simp [InConflict, Tree.conflicts, hd]
  | some doc =>
    rw [hd] at hdoc
    obtain rfl : some doc = doc? := Except.ok.inj hdoc
    refine ⟨hs, fun hnil => ⟨hs, .inr ?_⟩, fun r hr => ?_⟩
    · simp [InConflict, Tree.conflicts, hd, hnil]
    · obtain ⟨w, -, rfl⟩ := Option.map_eq_some_iff.1 hd
      obtain ⟨n, hn, rfl⟩ := List.mem_map.1 hr
      simpa using (List.mem_filter.1 hn).2

/-- **A resolution that succeeds** has seen the path without a conflict, or
written it. -/
theorem does_resolve :
    WatchDoes C k (Reached k) (Resolver.resolve env path) fun _ => Cleared k path := by
  have hloop : ∀ tries, WatchDoes C k (Reached k) (Resolver.resolveLoop env path tries) fun _ =>
      Cleared k path := by
    intro tries
    -- a refused write leaves the path as it was found, to be read again
    induction tries with
    | zero => exact Does.throw stable_reached fun _ hs => hs
    | succ tries ih =>
      unfold Resolver.resolveLoop
      refine Does.bind _ stable_reached (Does.adapt stable_reached stable_shown does_getDoc)
        fun doc? => ?_
      cases doc? with
      | none => exact Does.mono (keeps stable_cleared) (fun _ h => h.reached) fun _ _ h => h
      | some doc =>
        dsimp only
        by_cases hempty : doc.conflicts = []
        · rw [hempty]
          exact Does.pure stable_cleared fun _ h => h.2.1 hempty
        have hne : ¬ doc.conflicts.isEmpty = true := by simpa using hempty
        rw [if_neg hne]
        refine Triple.of_pure (fun s hs => hs.2.2) fun hrevs => ?_
        refine Does.bind _ stable_reached ((does_fetchLeaves _).pre fun _ h => h.1) fun leaves => ?_
        refine Triple.of_pure (fun s hs => hs.1) fun hleaves => ?_
        refine Does.bind _ stable_reached ((does_planResolution leaves doc.rev).pre
          fun _ h => h.2) fun plan => ?_
        refine Triple.of_pure (fun s hs => hs.1) fun hplan => ?_
        have hlosers : plan.loserRevs ≠ [] := by
          obtain ⟨r, rs, hr⟩ := List.exists_cons_of_ne_nil hempty
          have hmem : r ∈ leaves.map Leaf.rev := by
            rw [hleaves, hr]
            simp
          obtain ⟨leaf, hleaf, rfl⟩ := List.mem_map.1 hmem
          have hne : leaf.rev ≠ doc.rev := hrevs _ (by rw [hr]; exact List.mem_cons_self)
          rw [hplan]
          exact List.ne_nil_of_mem (List.mem_map.2 ⟨leaf, List.mem_filter.2 ⟨hleaf, by simpa using hne⟩,
            rfl⟩)
        unfold Resolver.applyOrRetry
        refine Does.bind (Post (Reached k) fun _ => Cleared k path) stable_reached
          (Does.attempt stable_reached (fun _ => stable_cleared)
            ((does_applyPlan hlosers).pre fun _ h => h.2)) fun r => ?_
        cases r with
        | ok copies => exact Does.pure stable_cleared fun _ h => h
        | error e =>
          cases e with
          | casConflict => exact ih
          | _ => exact Does.throw stable_reached fun _ h => h
  exact hloop _

/-! ## What a round does -/

/-- A program of the watcher, from `P` to `Q`. -/
abbrev WatcherDoes (C : Couch) (P : Watched → Prop) (x : Prog WatchReq α)
    (Q : α → Watched → Prop) : Prop :=
  Triple (semantics C) condition contract () P x Q

/-- A row that is none of the paths, or in no conflict, need not be
handled. -/
theorem Pending.tail {row : WatchedRow} {rows : List WatchedRow} (h : Pending k (row :: rows) s)
    (hrow : isSystemId row.id = false → row.conflicts ≠ [] → Cleared k row.id s) :
    Pending k rows s := by
  refine ⟨h.sound, h.reached, fun p hp => ?_⟩
  rcases h.paths p hp with hclear | ⟨r, hr, hid, hconf⟩
  · exact .inl hclear
  rcases List.mem_cons.1 hr with rfl | hr
  · subst hid
    exact .inl (hrow hp hconf).clear
  · exact .inr ⟨r, hr, hid, hconf⟩

/-- **One row**: its conflict is resolved, or it is noticed that there is
none left to resolve. -/
theorem does_handleRow {row : WatchedRow} {rows : List WatchedRow} :
    WatcherDoes C (Pending k (row :: rows)) (Watcher.handleRow env k row) fun _ =>
      Pending k rows := by
  unfold Watcher.handleRow
  split
  · rename_i hsystem
    exact Triple.done stable_pending fun s hs => hs.tail fun hp => by simp [hsystem] at hp
  split
  · rename_i hempty
    exact Triple.done stable_pending fun s hs => hs.tail fun _ hconf =>
      absurd (by simpa using hempty) hconf
  have hkeeps : Does (semantics C) condition contract () (fun _ e => .perform (.inr e))
      (Pending k (row :: rows)) (Resolver.resolve env row.id)
      (Post (Pending k (row :: rows)) fun _ => Pending k (row :: rows)) := keeps stable_pending
  have hclears : WatchDoes C k (Reached k) (Resolver.resolve env row.id) fun _ =>
      Cleared k row.id := does_resolve
  have hresolve := Triple.and hkeeps hclears
  refine Triple.bind _ (hresolve.pre fun s hs => ⟨hs, hs.reached⟩) fun r => ?_
  cases r with
  | ok _ => exact Triple.done stable_pending fun s hs => hs.1.tail fun _ _ => hs.2
  | error e =>
    refine Triple.perform (fun _ => stable_pending) fun o s hs hspared => ⟨fun h => h, ?_⟩
    refine hs.1.tail fun _ _ => ⟨hs.2, ?_⟩
    by_cases hconf : s.InConflict row.id
    exacts [.inl (hspared hconf), .inr hconf]

theorem does_handleRows (rows : List WatchedRow) :
    WatcherDoes C (Pending k rows) (Watcher.handleRows env k rows) fun _ => Pending k [] := by
  induction rows with
  | nil => exact Triple.done stable_pending fun _ hs => hs
  | cons row rows ih => exact Triple.bind _ does_handleRow fun _ => ih

/-- The watcher is where it thinks it is. -/
structure At (since : Option Checkpoint) (s : Watched) : Prop where
  sound : Sound s
  since_eq : s.since = since

theorem stable_at {since : Option Checkpoint} : contract.Stable () (At since) := fun _ _ h ho =>
  ⟨ho.sound h.sound, ho.since.trans h.since_eq⟩

/-- **A poll** leaves to do what is in conflict in its rows. -/
theorem pending_watchedSince {since : Option Checkpoint} (h : At since s)
    (hnow : since = none → ∀ path, isSystemId path = false → ¬ s.InConflict path) :
    Pending (Couch.watchedSince s.db since).lastSeq (Couch.watchedSince s.db since).results s := by
  refine ⟨h.sound, le_refl _, fun p hp => ?_⟩
  by_cases hconf : s.InConflict p
  · cases since with
    | none => exact absurd hconf (hnow rfl p hp)
    | some k₀ =>
      have hlater : s.Later k₀ p := by
        by_contra hl
        exact h.sound.nothing k₀ h.since_eq p hp hl hconf
      have hwinner : ∃ w, (s.db.docs p).winner = some w := by
        cases hd : (s.db.docs p).doc? with
        | none => exact absurd (by simp [Tree.conflicts, hd]) hconf
        | some doc =>
          obtain ⟨w, hw, -⟩ := Option.map_eq_some_iff.1 hd
          exact ⟨w, (Tree.visible_eq_some.1 hw).1⟩
      obtain ⟨w, hw⟩ := hwinner
      refine .inr ⟨⟨p, (s.db.docs p).conflicts⟩, ?_, rfl, hconf⟩
      exact List.mem_filterMap.2 ⟨p, List.mem_dedup.2 hlater, by simp [hw]⟩
  · exact .inl (.inr hconf)

/-- What holds once the feed has answered, or has not. -/
def Heard (since : Option Checkpoint) : Except HttpFailure WatchedChanges → Watched → Prop
  | .ok resp, s => Pending resp.lastSeq resp.results s
  | .error _, s => At since s

/-- **The loop** keeps the invariant, round after round. -/
theorem does_changeWatcher (rounds : ℕ) (since : Option Checkpoint) :
    WatcherDoes C (At since) (Watcher.changeWatcher env rounds since) fun _ _ => True := by
  induction rounds generalizing since with
  | zero => exact Triple.done (fun _ _ _ _ => trivial) fun _ _ => trivial
  | succ rounds ih =>
    refine Triple.bind (Heard since) (Triple.perform ?_ fun o s hs hspared => ⟨fun h => h, ?_⟩)
      fun r => ?_
    · rintro (e | resp)
      exacts [stable_at, stable_pending]
    · show Heard since (if o = .delivered then Except.ok (Couch.watchedSince s.db since)
          else .error HttpFailure.transport) s
      by_cases ho : o = .delivered
      · rw [if_pos ho]
        refine pending_watchedSince hs fun hnow => ?_
        subst hnow
        exact hspared ho
      · rw [if_neg ho]
        exact hs
    cases r with
    | error e => exact ih since
    | ok resp =>
      refine Triple.bind _ (does_handleRows resp.results) fun _ => ?_
      refine Triple.bind (fun _ => At (some resp.lastSeq)) (Triple.perform (fun _ => stable_at)
        fun o s hs _ => ?_) fun _ => ih _
      have hsound : Sound { s with since := some resp.lastSeq } := by
        refine ⟨?_, ?_⟩
        · rintro k ⟨⟩
          exact hs.reached
        · rintro k ⟨⟩ p hp hl
          rcases hs.paths p hp with hclear | ⟨row, hrow, -⟩
          exacts [hclear.resolve_left hl, absurd hrow List.not_mem_nil]
      exact ⟨fun _ => hsound, hsound, rfl⟩

/-! ## Over all its lives -/

theorem sound_start (db : Db) : Sound ⟨db, none⟩ := by
  constructor
  · rintro k ⟨⟩
  · rintro k ⟨⟩

/-- **The watcher leaves no conflict behind** in any run whose steps all meet
the condition, whatever fails in it and whenever the hub is restarted. -/
theorem watcher_leaves_no_conflict (C : Couch) (env : HubEnv) (rounds : ℕ) (db : Db)
    (runs : List (List (Move Unit Delivery Written)))
    (hmeet : LivesMeet C env rounds ⟨db, none⟩ runs) :
    NothingBehind (lives C env rounds ⟨db, none⟩ runs) := by
  have hlives : ∀ (runs : List (List (Move Unit Delivery Written))) (s : Watched), Sound s →
      LivesMeet C env rounds s runs → Sound (lives C env rounds s runs) := by
    intro runs
    induction runs with
    | nil => exact fun s hs _ => hs
    | cons ms runs ih =>
      -- what a life leaves to the next is the database alone
      intro s _ hmeet
      have hstart : At none (⟨s.db, none⟩ : Watched) := ⟨sound_start s.db, rfl⟩
      refine ih _ ?_ hmeet.2
      exact (PoolSafe.init (Q := fun _ _ _ => True) (P := fun _ => At none) (fun _ => stable_at)
        (fun _ => hstart) fun _ => does_changeWatcher rounds none).invariant fits
        (fun _ _ _ hg => hg) (fun a s _ hs => (others_write s a.path a.node).sound hs) hmeet.1
        hstart.sound
  exact (hlives runs ⟨db, none⟩ (sound_start db) hmeet).nothing

/-! ## A conflict nobody looks at again -/

/-- A file written without a history. -/
def root (hash : String) : Node :=
  ⟨⟨1, hash⟩, [], false, ⟨some "a", some 1, some octetStream⟩, some ⟨octetStream, [1]⟩⟩

/-- Two devices' first versions of a file arrive, and nobody resolves
them. -/
def arrival : List (Move Unit Delivery Written) :=
  [.env ⟨"a", root "x"⟩, .env ⟨"a", root "y"⟩]

def poll (o : Delivery) : Move Unit Delivery Written := .run () o

/-- The hub is started again after that. -/
def restarted : List (List (Move Unit Delivery Written)) :=
  [arrival, [poll .delivered, poll .delivered]]

/-- The watcher is there when they arrive, and its one request to resolve
them is lost. -/
def unresolved : List (List (Move Unit Delivery Written)) :=
  [[poll .delivered, poll .delivered] ++ arrival ++
    [poll .delivered, poll .unsent, poll .delivered, poll .delivered]]

/-- **A conflict is passed over** by a watcher that starts after it came, and
by one that fails to resolve it. -/
theorem conflict_left_behind :
    ¬ NothingBehind (lives (.counting false) .plain 2 ⟨Db.empty, none⟩ restarted) ∧
    ¬ NothingBehind (lives (.counting false) .plain 2 ⟨Db.empty, none⟩ unresolved) := by
  have hpassed : ∀ runs ∈ [restarted, unresolved],
      let s := lives (.counting false) .plain 2 ⟨Db.empty, none⟩ runs
      s.since = some 2 ∧ ¬ s.Later 2 "a" ∧ s.InConflict "a" := by
    decide +kernel
  have hbehind : ∀ runs ∈ [restarted, unresolved],
      ¬ NothingBehind (lives (.counting false) .plain 2 ⟨Db.empty, none⟩ runs) := by
    intro runs hruns h
    obtain ⟨hsince, hlater, hconf⟩ := hpassed runs hruns
    exact h 2 hsince "a" (by decide) hlater hconf
  exact ⟨hbehind _ (by simp), hbehind _ (by simp)⟩

/-- The watcher is there when they arrive, and nothing is lost. -/
def resolved : List (List (Move Unit Delivery Written)) :=
  [[poll .delivered, poll .delivered] ++ arrival ++ List.replicate 13 (poll .delivered)]

theorem resolved_conflict_not_left_behind :
    NothingBehind (lives (.counting false) .plain 2 ⟨Db.empty, none⟩ resolved) :=
  watcher_leaves_no_conflict (.counting false) .plain 2 Db.empty resolved
    ⟨⟨fun _ _ _ h => h rfl, trivial, trivial, trivial, trivial, trivial, trivial, trivial, trivial,
      trivial, trivial, trivial, trivial, trivial, trivial, trivial, trivial, trivial⟩, trivial⟩

end Watched

end FileSync
