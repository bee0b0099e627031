import FileSync.Client.Tracking
/-!
# A push keeps track

A push may empty the queue because the hub has written every path that was
queued, or shows it as the device has it.
-/

namespace FileSync

namespace Tracking

variable {ι : Type} [DecidableEq ι] {C : Couch} {env : HubEnv} {eng : SyncEngine}
  {origin : Origin} {i : ι} {hub : HubId} {s s' : State ι} {path : Path} {since : ℕ}
  {α β ε ε' : Type} {P Q B : State ι → Prop} {M : α → State ι → Prop}

/-! ## The hub's part of a push -/

/-- The path is in the hub's next feed, or at the device as the hub serves
it. -/
abbrev Heard (i : ι) (hub : HubId) (path : Path) (s : State ι) : Prop :=
  UpTo i hub (s.checkpoint i hub) path s

/-- The checkpoint is one of the hub's. -/
def Within (i : ι) (hub : HubId) (s : State ι) : Prop :=
  s.checkpoint i hub ≤ (s.net.hubs hub).log.length

omit [DecidableEq ι] in
theorem lasts_heard (hP : Lasts i hub P) (hle : ∀ s, P s → Within i hub s) :
    Lasts i hub fun s => P s ∧ Heard i hub path s := by
  rintro s s' ⟨hs, hu⟩ h
  refine ⟨hP hs h, ?_⟩
  rw [Heard, h.checkpoint]
  exact hu.onward h (hle s hs)

/-- A write that is answered is in the hub's next feed. -/
theorem does_write {e : CouchReq (Except HttpFailure α)} {g : HttpFailure → ε}
    (he : e.Numbered) (hP : Lasts i hub P) (hle : ∀ s, P s → Within i hub s)
    (hlost : e.lost = .error .transport) (hwrite : ∀ s, P s →
      Redelivers.call i (.couch hub e) .delivered s → ∀ a,
      (C.answer e (s.net.hubs hub)).1 = .ok a →
        Heard i hub path ((semantics C).exec i (.couch hub e) .delivered s).2) :
    HubDoes C i hub P (.ask g e) P fun _ s => P s ∧ Heard i hub path s := by
  have hheard : Lasts i hub fun s => P s ∧ Heard i hub path s := lasts_heard hP hle
  refine Does.ask hP.stable (fun _ => hheard.stable)
    (triple_couch he (fun r => ?_) (fun s hs => ?_) fun s hs ho => ?_)
  · cases r with
    | ok a => exact hheard
    | error x => exact hP
  · rw [hlost]
    exact hs
  · have hkeep : P ((semantics C).exec i (.couch hub e) .delivered s).2 :=
      hP hs (onward_couch he hub .delivered s)
    cases hr : (C.answer e (s.net.hubs hub)).1 with
    | ok a => exact ⟨hkeep, hwrite s hs ho a hr⟩
    | error x => exact hkeep

/-- What a request leaves of the hub's database. -/
theorem hub_after {e : CouchReq β} (s : State ι) :
    ((semantics C).exec i (.couch hub e) .delivered s).2.net.hubs hub =
      (C.answer e (s.net.hubs hub)).2 :=
  Function.update_self ..

/-- A path that was written is in the next feed. -/
theorem heard_of_write {e : CouchReq β} {n : Node} (hs : Within i hub s)
    (hw : (C.answer e (s.net.hubs hub)).2 = (s.net.hubs hub).write path n) :
    Heard i hub path ((semantics C).exec i (.couch hub e) .delivered s).2 := by
  refine .inl ?_
  rw [hub_after, hw]
  exact Db.changed_write hs

theorem does_putDoc {rev : Option Rev} {body : Body} (hP : Lasts i hub P)
    (hle : ∀ s, P s → Within i hub s) :
    HubDoes C i hub P (CouchClient.putDoc .push path rev body) P fun _ s =>
      P s ∧ Heard i hub path s := by
  refine does_write trivial hP hle rfl fun s hs _ a ha => ?_
  simp only [Couch.answer] at ha
  split at ha
  · rename_i parent hparent
    exact heard_of_write (hle s hs) (by simp only [Couch.answer, hparent]; rfl)
  · cases ha

theorem does_deleteDoc {rev : Rev} (hP : Lasts i hub P) (hle : ∀ s, P s → Within i hub s) :
    HubDoes C i hub P (CouchClient.deleteDoc .push path rev) P fun _ s =>
      P s ∧ Heard i hub path s := by
  refine does_write trivial hP hle rfl fun s hs _ a ha => ?_
  simp only [Couch.answer] at ha
  split at ha
  · rename_i parent hparent
    exact heard_of_write (hle s hs) (by simp only [Couch.answer, hparent]; rfl)
  · cases ha

/-- **A branch** is written, or the device need not hear of it. -/
theorem does_putRevision {doc : BranchDoc} (hpos : 0 < doc.rev.gen) (hP : Lasts i hub P)
    (hle : ∀ s, P s → Within i hub s) :
    HubDoes C i hub P (CouchClient.putRevision doc) P fun _ s =>
      P s ∧ Heard i hub doc.id s := by
  refine does_write hpos hP hle rfl fun s hs ho _ _ => ?_
  have hcounts : BranchCounts i hub doc s := ho.1 (hub, doc) rfl rfl
  cases hfind : ((s.net.hubs hub).docs doc.id).find? doc.rev with
  | none =>
    exact heard_of_write (n := doc.toNode) (hle s hs) (by simp only [Couch.answer, hfind])
  | some n =>
    rcases hcounts with hnew | hheard
    · rw [hfind] at hnew
      cases hnew
    · have honward : Onward i hub s ((semantics C).exec i (.couch hub (.bulkDocs doc))
          .delivered s).2 := onward_couch (e := .bulkDocs doc) hpos hub .delivered s
      rw [Heard, honward.checkpoint]
      exact hheard.onward honward (hle s hs)

/-- Once the hub has heard of a path, the rest of its program may do what it
likes. -/
theorem does_rest {x : Hub ε α} (hP : Lasts i hub P) (hle : ∀ s, P s → Within i hub s)
    (hx : Fallible.All (fun _ e => e.Numbered) x) :
    HubDoes C i hub (fun s => P s ∧ Heard i hub path s) x P fun _ s =>
      P s ∧ Heard i hub path s :=
  Does.mono (does_keeps (lasts_heard hP hle) hx) (fun _ h => h.1) fun _ _ h => h

theorem does_branchAndResolve {change : PushChange} {deleted : Bool} {content : Option Bytes}
    (hP : Lasts i hub P) (hle : ∀ s, P s → Within i hub s) :
    HubDoes C i hub P (Push.branchAndResolve env change deleted content) P fun _ s =>
      P s ∧ Heard i hub change.path s := by
  have hparent : Fallible.All (fun _ e => CouchReq.Numbered e) (Push.branchParent change) :=
    Push.all_branchParent CouchReq.numbered_calls.toReadCalls change
  refine Does.bind _ hP.stable (does_keeps hP hparent) fun parent => ?_
  refine Does.bind _ hP.stable (Does.adapt hP.stable (fun _ => (lasts_heard hP hle).stable)
    (does_putRevision (Nat.succ_pos parent.start) hP hle)) fun _ => ?_
  refine does_rest hP hle (.bind (.attempt (Resolver.all_resolve CouchReq.numbered_calls.toResolverCalls))
    fun r => ?_)
  cases r with
  | error e => exact Fallible.all_throw _
  | ok outcome =>
    exact .bind (.adapt (all_call (CouchReq.numbered_calls.getDoc _) _)) fun _ =>
      .bind (Push.all_orConflict _) fun _ => Fallible.all_pure _

/-- **What a refused write is turned into.** -/
theorem does_orBranch {x : Hub CouchError Rev} {change : PushChange} {deleted : Bool}
    {content : Option Bytes} {f : Rev → Hub ApplyError (Option Rev)} (hP : Lasts i hub P)
    (hle : ∀ s, P s → Within i hub s)
    (hx : HubDoes C i hub P x P fun _ s => P s ∧ Heard i hub change.path s)
    (hf : ∀ rev, Fallible.All (fun _ e => CouchReq.Numbered e) (f rev)) :
    HubDoes C i hub P (do
      match ← Fallible.attempt x with
      | .ok rev => f rev
      | .error (.revConflict _) => Push.branchAndResolve env change deleted content
      | .error e => throw (.couch e)) P fun _ s => P s ∧ Heard i hub change.path s := by
  refine Does.bind _ hP.stable (Does.attempt hP.stable (fun _ => (lasts_heard hP hle).stable) hx)
    fun r => ?_
  rcases r with (_ | _ | _ | _ | _) | rev
  · exact Does.throw hP.stable fun _ h => h
  · exact Does.throw hP.stable fun _ h => h
  · exact Does.throw hP.stable fun _ h => h
  · exact does_branchAndResolve hP hle
  · exact Does.throw hP.stable fun _ h => h
  · exact does_rest hP hle (hf rev)

/-- A deletion without a base is accepted where the hub serves nothing. -/
theorem does_getDoc_none (hP : Lasts i hub P) (hle : ∀ s, P s → Within i hub s)
    (hgone : ∀ s, P s → (s.store i).files.lookup path = none) :
    HubDoes C i hub P (Push.orCouch (CouchClient.getDoc path)) P fun doc s =>
      P s ∧ (doc = none → Heard i hub path s) := by
  have hM : ∀ doc : Option Doc, Lasts i hub fun s => P s ∧ (doc = none → Heard i hub path s) := by
    rintro doc s s' ⟨hs, hnone⟩ h
    refine ⟨hP hs h, fun hdoc => ?_⟩
    exact (lasts_heard hP hle ⟨hs, hnone hdoc⟩ h).2
  refine Does.adapt hP.stable (fun doc => (hM doc).stable) ?_
  have hreq : Triple (semantics C) Redelivers contract i P (.perform (.couch hub (.getDoc path)))
      fun r s => P s ∧ (CouchClient.orMissing none (r.map some) = .ok none →
        Heard i hub path s) := by
    refine triple_couch trivial (fun r => ?_) (fun s hs => ⟨hs, fun h => by cases h⟩)
      fun s hs _ => ?_
    · rintro s s' ⟨hs, hnone⟩ h
      exact ⟨hP hs h, fun hr => (lasts_heard hP hle ⟨hs, hnone hr⟩ h).2⟩
    · have honward : Onward i hub s ((semantics C).exec i (.couch hub (.getDoc path))
          .delivered s).2 := onward_couch (e := .getDoc path) trivial hub .delivered s
      refine ⟨hP hs honward, fun hr => ?_⟩
      have hvisible : ((s.net.hubs hub).docs path).visible = none := by
        rw [← Tree.doc?_eq_none]
        cases hdoc : ((s.net.hubs hub).docs path).doc? with
        | none => rfl
        | some doc =>
          simp only [Couch.answer, hdoc] at hr
          cases hr
      have hheard : Heard i hub path s := by
        refine .inr ?_
        rw [hgone s hs, Db.served, Tree.content?, Option.elim_none, hvisible]
        rfl
      rw [Heard, honward.checkpoint]
      exact hheard.onward honward (hle s hs)
  refine Triple.bind _ hreq fun r => ?_
  show Triple _ _ _ _ _ (.done (CouchClient.orMissing none (r.map some))) _
  cases hr : CouchClient.orMissing none (r.map some) with
  | error x => exact Triple.done (Q := Post P _) hP.stable fun s hs => hs.1
  | ok doc =>
    refine Triple.done (Q := Post P _) (hM doc).stable fun s hs => ⟨hs.1, fun hdoc => ?_⟩
    exact hs.2 (by rw [hdoc])

/-- **One change**: if it is acknowledged the hub has heard of its path. -/
theorem does_apply {change : PushChange} (hP : Lasts i hub P) (hle : ∀ s, P s → Within i hub s)
    (hgone : change.deleted = true → ∀ s, P s → (s.store i).files.lookup change.path = none) :
    HubDoes C i hub P (Push.apply env change) P fun _ s => P s ∧ Heard i hub change.path s := by
  unfold Push.apply
  split
  · rename_i hdel
    unfold Push.applyDelete
    split
    · refine Does.bind _ hP.stable (does_getDoc_none hP hle (hgone hdel)) fun doc => ?_
      cases doc with
      | none => exact Does.pure (lasts_heard hP hle).stable fun s hs => ⟨hs.1, hs.2 rfl⟩
      | some doc => exact Does.throw hP.stable fun s hs => hs.1
    · exact does_orBranch hP hle (does_deleteDoc hP hle) fun _ => Fallible.all_pure _
  · unfold Push.applyUpsert
    split
    · refine Does.bind (fun _ => P) hP.stable (Does.pure hP.stable fun _ h => h) fun content => ?_
      exact does_orBranch hP hle (does_putDoc hP hle) fun rev =>
        .bind (.adapt (CouchClient.all_putAttachment
          (CouchReq.numbered_calls.putAttachmentPush _ _ _))) fun _ => Fallible.all_pure _
    · exact Does.throw hP.stable fun _ h => h

/-- The hub has heard of every path of the batch. -/
def HeardAll (i : ι) (hub : HubId) (changes : List PushChange) (s : State ι) : Prop :=
  ∀ c ∈ changes, Heard i hub c.path s

omit [DecidableEq ι] in
theorem lasts_heardAll {changes : List PushChange} (hP : Lasts i hub P)
    (hle : ∀ s, P s → Within i hub s) : Lasts i hub fun s => P s ∧ HeardAll i hub changes s :=
  fun _ _ ⟨hs, hall⟩ h => ⟨hP hs h, fun c hc => (lasts_heard hP hle ⟨hs, hall c hc⟩ h).2⟩

/-- **The batch**, one change after another. -/
theorem does_postChanges {changes : List PushChange} (hP : Lasts i hub P)
    (hle : ∀ s, P s → Within i hub s) (hgone : ∀ c ∈ changes, c.deleted = true →
      ∀ s, P s → (s.store i).files.lookup c.path = none) :
    HubDoes C i hub P (Push.postChanges env changes) P fun results s =>
      (P s ∧ HeardAll i hub changes s) ∧ results.length = changes.length := by
  induction changes generalizing P with
  | nil => exact Does.pure ((lasts_heardAll hP hle).and fun _ _ h _ => h).stable fun s hs =>
      ⟨⟨hs, fun c hc => absurd hc List.not_mem_nil⟩, rfl⟩
  | cons change changes ih =>
    have hheard : Lasts i hub fun s => P s ∧ Heard i hub change.path s := lasts_heard hP hle
    have hone : HubDoes C i hub P (Push.applyOne env change) P fun _ s =>
        P s ∧ Heard i hub change.path s := by
      unfold Push.applyOne
      exact Does.bind _ hP.stable (Does.adapt hP.stable (fun _ => hheard.stable)
        (does_apply hP hle (hgone change List.mem_cons_self))) fun rev =>
          Does.pure hheard.stable fun _ h => h
    have hrest := ih hheard (fun s hs => hle s hs.1) fun c hc hd s hs =>
      hgone c (List.mem_cons_of_mem _ hc) hd s hs.1
    unfold Push.postChanges
    refine Does.bind _ hP.stable hone fun result => ?_
    refine Does.bind _ hP.stable (Does.mono hrest (fun _ h => h.1) fun _ _ h => h)
      fun results => ?_
    refine Does.pure ((lasts_heardAll hP hle).and fun _ _ h _ => h).stable fun s hs => ?_
    obtain ⟨⟨⟨hs, hfirst⟩, hall⟩, hlength⟩ := hs
    refine ⟨⟨hs, fun c hc => ?_⟩, by rw [List.length_cons, hlength, List.length_cons]⟩
    rcases List.mem_cons.1 hc with rfl | hc
    · exact hfirst
    · exact hall c hc

/-- **The push request**, there and back. -/
theorem does_hubPush {changes : List PushChange} (hP : Lasts i hub P)
    (hle : ∀ s, P s → Within i hub s) (hgone : ∀ c ∈ changes, c.deleted = true →
      ∀ s, P s → (s.store i).files.lookup c.path = none) :
    EngineDoes C env origin i P (SyncEngine.ask (.hubPush hub changes)) P fun results s =>
      ((P s ∧ HeardAll i hub changes s) ∧ results.length = changes.length) ∧ s.peer i = hub := by
  have hM : ∀ results : List PushResult, Lasts i hub fun s =>
      (P s ∧ HeardAll i hub changes s) ∧ results.length = changes.length := fun _ =>
    (lasts_heardAll hP hle).and fun _ _ h _ => h
  have hfacing : Lasts i hub fun s => s.peer i = hub := fun s s' hs h => h.peer hs
  refine Does.ask hP.stable (fun results => ((hM results).and hfacing).stable) ?_
  refine triple_overLink hP hP hM (fun _ h => h) (fun _ _ h => h.1.1) ?_
  exact Does.adapt hP.stable (fun results => (hM results).stable)
    (does_postChanges hP hle hgone)

/-! ## The device's part of it -/

variable {l : List PendingChange} {L : HubId → ℕ} {changes : List PushChange}

omit [DecidableEq ι] in
theorem Base.inside (hs : Base i l L s) : Within i hub s := hs.within hub

/-- What the batch has to do with the queue. -/
def Sends (l : List PendingChange) (changes : List PushChange) : Prop :=
  changes.map (fun c => (c.path, c.deleted)) = l.map fun c => (c.path, c.deleted)

theorem Sends.of_queued (h : Sends l changes) {c : PendingChange} (hc : c ∈ l) :
    ∃ change ∈ changes, change.path = c.path ∧ change.deleted = c.deleted := by
  have hmem : (c.path, c.deleted) ∈ changes.map fun c => (c.path, c.deleted) := by
    rw [h]
    exact List.mem_map.2 ⟨c, hc, rfl⟩
  obtain ⟨change, hchange, heq⟩ := List.mem_map.1 hmem
  exact ⟨change, hchange, congrArg Prod.fst heq, congrArg Prod.snd heq⟩

theorem Sends.of_sent (h : Sends l changes) {change : PushChange} (hc : change ∈ changes) :
    ∃ c ∈ l, c.path = change.path ∧ c.deleted = change.deleted := by
  have hmem : (change.path, change.deleted) ∈ l.map fun c => (c.path, c.deleted) := by
    rw [← h]
    exact List.mem_map.2 ⟨change, hc, rfl⟩
  obtain ⟨c, hl, heq⟩ := List.mem_map.1 hmem
  exact ⟨c, hl, congrArg Prod.fst heq, congrArg Prod.snd heq⟩

theorem does_buildPushChanges (ps : List PendingChange) (hP : Lasts i hub P) :
    EngineDoes C env origin i P (SyncEngine.buildPushChanges ps) P fun changes s =>
      P s ∧ Sends ps changes := by
  have hand : ∀ φ : Prop, Lasts i hub fun s => P s ∧ φ := fun φ => hP.and fun _ _ h _ => h
  induction ps with
  | nil => exact Does.pure (hand _).stable fun s hs => ⟨hs, rfl⟩
  | cons p ps ih =>
    have hone : EngineDoes C env origin i P (SyncEngine.buildPushChange p) P fun change s =>
        P s ∧ (change.path, change.deleted) = (p.path, p.deleted) := by
      unfold SyncEngine.buildPushChange
      split
      · rename_i hdel
        exact Does.pure (hand _).stable fun s hs => ⟨hs, by rw [hdel]⟩
      · rename_i hdel
        refine Does.bind _ hP.stable (does_quietly hP (SyncEngine.all_store trivial))
          fun content => ?_
        refine Does.bind _ hP.stable (does_quietly hP (SyncEngine.all_store trivial))
          fun stored => ?_
        exact Does.pure (hand _).stable fun s hs => ⟨hs, by simpa using hdel⟩
    unfold SyncEngine.buildPushChanges
    refine Does.bind _ hP.stable hone fun change => Triple.of_pure (fun s hs => hs.2) fun hone => ?_
    refine Does.bind _ hP.stable (Does.pre ih fun s hs => hs.1) fun changes => ?_
    refine Does.pure (hand _).stable fun s hs => ⟨hs.1, ?_⟩
    rw [Sends, List.map_cons, List.map_cons, hone, hs.2]

/-- **The queue may be emptied** once the hub the batch went to has heard of
all of it: the other hubs' checkpoints are not relied on for those paths. -/
theorem base_cleared {o : Delivery} (hs : Base i l L s)
    (hheard : ∀ c ∈ l, Heard i hub c.path s) (hpeer : s.peer i = hub) :
    Base i [] L ((semantics C).exec i (.store .sync (.metaPut keyPending (.queue []))) o s).2 := by
  set s' := ((semantics C).exec i (.store .sync (.metaPut keyPending (.queue []))) o s).2
  have hstore : s'.store i = ⟨(s.store i).blobs.insert keyPending (.queue []), (s.store i).files⟩ :=
    Function.update_self ..
  have hcheckpoint : ∀ k, s'.checkpoint i k = s.checkpoint i k := by
    intro k
    unfold State.checkpoint
    rw [hstore, AList.lookup_insert_ne (checkpointKey_ne_pending k)]
  have hpending : (s'.store i).pending = [] := by
    rw [hstore]
    simp [MemStore.pending, Blob.toQueue?]
  have haside : ∀ k, s'.aside i k =
      if k = hub then s.aside i k else l.map PendingChange.path ++ s.aside i k := by
    intro k
    refine (congrFun (Function.update_self ..) k).trans ?_
    have hkey : storesCheckpoint k (EngineReq.metaPut keyPending (.queue [])) = false :=
      decide_eq_false (pending_ne_checkpointKey k)
    simp only [State.asideAfter, hkey, hpeer, settles, hs.queue, Bool.false_eq_true, if_false,
      if_true]
  refine ⟨⟨hs.numbered, fun k => ?_, fun c hc => ?_, fun k p hsys _ => .inr ?_⟩, hpending,
    hs.reached⟩
  · rw [hcheckpoint]
    exact hs.within k
  · rw [hpending] at hc
    cases hc
  · have hupTo : UpTo i k (s.checkpoint i k) p s → UpTo i k (s'.checkpoint i k) p s' := by
      intro h
      rw [hcheckpoint, UpTo, hstore]
      exact h
    rw [haside]
    -- what was queued is in the next feed of this hub, and set aside for the others
    rcases hs.settled k p hsys id with ⟨c, hc, rfl⟩ | ha | hu
    · rw [hs.queue] at hc
      by_cases hk : k = hub
      · subst hk
        exact .inr (hupTo (hheard c hc))
      · rw [if_neg hk]
        exact .inl (List.mem_append_left _ (List.mem_map.2 ⟨c, hc, rfl⟩))
    · refine .inl ?_
      split
      · exact ha
      · exact List.mem_append_right _ ha
    · exact .inr (hupTo hu)

theorem does_pushTo (hsends : Sends l changes) :
    EngineDoes C env .sync i (Base i l L) (SyncEngine.pushTo l changes hub) (Base i l L) fun _ =>
      Base i [] L := by
  have hpush : EngineDoes C env .sync i (Base i l L) (SyncEngine.ask (.hubPush hub changes))
      (Base i l L) fun results s => ((Base i l L s ∧ HeardAll i hub changes s) ∧
        results.length = changes.length) ∧ s.peer i = hub := by
    refine does_hubPush lasts_base (fun s hs => hs.inside) fun change hchange hd s hs => ?_
    obtain ⟨c, hc, hpath, hdel⟩ := hsends.of_sent hchange
    rw [← hpath]
    exact hs.gone c (hs.queue ▸ hc) (hdel.trans hd) id
  have hbase : ∀ l, Lasts i hub (Base i l L) := fun l => lasts_base
  have hfacing : Lasts i hub fun s => s.peer i = hub := fun s s' hs h => h.peer hs
  have hready : Lasts i hub fun s => (Base i l L s ∧ HeardAll i hub changes s) ∧ s.peer i = hub :=
    (lasts_heardAll lasts_base fun s hs => hs.inside).and hfacing
  unfold SyncEngine.pushTo
  refine Does.bind _ (hbase l).stable hpush fun results =>
    Triple.of_pure (fun s hs => hs.1.2) fun hlength => ?_
  refine Does.bind (fun _ s => (Base i l L s ∧ HeardAll i hub changes s) ∧ s.peer i = hub)
    (hbase l).stable (Does.mono (Does.pre (does_quietly hready
      (SyncEngine.all_bumpRevs (fun _ => trivial) quiet_fileMeta _ _)) fun s hs => ⟨hs.1.1, hs.2⟩)
        (fun s hs => hs.1.1) fun _ _ h => h) fun pushed => ?_
  dsimp only
  rw [if_pos hlength]
  refine Does.bind (fun _ => Base i [] L) (hbase l).stable
    (does_store rfl (fun t => ⟨(), rfl⟩) (hbase l) (fun _ => hbase []) fun o s hs _ _ => ?_)
      fun _ => does_pure (hbase []) fun _ h => h
  refine base_cleared hs.1.1 (fun c hc => ?_) hs.2
  obtain ⟨change, hchange, hpath, -⟩ := hsends.of_queued hc
  exact hpath ▸ hs.1.2 change hchange

/-- **A push that succeeds leaves nothing queued.** -/
theorem does_push : EngineDoes C env .sync i (Base i l L) eng.push (Base i l L) fun _ =>
    Base i [] L := by
  have hbase : Lasts i "" (Base i l L) := lasts_base
  have hnotify : ∀ e, Triple (semantics C) Redelivers contract i (Base i l L)
      (NetReq.opened env .sync (.notifyError e)) fun _ => Base i l L := fun e =>
    triple_quiet trivial hbase
  have hcleared : Lasts i "" (Base i [] L) := lasts_base
  unfold SyncEngine.push
  refine Does.bind (fun pending s => Base i l L s ∧ (s.store i).pending = pending) hbase.stable
    (SyncEngine.does_report hbase.stable (fun pending => ?_) hnotify (does_loadPending hbase hbase))
      fun pending => Triple.of_pure (fun s hs => hs.1.queue.symm.trans hs.2) ?_
  · exact (hbase.and fun s s' hs h => h.pending.trans hs).stable
  rintro rfl
  split
  · rename_i hempty
    rw [List.isEmpty_iff] at hempty
    exact does_pure hcleared fun s hs => hempty ▸ hs.1
  refine Does.bind (fun changes s => Base i l L s ∧ Sends l changes) hbase.stable
    (SyncEngine.does_report hbase.stable (fun changes => (hbase.and fun _ _ h _ => h).stable) hnotify
      (Does.pre (does_buildPushChanges l hbase) fun s hs => hs.1)) fun changes =>
        Triple.of_pure (fun s hs => hs.2) fun hsends => ?_
  exact Does.pre (SyncEngine.does_failover hbase.stable (fun _ => hcleared.stable) hnotify
    (fun hub => does_pushTo hsends) _ _) fun s hs => hs.1

end Tracking

end FileSync
