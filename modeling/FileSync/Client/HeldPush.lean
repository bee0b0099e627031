import FileSync.Client.HeldContent
/-!
# A push and what the device has held

What a push is answered for an upsert is the revision its own write made,
which shows the content that was sent, or one that was only read back. So
the revisions it adopts are accounted for.
-/

namespace FileSync

namespace HeldContent

variable {ι : Type} [DecidableEq ι] {C : Couch} {env : HubEnv} {eng : SyncEngine}
  {origin : Origin} {i : ι} {hub : HubId} {s s' : State ι} {path : Path} {rev : Rev}
  {but : Path → Prop} {α β ε ε' : Type} {P Q B : State ι → Prop} {M : α → State ι → Prop}

/-! ## The hub's part of a push -/

/-- A change may be sent: the path has held its content, and had held what
its base shows when it was recorded. -/
structure Sendable (i : ι) (hub : HubId) (change : PushChange) (s : State ι) : Prop where
  content : ∀ bytes, (change.contentBase64.getD .empty).decode = .ok bytes →
    bytes ∈ s.had i change.path
  base : ∀ r ∈ change.baseRev, Shows hub change.path r (s.before i change.path) s

omit [DecidableEq ι] in
theorem Sendable.forward {change : PushChange} (hs : Sendable i hub change s)
    (h : Forward i hub s s') : Sendable i hub change s' := by
  refine ⟨fun bytes hb => ?_, fun r hr => ?_⟩
  · rw [h.had]
    exact hs.content bytes hb
  · rw [h.before]
    exact (hs.base r hr).onward (h.docs _) (List.Subset.refl _)

omit [DecidableEq ι] in
theorem lasts_accounted {rev : Option Rev} : Lasts i hub (Accounted i hub path rev) :=
  fun _ _ hs h => hs.forward h.toForward

omit [DecidableEq ι] in
theorem shows_of_find? {contents : List Bytes} {n : Node}
    (hn : (s.tree hub path).find? rev = some n) (h : ∀ a ∈ n.content, a.data ∈ contents) :
    Shows hub path rev contents s := by
  refine ⟨by rw [hn]; rfl, fun bytes hbytes => ?_⟩
  simp only [Tree.content?, Option.elim_some, hn, Option.bind_some, Option.mem_def,
    Option.map_eq_some_iff] at hbytes
  obtain ⟨a, ha, rfl⟩ := hbytes
  exact h a ha

/-- **A write on the base**: if it is accepted, what the base shows had been
held. -/
theorem does_putDoc {base : Option Rev} {body : Body} (hP : Lasts i hub P)
    (hbase : ∀ s, P s → ∀ r ∈ base, Shows hub path r (s.before i path) s) :
    HubDoes C hub false i P (CouchClient.putDoc .push path base body) P fun _ => P := by
  refine Does.ask hP.stable (fun _ => hP.stable) (Triple.perform
    (stable_post hP.stable fun _ => hP.stable) fun o s hs _ =>
      ⟨guar_exec o s fun w hw bytes hb => ?_, ?_⟩)
  · cases base with
    | none => exact absurd hw List.not_mem_nil
    | some r =>
      simp only [State.overwritten] at hw
      split at hw
      · obtain rfl := List.mem_singleton.1 hw
        exact (hbase s hs r rfl).2 bytes hb
      · exact absurd hw List.not_mem_nil
  · have hlater := hP hs (onward_couch (C := C) (b := false) (e := .putDoc .push path base body)
      hub o s)
    cases ((semantics C).exec i ⟨false, .couch hub (.putDoc .push path base body)⟩ o s).1 with
    | ok r => exact hlater
    | error x => exact hlater

/-- What a request leaves of a document. -/
theorem tree_after {b : Bool} {e : CouchReq β} (s : State ι) (p : Path) :
    ((semantics C).exec i ⟨b, .couch hub e⟩ .delivered s).2.tree hub p =
      (C.answer e (s.net.hubs hub)).2.docs p := by
  show (Function.update s.net.hubs hub _ hub).docs p = _
  rw [Function.update_self]

/-- **The revision of an accepted upsert** shows what was sent. -/
theorem does_putAttachment {contentType : String} {bytes : Bytes} (hP : Lasts i hub P)
    (hhad : ∀ s, P s → bytes ∈ s.had i path) :
    HubDoes C hub false i P (CouchClient.putAttachment .push path rev contentType bytes) P
      fun rev s => P s ∧ Accounted i hub path (some rev) s := by
  have hM : ∀ rev, Lasts i hub fun s => P s ∧ Accounted i hub path (some rev) s := fun _ =>
    hP.and lasts_accounted
  have hlater : ∀ o s, P s → P ((semantics C).exec i ⟨false, .couch hub
      (.putAttachment .push path rev ⟨contentType, bytes⟩)⟩ o s).2 := fun o s hs =>
    hP hs (onward_couch hub o s)
  unfold CouchClient.putAttachment
  split
  case isFalse => exact Does.throw hP.stable fun _ h => h
  refine Does.ask hP.stable (fun r => (hM r).stable) (triple_couch trivial
    (stable_post hP.stable fun r => (hM r).stable) (fun o s hs => hlater o s hs) fun s hs => ?_)
  have hshown : ((semantics C).exec i ⟨false, .couch hub
      (.putAttachment .push path rev ⟨contentType, bytes⟩)⟩ .delivered s).2.tree hub path = _ :=
    tree_after s path
  -- the new revision shows the bytes that are sent, which the device has had
  cases hleaf : (s.tree hub path).leaf? rev with
  | none =>
    have hanswer : (C.answer (.putAttachment .push path rev ⟨contentType, bytes⟩)
        (s.net.hubs hub)).1 = .error Couch.conflict := by
      simp only [Couch.answer, hleaf]
    rw [hanswer]
    exact hlater .delivered s hs
  | some p =>
    have hanswer : C.answer (.putAttachment .push path rev ⟨contentType, bytes⟩)
        (s.net.hubs hub) = (s.net.hubs hub).accept path
          (C.child (s.tree hub path) (some p) p.deleted p.body (some ⟨contentType, bytes⟩)) := by
      simp only [Couch.answer, hleaf]
    rw [hanswer] at hshown ⊢
    refine ⟨hlater .delivered s hs, fun r hr => .inr ?_⟩
    obtain rfl := Option.some.inj hr
    rw [Db.accept, Db.write_docs_self] at hshown
    refine shows_of_find? (by rw [hshown]; exact Couch.find?_append_child) fun a ha => ?_
    obtain rfl := Option.some.inj ha
    have hhad' : ((semantics C).exec i ⟨false, .couch hub
        (.putAttachment .push path rev ⟨contentType, bytes⟩)⟩ .delivered s).2.had i = s.had i :=
      Function.update_self ..
    rw [hhad']
    exact hhad s hs

/-- **A revision read back** is named. -/
theorem does_readBack (hP : Lasts i hub P) :
    HubDoes C hub false i P (CouchClient.getDoc path) P fun doc s =>
      P s ∧ Accounted i hub path (doc.map Doc.rev) s := by
  refine Does.mono (does_getDoc (N := fun r s => (path, r) ∈ s.named i) hP
    (fun r s s' hs h => h.1.named hs) fun s hs w hvis => ?_) (fun _ h => h)
      fun doc s hs => ⟨hs.1, fun r hr => ?_⟩
  · rw [named_exec]
    refine List.mem_append_right _ ?_
    simp only [State.names, hvis, Option.map_some, Option.toList_some, List.mem_singleton]
  · obtain ⟨d, hd, rfl⟩ := Option.map_eq_some_iff.1 hr
    exact .inl (hs.2 d hd)

/-- Of the hub's requests only an upsert's first write is conditional on a
base. -/
theorem plain_calls (hub : HubId) : ResolverCalls fun _ e => Plain (.couch hub e) where
  getDoc _ := trivial
  getDocAtRev _ _ := trivial
  getAttachment _ _ := trivial
  openRevs _ := trivial
  putDoc _ _ _ := trivial
  putAttachment _ _ _ := trivial
  deleteDoc _ _ := trivial

/-- **What a stale push is answered** is a revision that was read back. -/
theorem does_branchAndResolve {change : PushChange} {deleted : Bool} {content : Option Bytes}
    (hP : Lasts i hub P) :
    HubDoes C hub false i P (Push.branchAndResolve env change deleted content) P fun rev s =>
      P s ∧ Accounted i hub change.path rev s := by
  have hM : ∀ rev : Option Rev, Lasts i hub fun s => P s ∧ Accounted i hub change.path rev s :=
    fun _ => hP.and lasts_accounted
  refine Does.bind _ hP.stable (does_plainly hP
    (Push.all_branchParent (plain_calls hub).toReadCalls change)) fun parent => ?_
  refine Does.bind (fun _ => P) hP.stable
    (does_plainly hP (.adapt (all_call trivial _))) fun _ => ?_
  refine Does.bind (fun _ => P) hP.stable
    (does_plainly hP (.attempt (Resolver.all_resolve (plain_calls hub)))) fun r => ?_
  cases r with
  | error e => exact Does.throw hP.stable fun _ h => h
  | ok outcome =>
    refine Does.bind _ hP.stable (Does.adapt hP.stable (fun doc => (hM _).stable)
      (does_readBack hP)) fun doc => ?_
    cases doc with
    | none => exact Does.throw hP.stable fun _ h => h.1
    | some winner => exact Does.pure (hM _).stable fun _ h => h

/-- **One change**: what is answered for an upsert is accounted for. -/
theorem does_apply {change : PushChange} (hP : Lasts i hub P)
    (hsend : change.deleted = false → ∀ s, P s → Sendable i hub change s) :
    HubDoes C hub false i P (Push.apply env change) P fun rev s =>
      P s ∧ (change.deleted = false → Accounted i hub change.path rev s) := by
  have hM : ∀ rev : Option Rev, Lasts i hub fun s => P s ∧ Accounted i hub change.path rev s :=
    fun _ => hP.and lasts_accounted
  unfold Push.apply
  split
  · rename_i hdel
    refine Does.mono (does_plainly hP (Push.all_applyDelete (plain_calls hub) (fun _ _ => trivial)
      (fun _ _ _ _ => trivial) change)) (fun _ h => h) fun rev s hs => ⟨hs, fun hd => ?_⟩
    rw [hdel] at hd
    cases hd
  rename_i hdel
  have hready : ∀ s, P s → Sendable i hub change s := hsend (by simpa using hdel)
  refine Does.mono (M := fun rev s => P s ∧ Accounted i hub change.path rev s) ?_ (fun _ h => h)
    fun rev s hs => ⟨hs.1, fun _ => hs.2⟩
  unfold Push.applyUpsert
  cases hcontent : (change.contentBase64.getD .empty).decode with
  | error e => exact Does.throw hP.stable fun _ h => h
  | ok content =>
    have hsame : ∀ bytes, Lasts i hub fun s => P s ∧ bytes = content := fun _ =>
      hP.and fun _ _ h _ => h
    refine Does.bind (fun bytes s => P s ∧ bytes = content) hP.stable
      (Does.pure (hsame _).stable fun _ h => ⟨h, rfl⟩) fun bytes => ?_
    refine Triple.of_pure (φ := bytes = content) (fun _ h => h.2) fun hbytes => ?_
    subst hbytes
    refine Does.pre (P := P) ?_ fun _ h => h.1
    refine Does.bind _ hP.stable (Does.attempt hP.stable (fun _ => hP.stable)
      (does_putDoc hP fun s hs => (hready s hs).base)) fun r => ?_
    rcases r with (_ | _ | _ | _ | _) | rev
    · exact Does.throw hP.stable fun _ h => h
    · exact Does.throw hP.stable fun _ h => h
    · exact Does.throw hP.stable fun _ h => h
    · exact does_branchAndResolve hP
    · exact Does.throw hP.stable fun _ h => h
    · refine Does.bind _ hP.stable (Does.adapt hP.stable (fun rev => (hM (some rev)).stable)
        (does_putAttachment hP fun s hs => (hready s hs).content _ hcontent)) fun rev => ?_
      exact Does.pure (hM (some rev)).stable fun _ h => h

/-- Every revision answered for an upsert is accounted for. -/
def Answered (i : ι) (hub : HubId) (changes : List PushChange) (results : List PushResult)
    (s : State ι) : Prop :=
  List.Forall₂ (fun change result => change.deleted = false →
    Accounted i hub change.path result.rev s) changes results

omit [DecidableEq ι] in
theorem lasts_answered {changes : List PushChange} {results : List PushResult} :
    Lasts i hub (Answered i hub changes results) := fun _ _ hs h =>
  hs.imp fun _ _ hone hd => (hone hd).forward h.toForward

/-- **The batch**, one change after another. -/
theorem does_postChanges {changes : List PushChange} (hP : Lasts i hub P)
    (hsend : ∀ c ∈ changes, c.deleted = false → ∀ s, P s → Sendable i hub c s) :
    HubDoes C hub false i P (Push.postChanges env changes) P fun results s =>
      P s ∧ Answered i hub changes results s := by
  induction changes generalizing P with
  | nil => exact Does.pure (hP.and lasts_answered).stable fun s hs => ⟨hs, .nil⟩
  | cons change changes ih =>
    have hone : ∀ result : PushResult, Lasts i hub fun s =>
        P s ∧ (change.deleted = false → Accounted i hub change.path result.rev s) := fun result =>
      hP.and fun s s' hs h hd => (hs hd).forward h.toForward
    have hfirst : HubDoes C hub false i P (Push.applyOne env change) P fun result s =>
        P s ∧ (change.deleted = false → Accounted i hub change.path result.rev s) := by
      unfold Push.applyOne
      exact Does.bind _ hP.stable (Does.adapt hP.stable
        (fun rev => (hone ⟨change.path, rev⟩).stable)
        (does_apply hP (hsend change List.mem_cons_self))) fun rev =>
          Does.pure (hone ⟨change.path, rev⟩).stable fun _ h => h
    unfold Push.postChanges
    refine Does.bind _ hP.stable hfirst fun result => ?_
    refine Does.bind _ hP.stable (Does.mono (ih (hone result) fun c hc hd s hs =>
      hsend c (List.mem_cons_of_mem _ hc) hd s hs.1) (fun _ h => h.1) fun _ _ h => h)
        fun results => ?_
    exact Does.pure (hP.and lasts_answered).stable fun s hs => ⟨hs.1.1, .cons hs.1.2 hs.2⟩

/-- **The push request**, there and back. -/
theorem does_hubPush {changes : List PushChange} (hP : Lasts i hub P)
    (hsend : ∀ c ∈ changes, c.deleted = false → ∀ s, P s → Sendable i hub c s) :
    EngineDoes C env hub origin i P (SyncEngine.ask (.hubPush hub changes)) P fun results s =>
      P s ∧ Answered i hub changes results s := by
  have hM : ∀ results, Lasts i hub fun s => P s ∧ Answered i hub changes results s := fun _ =>
    hP.and lasts_answered
  refine Does.ask hP.stable (fun results => (hM results).stable) ?_
  refine triple_overLink hP hP hM (fun _ h => h) (fun _ _ h => h.1) ?_
  exact Does.adapt hP.stable (fun results => (hM results).stable) (does_postChanges hP hsend)

/-! ## The device's part of it -/

variable {l : List PendingChange} {changes : List PushChange} {results : List PushResult}

/-- What a push works on. -/
def Base (i : ι) (hub : HubId) (l : List PendingChange) (s : State ι) : Prop :=
  Keeps i hub (fun _ => False) s ∧ (s.store i).pending = l

omit [DecidableEq ι] in
theorem lasts_base : Lasts i hub (Base i hub l) :=
  lasts_keeps.and fun _ _ hs h => h.pending.trans hs

/-- The upserts among the changes may be sent. -/
def AllSendable (i : ι) (hub : HubId) (changes : List PushChange) (s : State ι) : Prop :=
  ∀ c ∈ changes, c.deleted = false → Sendable i hub c s

omit [DecidableEq ι] in
theorem lasts_allSendable : Lasts i hub (AllSendable i hub changes) := fun _ _ hs h c hc hd =>
  (hs c hc hd).forward h.toForward

/-- The change is the queued one. -/
def Carries (c : PendingChange) (change : PushChange) : Prop :=
  change.path = c.path ∧ change.deleted = c.deleted

/-- **A queued change as it is sent**: an upsert has its file, which the path
has held. -/
theorem does_buildPushChange {c : PendingChange} (hc : c ∈ l) (hP : Lasts i hub P)
    (hbase : ∀ s, P s → Base i hub l s) :
    EngineDoes C env hub origin i P (SyncEngine.buildPushChange c) P fun change s =>
      (P s ∧ AllSendable i hub [change] s) ∧ Carries c change := by
  have hM : ∀ change, Lasts i hub fun s =>
      (P s ∧ AllSendable i hub [change] s) ∧ Carries c change := fun _ =>
    (hP.and lasts_allSendable).and fun _ _ h _ => h
  unfold SyncEngine.buildPushChange
  split
  · rename_i hdel
    refine does_pure (hM _) fun s hs => ⟨⟨hs, fun change hchange hd => ?_⟩, rfl, hdel.symm⟩
    obtain rfl := List.mem_singleton.1 hchange
    cases hd
  rename_i hdel
  have hread : ∀ v : Option Bytes, Lasts i hub fun s => P s ∧ ∃ b ∈ v, b ∈ s.had i c.path :=
    fun v => hP.and fun s s' hs h => by rw [h.had]; exact hs
  refine Does.bind (fun v s => P s ∧ ∃ b ∈ v, b ∈ s.had i c.path) hP.stable
    (does_quiet trivial (fun _ => ⟨_, rfl⟩) hP hread ?_) fun v => ?_
  · rintro s hs v ⟨⟩
    obtain ⟨hkeeps, rfl⟩ := hbase s hs
    obtain ⟨b, hb⟩ := Option.isSome_iff_exists.1
      (hkeeps.present c hc (by simpa using hdel) id)
    exact ⟨hs, b, hb, hkeeps.files c.path b hb⟩
  refine Does.bind (fun _ s => P s ∧ ∃ b ∈ v, b ∈ s.had i c.path) hP.stable
    (does_quiet trivial (fun _ => ⟨_, rfl⟩) hP (fun _ => hread v) fun _ hs _ _ => hs)
      fun stored => ?_
  refine does_pure (hM _) fun s ⟨hs, b, hv, hb⟩ => ⟨⟨hs, fun change hchange _ => ?_⟩, rfl,
    by simpa using hdel⟩
  obtain rfl := List.mem_singleton.1 hchange
  obtain ⟨hkeeps, rfl⟩ := hbase s hs
  refine ⟨fun bytes hbytes => ?_, fun r hr => hkeeps.queued c hc (by simpa using hdel) r hr⟩
  obtain rfl := Option.mem_def.1 hv
  obtain rfl := Except.ok.inj hbytes
  exact hb

theorem does_buildPushChanges (ps : List PendingChange) (hps : ps ⊆ l) (hP : Lasts i hub P)
    (hbase : ∀ s, P s → Base i hub l s) :
    EngineDoes C env hub origin i P (SyncEngine.buildPushChanges ps) P fun changes s =>
      (P s ∧ AllSendable i hub changes s) ∧ List.Forall₂ Carries ps changes := by
  have hM : ∀ changes qs, Lasts i hub fun s =>
      (P s ∧ AllSendable i hub changes s) ∧ List.Forall₂ Carries qs changes := fun _ _ =>
    (hP.and lasts_allSendable).and fun _ _ h _ => h
  induction ps generalizing P with
  | nil => exact does_pure (hM [] []) fun s hs => ⟨⟨hs, fun c hc => absurd hc List.not_mem_nil⟩, .nil⟩
  | cons c ps ih =>
    refine Does.bind _ hP.stable (does_buildPushChange (hps List.mem_cons_self) hP hbase)
      fun change => ?_
    have hone : Lasts i hub fun s => (P s ∧ AllSendable i hub [change] s) ∧ Carries c change :=
      (hP.and lasts_allSendable).and fun _ _ h _ => h
    refine Does.bind _ hP.stable (Does.mono (ih (fun q hq => hps (List.mem_cons_of_mem _ hq)) hone
      (fun s hs => hbase s hs.1.1) fun _ _ => (hone.and lasts_allSendable).and fun _ _ h _ => h)
        (fun _ h => h.1.1) fun _ _ h => h) fun changes => ?_
    refine does_pure (hM _ _) fun s ⟨⟨⟨⟨hs, hfirst⟩, hcarries⟩, hall⟩, hrest⟩ =>
      ⟨⟨hs, fun d hd hdel => ?_⟩, .cons hcarries hrest⟩
    rcases List.mem_cons.1 hd with rfl | hd
    · exact hfirst d List.mem_cons_self hdel
    · exact hall d hd hdel

/-- What the answers name for queued upserts is accounted for. -/
def Known (i : ι) (hub : HubId) (pairs : List (PendingChange × PushResult)) (s : State ι) : Prop :=
  ∀ x ∈ pairs, x.1.deleted = false → Accounted i hub x.1.path x.2.rev s

omit [DecidableEq ι] in
theorem Known.forward {pairs : List (PendingChange × PushResult)} (hs : Known i hub pairs s)
    (h : Forward i hub s s') : Known i hub pairs s' := fun x hx hd => (hs x hx hd).forward h

omit [DecidableEq ι] in
theorem lasts_known {pairs : List (PendingChange × PushResult)} : Lasts i hub (Known i hub pairs) :=
  fun _ _ hs h => hs.forward h.toForward

omit [DecidableEq ι] in
theorem known_of_answered (hcarries : List.Forall₂ Carries l changes)
    (h : Answered i hub changes results s) : Known i hub (l.zip results) s := by
  induction hcarries generalizing results with
  | nil => exact fun x hx => absurd hx (by simp)
  | cons hc _ ih =>
    cases h with
    | cons hone hrest =>
      intro x hx hd
      rw [List.zip_cons_cons] at hx
      rcases List.mem_cons.1 hx with rfl | hx
      · obtain ⟨hpath, hdel⟩ := hc
        dsimp only at hd ⊢
        rw [← hpath]
        exact hone (hdel.trans hd)
      · exact ih hrest x hx hd

/-- Nothing is left out. -/
abbrev KeepsAll (i : ι) (hub : HubId) : State ι → Prop := Keeps i hub fun _ => False

theorem forward_metaPut {key : String} {value : Blob} (o : Delivery) (s : State ι) :
    Forward i hub s ((semantics C).exec i ⟨false, .store origin (.metaPut key value)⟩ o s).2 :=
  forward_exec o s rfl (by cases origin <;> rfl)

/-- **Metadata is stored** with a revision that is accounted for. -/
theorem keeps_fileMeta {m : FileMeta} {o : Delivery} (hs : Keeps i hub but s)
    (hm : Accounted i hub path m.rev s) : Keeps i hub but ((semantics C).exec i
      ⟨false, .store origin (.metaPut (fileKey path) (.fileMeta m))⟩ o s).2 := by
  have hstore : ((semantics C).exec i ⟨false, .store origin (.metaPut (fileKey path)
      (.fileMeta m))⟩ o s).2.store i =
        ⟨(s.store i).blobs.insert (fileKey path) (.fileMeta m), (s.store i).files⟩ :=
    Function.update_self ..
  refine hs.forward (forward_metaPut o s) (by rw [hstore]) ?_ fun p m' hm' => ?_
  · rw [hstore]
    unfold MemStore.pending
    rw [AList.lookup_insert_ne (pending_ne_fileKey path)]
  · rw [hstore] at hm'
    by_cases hp : p = path
    · subst hp
      unfold MemStore.fileMeta? at hm'
      rw [AList.lookup_insert] at hm'
      obtain rfl := Option.some.inj hm'
      exact .inr hm
    · unfold MemStore.fileMeta? at hm'
      rw [AList.lookup_insert_ne (by simpa using hp)] at hm'
      exact .inl hm'

theorem opened_metaPut {key : String} {value : Blob} : opened env origin (.metaPut key value) =
    .perform ⟨false, .store origin (.metaPut key value)⟩ := rfl

/-- Adopting a revision. -/
theorem does_bumpRev {rev : Option Rev} {pairs : List (PendingChange × PushResult)} :
    EngineDoes C env hub origin i
      (fun s => (KeepsAll i hub s ∧ Known i hub pairs s) ∧ Accounted i hub path rev s)
      (SyncEngine.bumpRev path rev) (KeepsAll i hub) fun _ s =>
        KeepsAll i hub s ∧ Known i hub pairs s := by
  have hkeeps : Lasts i hub (KeepsAll i hub) := lasts_keeps
  have hknown : Lasts i hub fun s => KeepsAll i hub s ∧ Known i hub pairs s :=
    hkeeps.and lasts_known
  have hP : Lasts i hub fun s =>
      (KeepsAll i hub s ∧ Known i hub pairs s) ∧ Accounted i hub path rev s :=
    hknown.and lasts_accounted
  unfold SyncEngine.bumpRev
  refine Does.bind _ hkeeps.stable (does_quiet trivial (fun _ => ⟨_, rfl⟩) hkeeps (fun _ => hP)
    fun _ hs _ _ => hs) fun bytes => ?_
  cases bytes with
  | none => exact does_pure hknown fun _ h => h.1
  | some bytes =>
    dsimp only
    cases bytes.toFileMeta? with
    | none => exact Does.throw hkeeps.stable fun _ h => h.1.1
    | some stored =>
      refine does_store opened_metaPut (fun _ => ⟨_, rfl⟩) hkeeps (fun _ => hknown)
        fun o s ⟨⟨hs, hpairs⟩, hrev⟩ _ _ _ => ?_
      exact ⟨keeps_fileMeta hs hrev, hpairs.forward (forward_metaPut o s)⟩

theorem does_bumpRevs (pairs : List (PendingChange × PushResult)) (pushed : ℕ) :
    EngineDoes C env hub origin i (fun s => KeepsAll i hub s ∧ Known i hub pairs s)
      (SyncEngine.bumpRevs pairs pushed) (KeepsAll i hub) fun _ => KeepsAll i hub := by
  have hkeeps : Lasts i hub (KeepsAll i hub) := lasts_keeps
  induction pairs generalizing pushed with
  | nil => exact does_pure hkeeps fun _ h => h.1
  | cons x pairs ih =>
    obtain ⟨change, result⟩ := x
    have hrest : ∀ s, Known i hub ((change, result) :: pairs) s → Known i hub pairs s :=
      fun s h y hy => h y (List.mem_cons_of_mem _ hy)
    unfold SyncEngine.bumpRevs
    split
    · rename_i hdel
      refine Does.bind _ hkeeps.stable (Does.pre does_bumpRev fun s hs =>
        ⟨⟨hs.1, hrest s hs.2⟩, hs.2 _ List.mem_cons_self (by simpa using hdel)⟩) fun _ => ih _
    · exact Does.pre (ih _) fun s hs => ⟨hs.1, hrest s hs.2⟩

/-- The queue is emptied. -/
theorem keeps_clear {o : Delivery} (hs : KeepsAll i hub s) : KeepsAll i hub ((semantics C).exec i
    ⟨false, .store origin (.metaPut keyPending (.queue []))⟩ o s).2 := by
  set s' := ((semantics C).exec i ⟨false, .store origin (.metaPut keyPending (.queue []))⟩ o s).2
  have hforward : Forward i hub s s' := forward_metaPut o s
  have hstore : s'.store i = ⟨(s.store i).blobs.insert keyPending (.queue []), (s.store i).files⟩ :=
    Function.update_self ..
  have hpending : (s'.store i).pending = [] := by
    rw [hstore]
    simp [MemStore.pending, Blob.toQueue?]
  refine ⟨fun p => ?_, fun p => ?_, fun p m hm => ?_, fun c hc => ?_, fun c hc => ?_⟩
  · rw [hstore, hforward.had]
    exact hs.files p
  · rw [hforward.before, hforward.had]
    exact hs.before p
  · rw [hstore] at hm
    unfold MemStore.fileMeta? at hm
    rw [AList.lookup_insert_ne (fileKey_ne_pending p)] at hm
    exact (hs.synced p m hm).forward hforward
  · rw [hpending] at hc
    exact absurd hc List.not_mem_nil
  · rw [hpending] at hc
    exact absurd hc List.not_mem_nil

theorem does_pushTo (hcarries : List.Forall₂ Carries l changes) :
    EngineDoes C env hub origin i (fun s => Base i hub l s ∧ AllSendable i hub changes s)
      (SyncEngine.pushTo l changes hub) (fun s => KeepsAll i hub s)
      fun _ => KeepsAll i hub := by
  have hkeeps : Lasts i hub (KeepsAll i hub) := lasts_keeps
  have hP : Lasts i hub fun s => Base i hub l s ∧ AllSendable i hub changes s :=
    lasts_base.and lasts_allSendable
  unfold SyncEngine.pushTo
  refine Does.bind _ hkeeps.stable (Does.mono (does_hubPush hP fun c hc hd s hs => hs.2 c hc hd)
    (fun _ h => h.1.1) fun _ _ h => h) fun results => ?_
  refine Does.bind _ hkeeps.stable (Does.pre (does_bumpRevs _ _) fun s hs =>
    ⟨hs.1.1.1, known_of_answered hcarries hs.2⟩) fun pushed => ?_
  dsimp only
  split
  · refine Does.bind (fun _ => KeepsAll i hub) hkeeps.stable (does_store opened_metaPut
      (fun _ => ⟨_, rfl⟩) hkeeps (fun _ => hkeeps) fun o s hs _ _ _ => keeps_clear hs) fun _ => ?_
    exact does_pure hkeeps fun _ h => h
  · exact does_pure hkeeps fun _ h => h

/-- **A push**, accepted or stale, leaves every revision accounted for. -/
theorem does_push {notifier : Bool} :
    EngineDoes C env hub origin i (KeepsAll i hub) (SyncEngine.push ⟨[hub], notifier⟩)
      (KeepsAll i hub) fun _ => KeepsAll i hub := by
  have hkeeps : Lasts i hub (KeepsAll i hub) := lasts_keeps
  have hnotify : ∀ {Q : State ι → Prop}, Lasts i hub Q → ∀ e, Triple (semantics C)
      (RecordsOnHeld hub) (contract hub) i Q (opened env origin (.notifyError e)) fun _ => Q :=
    fun hQ e => triple_quiet (e := .notifyError e) trivial hQ
  unfold SyncEngine.push
  refine Does.bind _ hkeeps.stable (SyncEngine.does_report hkeeps.stable
    (fun l => (hkeeps.and fun _ _ hs h => h.pending.trans hs).stable) (hnotify hkeeps)
      (does_loadPending hkeeps hkeeps)) fun l => ?_
  have hbase : Lasts i hub (Base i hub l) := lasts_base
  refine Does.pre (P := Base i hub l) ?_ fun _ h => h
  split
  · exact does_pure hkeeps fun s hs => hs.1
  have hM : ∀ changes, Lasts i hub fun s =>
      (Base i hub l s ∧ AllSendable i hub changes s) ∧ List.Forall₂ Carries l changes := fun _ =>
    (hbase.and lasts_allSendable).and fun _ _ h _ => h
  refine Does.bind _ hkeeps.stable (Does.mono (SyncEngine.does_report hbase.stable
    (fun changes => (hM changes).stable) (hnotify hbase)
      (does_buildPushChanges l (List.Subset.refl _) hbase fun _ h => h))
        (fun _ h => h.1) fun _ _ h => h) fun changes => ?_
  refine Triple.of_pure (φ := List.Forall₂ Carries l changes) (fun _ h => h.2) fun hcarries => ?_
  exact Does.pre (SyncEngine.does_failover_one hkeeps.stable (fun _ => hkeeps.stable)
    (hnotify hkeeps) (does_pushTo hcarries) none) fun s hs => hs.1

end HeldContent

end FileSync
