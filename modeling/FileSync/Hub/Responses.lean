import FileSync.Hub.Calls
import FileSync.Hub.Tree
import FileSync.Model.Network
import FileSync.Common.Interleave
/-!
# A file response and its revision

`GET /file` reads the document, and then the attachment of whichever revision
is visible by then. A response's revision, time and content type are the
first read's; its bytes are that revision's too exactly where the revision
visible at the second read has none, or is the one read before, or has the
same bytes.
-/

namespace FileSync

/-- A request the hub is at work on. -/
inductive Request
  | getFile (path : Path)
  | postChanges (changes : List PushChange)
  | resolve (path : Path)
deriving DecidableEq, Repr

/-- Its handler, and the file it answers with, if any. -/
def Request.handler (env : HubEnv) : Request → Prog CouchReq (Option FileContent)
  | .getFile path => (Routes.getFile path).run >>= fun r => .done r.toOption
  | .postChanges changes => (Push.postChanges env changes).run >>= fun _ => .done none
  | .resolve path => (Resolver.resolve env path).run >>= fun _ => .done none

/-- The hub's documents, and for each handler the document it read last. -/
structure Working (ι : Type) where
  db : Db
  doc : ι → Option Doc

namespace Working

variable {ι : Type} [DecidableEq ι]

/-- The document a request reads. -/
def docRead ⦃β : Type⦄ : CouchReq β → Db → Option Doc
  | .getDoc id, db => (db.docs id).doc?
  | _, _ => none

/-- A request that gets to the hub's database, its answer coming back or
not. -/
def exec (C : Couch) (i : ι) ⦃β : Type⦄ (e : CouchReq β) (o : Delivery) (s : Working ι) :
    β × Working ι :=
  match o with
  | .delivered => ((C.answer e s.db).1,
      ⟨(C.answer e s.db).2, Function.update s.doc i ((docRead e s.db).or (s.doc i))⟩)
  | .unanswered => (e.lost, { s with db := (C.answer e s.db).2 })
  | .unsent => (e.lost, s)

/-- The handlers' requests in any order, and between them revisions that come
from another hub. -/
def semantics (C : Couch) : Semantics ι CouchReq Delivery BranchDoc (Working ι) where
  exec i _ e o s := exec C i e o s
  env doc s := { s with db := (C.answer (.bulkDocs doc) s.db).2 }

/-- The hub before anything is stored. -/
def start (env : HubEnv) (requests : ι → Request) :
    Config ι CouchReq (Option FileContent) (Working ι) :=
  ⟨fun i => (requests i).handler env, ⟨.empty, fun _ => none⟩⟩

end Working

namespace Routes

/-- The visible revision, where it has a content, is the one that was read,
or has its bytes. -/
def Unmoved (t : Tree) (doc : Doc) : Prop :=
  ∀ w, t.visible = some w → ∀ a, w.content = some a →
    w.rev = doc.rev ∨ t.content? (some doc.rev) = some a.data

/-- The response's headers are the revision's. -/
structure Headed (n : Node) (file : FileContent) : Prop where
  rev : file.rev = some n.rev
  mtime : file.mtime = n.body.mtime.getD 0
  contentType : file.contentType = n.body.contentType.getD octetStream

/-- The response describes one revision of the document, one that has a
content. -/
def OneRevision (t : Tree) (file : FileContent) : Prop :=
  ∃ n ∈ t, Headed n file ∧ ∃ a, n.content = some a ∧ file.content = a.data

end Routes

namespace Working

open Routes

variable {ι : Type} [DecidableEq ι]

/-- When `GET /file` reads the attachment, the document read before is
unmoved. -/
def condition (requests : ι → Request) : StepCond ι CouchReq Delivery BranchDoc (Working ι) where
  call i _ e o s :=
    match requests i, e with
    | .getFile path, .getAttachment _ none =>
      o = .delivered → ∀ doc, s.doc i = some doc → Unmoved (s.db.docs path) doc
    | _, _ => True
  env _ _ := True

/-- Every file that has been answered describes one revision. -/
def Described (requests : ι → Request) (c : Config ι CouchReq (Option FileContent) (Working ι)) :
    Prop :=
  ∀ i path file, requests i = .getFile path → c.task i = .done (some file) →
    OneRevision (c.state.db.docs path) file

end Working

/-! ## What stays of a document -/

variable {C : Couch} {db : Db} {path p : Path} {t t' : Tree} {n m : Node} {doc : Doc}
  {file : FileContent} {bytes : Bytes}

/-- **A request that writes adds a revision** of a name the document has not
had. -/
theorem Couch.answer_writes_new (C : Couch) ⦃β : Type⦄ (e : CouchReq β) (db : Db) :
    (C.answer e db).2 = db ∨
      ∃ id n, (C.answer e db).2 = db.write id n ∧ ∀ m ∈ db.docs id, m.rev ≠ n.rev := by
  cases e with
  | getDoc | getDocAtRev | getAttachment | openRevs | changes => exact .inl rfl
  | putDoc caller id rev body =>
    simp only [answer]
    split
    · exact .inr ⟨_, _, rfl, fun m hm => (child_rev_ne hm).symm⟩
    · exact .inl rfl
  | putAttachment caller id rev attachment =>
    simp only [answer]
    split
    · exact .inr ⟨_, _, rfl, fun m hm => (child_rev_ne hm).symm⟩
    · exact .inl rfl
  | deleteDoc caller id rev =>
    simp only [answer]
    split
    · exact .inr ⟨_, _, rfl, fun m hm => (child_rev_ne hm).symm⟩
    · exact .inl rfl
  | bulkDocs doc =>
    simp only [answer]
    split
    · exact .inl rfl
    · rename_i hnone
      exact .inr ⟨_, _, rfl, Tree.find?_eq_none.1 hnone⟩

/-- No name is given twice in a document. -/
def Db.Named (db : Db) : Prop := ∀ p, ((db.docs p).map Node.rev).Nodup

/-- What a request leaves: no document loses a revision, and no name is given
again. -/
structure Db.Adds (db db' : Db) : Prop where
  docs : ∀ p, db.docs p <+: db'.docs p
  named : db.Named → db'.Named

theorem Db.adds_refl (db : Db) : db.Adds db := ⟨fun _ => List.prefix_rfl, fun h => h⟩

theorem Db.adds_write {id : Path} (hnew : ∀ m ∈ db.docs id, m.rev ≠ n.rev) :
    db.Adds (db.write id n) := by
  refine ⟨fun p => ?_, fun h p => ?_⟩
  · by_cases hp : p = id
    · rw [hp, write_docs_self]
      exact List.prefix_append _ _
    · rw [write_docs_of_ne hp]
  · by_cases hp : p = id
    · rw [hp, write_docs_self, List.map_append, List.nodup_append]
      refine ⟨h id, List.nodup_singleton _, fun r hr r' hr' => ?_⟩
      obtain ⟨m, hm, rfl⟩ := List.mem_map.1 hr
      rw [List.map_singleton, List.mem_singleton] at hr'
      rw [hr']
      exact hnew m hm
    · rw [write_docs_of_ne hp]
      exact h p

theorem Couch.adds_answer (C : Couch) ⦃β : Type⦄ (e : CouchReq β) (db : Db) :
    db.Adds (C.answer e db).2 := by
  rcases C.answer_writes_new e db with h | ⟨id, n, h, hnew⟩
  · rw [h]
    exact db.adds_refl
  · rw [h]
    exact Db.adds_write hnew

theorem Working.adds_exec {ι : Type} [DecidableEq ι] (C : Couch) (i : ι) ⦃β : Type⦄
    (e : CouchReq β) (o : Delivery) (s : Working ι) : s.db.Adds (exec C i e o s).2.db := by
  cases o with
  | delivered => exact C.adds_answer e s.db
  | unanswered => exact C.adds_answer e s.db
  | unsent => exact s.db.adds_refl

/-! ## What the bytes say -/

namespace Routes

/-- **The headers name one revision**, so the response describes one exactly
where the bytes are that revision's. -/
theorem oneRevision_iff (hnamed : (t.map Node.rev).Nodup) (hn : n ∈ t) (hhead : Headed n file) :
    OneRevision t file ↔ n.content.map Attachment.data = some file.content := by
  constructor
  · rintro ⟨m, hm, hhead', a, ha, hbytes⟩
    have hrev : m.rev = n.rev := Option.some.inj (hhead'.rev.symm.trans hhead.rev)
    obtain rfl := List.inj_on_of_nodup_map hnamed hm hn hrev
    rw [ha, hbytes, Option.map_some]
  · intro h
    obtain ⟨a, ha, hbytes⟩ := Option.map_eq_some_iff.mp h
    exact ⟨n, hn, hhead, a, ha, hbytes.symm⟩

theorem content?_rev (hnamed : (t.map Node.rev).Nodup) (hn : n ∈ t) :
    t.content? (some n.rev) = n.content.map Attachment.data := by
  obtain ⟨m, hm⟩ := Tree.exists_find? hn
  obtain ⟨hmem, hrev⟩ := Tree.find?_eq_some hm
  obtain rfl := List.inj_on_of_nodup_map hnamed hmem hn hrev
  simp only [Tree.content?, Option.elim_some, hm, Option.bind_some]

/-- **A document that is read is unmoved exactly where the bytes served are
the revision's.** -/
theorem unmoved_iff (hnamed : (t.map Node.rev).Nodup) (hn : n ∈ t) (hrev : n.rev = doc.rev)
    (hserved : t.content? none = some bytes) :
    Unmoved t doc ↔ n.content.map Attachment.data = some bytes := by
  obtain ⟨a, ha, rfl⟩ := Option.map_eq_some_iff.mp hserved
  obtain ⟨w, hw, hcontent⟩ := Option.bind_eq_some_iff.mp ha
  rw [Option.elim_none] at hw
  rw [Unmoved, ← hrev, content?_rev hnamed hn]
  constructor
  · intro h
    rcases h w hw a hcontent with hsame | hbytes
    · have hwmem : w ∈ t := Tree.mem_of_mem_leaves (Tree.mem_liveLeaves.1 (Tree.visible_mem hw)).1
      obtain rfl := List.inj_on_of_nodup_map hnamed hwmem hn hsame
      rw [hcontent, Option.map_some]
    · exact hbytes
  · intro h v hv b hb
    obtain rfl := Option.some.inj (hw.symm.trans hv)
    obtain rfl := Option.some.inj (hcontent.symm.trans hb)
    exact .inr h

/-- Nothing served, nothing moved. -/
theorem unmoved_of_none (hserved : t.content? none = none) : Unmoved t doc := by
  intro w hw a ha
  rw [Tree.content?, Option.elim_none, hw, Option.bind_some, ha] at hserved
  cases hserved

/-- What is answered on top of a document that was read. -/
def response (doc : Doc) (bytes : Bytes) : FileContent :=
  ⟨some doc.rev, doc.body.mtime.getD 0, doc.body.contentType.getD octetStream, bytes⟩

/-- The handler once it has read the document. -/
def attach (path : Path) (doc : Doc) : Prog CouchReq (Option FileContent) :=
  .call (.getAttachment path none) fun r => .done (r.toOption.map (response doc))

theorem handler_getFile (env : HubEnv) (path : Path) :
    (Request.getFile path).handler env =
      .call (.getDoc path) fun r => r.toOption.elim (.done none) (attach path) := by
  refine congrArg (Prog.call (CouchReq.getDoc path)) (funext fun r => ?_)
  rcases r with f | doc
  · rcases CouchClient.orMissing_error (none : Option Doc) f with h | h
    · simp only [Except.map, h]
      rfl
    · simp only [Except.map, h]
      rfl
  · refine congrArg (Prog.call (CouchReq.getAttachment path none)) (funext fun r => ?_)
    cases r with
    | error f => rfl
    | ok bytes => rfl

theorem headed_response (hrev : n.rev = doc.rev) (hbody : n.body = doc.body) (bytes : Bytes) :
    Headed n (response doc bytes) :=
  ⟨by rw [hrev]; rfl, by rw [hbody]; rfl, by rw [hbody]; rfl⟩

/-- A document that is read is a revision of it. -/
theorem mem_of_doc? (h : t.doc? = some doc) : ∃ n ∈ t, n.rev = doc.rev ∧ n.body = doc.body := by
  obtain ⟨w, hw, rfl⟩ := Option.map_eq_some_iff.mp h
  exact ⟨w, Tree.mem_of_mem_leaves (Tree.mem_liveLeaves.1 (Tree.visible_mem hw)).1, rfl, rfl⟩

/-- Where a handler of `GET /file` is: at its start, between its two reads,
or at its end. -/
def Stage (env : HubEnv) (path : Path) (t : Tree) (read : Option Doc)
    (task : Prog CouchReq (Option FileContent)) : Prop :=
  task = (Request.getFile path).handler env ∨
  (∃ doc, read = some doc ∧ (∃ n ∈ t, n.rev = doc.rev ∧ n.body = doc.body) ∧
    task = attach path doc) ∨
  task = .done none ∨
  ∃ file, (∃ n ∈ t, Headed n file) ∧ task = .done (some file)

theorem Stage.mono {env : HubEnv} {read : Option Doc} {task : Prog CouchReq (Option FileContent)}
    (h : Stage env path t read task) (hgrown : t <+: t') : Stage env path t' read task := by
  rcases h with h | ⟨doc, hread, ⟨n, hn, hnode⟩, h⟩ | h | ⟨file, ⟨n, hn, hhead⟩, h⟩
  · exact .inl h
  · exact .inr (.inl ⟨doc, hread, ⟨n, hgrown.subset hn, hnode⟩, h⟩)
  · exact .inr (.inr (.inl h))
  · exact .inr (.inr (.inr ⟨file, ⟨n, hgrown.subset hn, hhead⟩, h⟩))

end Routes

namespace Working

open Routes

variable {ι : Type} [DecidableEq ι] {env : HubEnv} {requests : ι → Request}
  {c : Config ι CouchReq (Option FileContent) (Working ι)} {s : Working ι} {i j : ι}

/-- The invariant of a run. -/
structure Serves (env : HubEnv) (requests : ι → Request)
    (c : Config ι CouchReq (Option FileContent) (Working ι)) : Prop where
  named : c.state.db.Named
  stage : ∀ i path, requests i = .getFile path →
    Stage env path (c.state.db.docs path) (c.state.doc i) (c.task i)

omit [DecidableEq ι] in
theorem serves_start (env : HubEnv) (requests : ι → Request) :
    Serves env requests (start env requests) := by
  refine ⟨fun _ => List.nodup_nil, fun i path h => .inl ?_⟩
  show (requests i).handler env = _
  rw [h]

/-- **What has been answered goes on being described, or not**: revisions are
added to the document, and none of its names is given again. -/
theorem oneRevision_iff_of_adds {db db' : Db} (hadds : db.Adds db') (hnamed : db.Named)
    (hhead : ∃ n ∈ db.docs path, Headed n file) :
    OneRevision (db'.docs path) file ↔ OneRevision (db.docs path) file := by
  obtain ⟨n, hn, hhead⟩ := hhead
  rw [oneRevision_iff (hnamed path) hn hhead,
    oneRevision_iff (hadds.named hnamed path) ((hadds.docs path).subset hn) hhead]

/-- The requests of others leave what a handler has read. -/
theorem exec_doc_of_ne (C : Couch) (hne : j ≠ i) ⦃β : Type⦄ (e : CouchReq β) (o : Delivery)
    (s : Working ι) : (exec C i e o s).2.doc j = s.doc j := by
  cases o with
  | delivered => exact Function.update_of_ne hne _ _
  | unanswered => rfl
  | unsent => rfl

/-- What a handler of `GET /file` comes to with its next request, and when
what it answers describes one revision. -/
structure Steps (C : Couch) (env : HubEnv) (requests : ι → Request) (i : ι) (path : Path)
    (o : Delivery) (s : Working ι) ⦃β : Type⦄ (e : CouchReq β)
    (k : β → Prog CouchReq (Option FileContent)) : Prop where
  stage : Stage env path ((exec C i e o s).2.db.docs path) ((exec C i e o s).2.doc i)
    (k (exec C i e o s).1)
  described : (∀ file, k (exec C i e o s).1 = .done (some file) →
    OneRevision ((exec C i e o s).2.db.docs path) file) ↔ (condition requests).call i e o s

/-- **The first read**: the document is one of the revisions, or there is
none to answer with. -/
theorem steps_getDoc (hi : requests i = .getFile path) (o : Delivery) :
    Steps C env requests i path o s (.getDoc path)
      fun r => r.toOption.elim (.done none) (attach path) := by
  have hcond : (condition requests).call i (.getDoc path) o s ↔ True := by
    simp only [condition, hi]
  cases o with
  | unsent | unanswered =>
    refine ⟨.inr (.inr (.inl rfl)), ?_⟩
    rw [hcond]
    refine iff_true_intro fun file h => ?_
    cases h
  | delivered =>
    cases hdoc : (s.db.docs path).doc? with
    | none =>
      have hk : (exec C i (.getDoc path) .delivered s).1 = .error Couch.notFound := by
        simp only [exec, Couch.answer, hdoc, Couch.orNotFound]
      refine ⟨.inr (.inr (.inl (by rw [hk]; rfl))), ?_⟩
      rw [hcond, hk]
      refine iff_true_intro fun file h => ?_
      cases h
    | some doc =>
      have hk : (exec C i (.getDoc path) .delivered s).1 = .ok doc := by
        simp only [exec, Couch.answer, hdoc, Couch.orNotFound]
      have hread : (exec C i (.getDoc path) .delivered s).2.doc i = some doc := by
        simp only [exec, docRead, hdoc, Function.update_self, Option.some_or]
      refine ⟨.inr (.inl ⟨doc, hread, mem_of_doc? hdoc, by rw [hk]; rfl⟩), ?_⟩
      rw [hcond, hk]
      refine iff_true_intro fun file h => ?_
      cases h

/-- **The second read**, and what comes of it. -/
theorem steps_attach (hnamed : s.db.Named) (hi : requests i = .getFile path)
    (hread : s.doc i = some doc)
    (hnode : ∃ n ∈ s.db.docs path, n.rev = doc.rev ∧ n.body = doc.body) (o : Delivery) :
    Steps C env requests i path o s (.getAttachment path none)
      fun r => .done (r.toOption.map (response doc)) := by
  have hcond : (condition requests).call i (.getAttachment path none) o s ↔
      (o = .delivered → Unmoved (s.db.docs path) doc) := by
    simp only [condition, hi, hread, Option.some.injEq, forall_eq']
  obtain ⟨n, hn, hrev, hbody⟩ := hnode
  cases o with
  | unsent | unanswered =>
    refine ⟨.inr (.inr (.inl rfl)), ?_⟩
    rw [hcond]
    refine iff_of_true (fun file h => ?_) fun h => ?_
    · cases h
    · cases h
  | delivered =>
    have hdb : (exec C i (.getAttachment path none) .delivered s).2.db = s.db := rfl
    rw [imp_iff_right rfl] at hcond
    cases hserved : (s.db.docs path).content? none with
    | none =>
      have hk : (exec C i (.getAttachment path none) .delivered s).1 = .error Couch.notFound := by
        simp only [exec, Couch.answer, hserved, Couch.orNotFound]
      refine ⟨.inr (.inr (.inl (by rw [hk]; rfl))), ?_⟩
      rw [hcond, hk]
      refine iff_of_true (fun file h => ?_) (unmoved_of_none hserved)
      cases h
    | some bytes =>
      have hk : (exec C i (.getAttachment path none) .delivered s).1 = .ok bytes := by
        simp only [exec, Couch.answer, hserved, Couch.orNotFound]
      have hhead : Headed n (response doc bytes) := headed_response hrev hbody bytes
      refine ⟨.inr (.inr (.inr ⟨response doc bytes, ⟨n, hn, hhead⟩, by rw [hk]; rfl⟩)), ?_⟩
      rw [hcond, hk, unmoved_iff (hnamed path) hn hrev hserved, hdb]
      have hone := oneRevision_iff (hnamed path) hn hhead
      constructor
      · exact fun h => hone.1 (h _ rfl)
      · rintro h file ⟨⟩
        exact hone.2 h

/-- What a handler makes its next request for. -/
theorem steps_of_stage (hnamed : s.db.Named) (hi : requests i = .getFile path) {β : Type}
    {e : CouchReq β} {k : β → Prog CouchReq (Option FileContent)}
    (hstage : Stage env path (s.db.docs path) (s.doc i) (.call e k)) (o : Delivery) :
    Steps C env requests i path o s e k := by
  rcases hstage with h | ⟨doc, hread, hnode, h⟩ | h | ⟨file, -, h⟩
  · rw [handler_getFile] at h
    cases h
    exact steps_getDoc hi o
  · cases h
    exact steps_attach hnamed hi hread hnode o
  · cases h
  · cases h

omit [DecidableEq ι] in
/-- A handler that answers no file meets every condition. -/
theorem condition_of_ne (hi : ∀ path, requests i ≠ .getFile path) {β : Type} (e : CouchReq β)
    (o : Delivery) (s : Working ι) : (condition requests).call i e o s := by
  cases hr : requests i with
  | getFile path => exact absurd hr (hi path)
  | postChanges changes => simp only [condition, hr]
  | resolve path => simp only [condition, hr]

omit [DecidableEq ι] in
/-- What has been answered has the headers of some revision. -/
theorem Serves.headed (h : Serves env requests c) (hi : requests i = .getFile path)
    (htask : c.task i = .done (some file)) : ∃ n ∈ c.state.db.docs path, Headed n file := by
  have hstage := h.stage i path hi
  rw [htask] at hstage
  rcases hstage with hs | ⟨doc, -, -, hs⟩ | hs | ⟨file', hhead, hs⟩
  · rw [handler_getFile] at hs
    cases hs
  · cases hs
  · cases hs
  · cases hs
    exact hhead

/-- **One request**: what has been answered stays described, and so is what
the request's handler answers, exactly where it meets the condition. -/
theorem serves_call (h : Serves env requests c) {β : Type} {e : CouchReq β}
    {k : β → Prog CouchReq (Option FileContent)} (hcall : c.task i = .call e k) (o : Delivery) :
    Serves env requests (c.step (semantics C) (.run i o)) ∧
      (Described requests (c.step (semantics C) (.run i o)) ↔
        Described requests c ∧ (condition requests).call i e o c.state) := by
  have hadds : c.state.db.Adds (exec C i e o c.state).2.db := adds_exec C i e o c.state
  have hsteps : ∀ path, requests i = .getFile path → Steps C env requests i path o c.state e k :=
    fun path hi => steps_of_stage h.named hi (hcall ▸ h.stage i path hi) o
  -- the handler whose request it is
  have hown : (∀ path file, requests i = .getFile path →
      k (exec C i e o c.state).1 = .done (some file) →
        OneRevision ((exec C i e o c.state).2.db.docs path) file) ↔
          (condition requests).call i e o c.state := by
    by_cases hget : ∃ path, requests i = .getFile path
    · obtain ⟨path, hi⟩ := hget
      rw [← (hsteps path hi).described]
      constructor
      · exact fun hall file hk => hall path file hi hk
      · intro hall path' file hi' hk
        obtain rfl := Request.getFile.inj (hi.symm.trans hi')
        exact hall file hk
    · push Not at hget
      exact iff_of_true (fun path file hi => absurd hi (hget path)) (condition_of_ne hget e o c.state)
  have hself : (c.step (semantics C) (.run i o)).task i = k (exec C i e o c.state).1 := by
    rw [Config.step_of_call hcall]
    exact Function.update_self _ _ _
  have hother : ∀ j, j ≠ i → (c.step (semantics C) (.run i o)).task j = c.task j := by
    intro j hne
    rw [Config.step_of_call hcall]
    exact Function.update_of_ne hne _ _
  have hstate : (c.step (semantics C) (.run i o)).state = (exec C i e o c.state).2 := by
    rw [Config.step_of_call hcall]
    rfl
  rw [← hown, Described, hstate]
  refine ⟨⟨hstate ▸ hadds.named h.named, fun j path hj => ?_⟩, ?_, ?_⟩
  · rw [hstate]
    rcases eq_or_ne j i with rfl | hne
    · rw [hself]
      exact (hsteps path hj).stage
    · rw [hother j hne, exec_doc_of_ne C hne]
      exact (h.stage j path hj).mono (hadds.docs path)
  · intro hall
    refine ⟨fun j path file hj htask => ?_, fun path file hi hk => ?_⟩
    · have hne : j ≠ i := by
        rintro rfl
        rw [hcall] at htask
        cases htask
      exact (oneRevision_iff_of_adds hadds h.named (h.headed hj htask)).1
        (hall j path file hj ((hother j hne).trans htask))
    · exact hall i path file hi (hself.trans hk)
  · rintro ⟨hall, hmove⟩ j path file hj htask
    rcases eq_or_ne j i with rfl | hne
    · exact hmove path file hj (hself.symm.trans htask)
    · rw [hother j hne] at htask
      exact (oneRevision_iff_of_adds hadds h.named (h.headed hj htask)).2 (hall j path file hj htask)

/-- **One move**, a handler's or another hub's. -/
theorem serves_step (h : Serves env requests c) (m : Move ι Delivery BranchDoc) :
    Serves env requests (c.step (semantics C) m) ∧
      (Described requests (c.step (semantics C) m) ↔
        Described requests c ∧ c.Admits (condition requests) m) := by
  cases m with
  | env doc =>
    have hadds : c.state.db.Adds (C.answer (.bulkDocs doc) c.state.db).2 :=
      C.adds_answer (.bulkDocs doc) c.state.db
    refine ⟨⟨hadds.named h.named, fun i path hi => (h.stage i path hi).mono (hadds.docs path)⟩, ?_⟩
    have hadmits : c.Admits (condition requests) (.env doc) ↔ True := Iff.rfl
    rw [hadmits, and_true]
    exact forall₅_congr fun i path file hi htask =>
      oneRevision_iff_of_adds hadds h.named (h.headed hi htask)
  | run i o =>
    cases hi : c.task i with
    | done r =>
      rw [Config.step_of_done hi]
      refine ⟨h, (and_iff_left ?_).symm⟩
      simp only [Config.Admits, hi]
    | call e k =>
      rw [Config.admits_of_call hi]
      exact serves_call h hi o

theorem described_runs (h : Serves env requests c) (ms : List (Move ι Delivery BranchDoc)) :
    Described requests (c.runs (semantics C) ms) ↔
      Described requests c ∧ c.Meets (semantics C) (condition requests) ms := by
  induction ms generalizing c with
  | nil => exact (and_iff_left trivial).symm
  | cons m ms ih =>
    obtain ⟨hserves, hstep⟩ := serves_step (C := C) h m
    rw [Config.runs_cons, ih hserves, hstep, and_assoc]
    rfl

/-- **A response describes one revision exactly where the document read is
unmoved when its attachment is read**, in every run of any requests, with
any that fail and any revisions from other hubs between them. -/
theorem described_iff (C : Couch) (env : HubEnv) (requests : ι → Request)
    (ms : List (Move ι Delivery BranchDoc)) :
    Described requests ((start env requests).runs (semantics C) ms) ↔
      (start env requests).Meets (semantics C) (condition requests) ms := by
  rw [described_runs (serves_start env requests) ms]
  refine and_iff_right fun i path file hi htask => ?_
  have htask' : (requests i).handler env = .done (some file) := htask
  rw [hi, handler_getFile] at htask'
  cases htask'

/-! ## A response of two revisions -/

/-- A first push of a file, and a reader. -/
def whileWritten : Bool → Request
  | true => .postChanges [⟨"a", false, none, 1, none, some (.encode [1])⟩]
  | false => .getFile "a"

/-- The body is written, the document read, the attachment written, and then
read. -/
def inTurn : List (Move Bool Delivery BranchDoc) :=
  [.run true .delivered, .run false .delivered, .run true .delivered, .run false .delivered]

/-- What has become of them. -/
def torn : Config Bool CouchReq (Option FileContent) (Working Bool) :=
  (start .plain whileWritten).runs
    (semantics (Couch.counting true)) inTurn

/-- The response names the revision without a content, and has the content of
the one on top of it. -/
theorem torn_not_described : ¬ Described whileWritten torn := by
  intro h
  have htask : torn.task false = .done (some ⟨some ⟨1, "x"⟩, 1, octetStream, [1]⟩) :=
    Prog.result?_eq_some.1 (by decide +kernel)
  obtain ⟨n, hn, hhead, a, ha, -⟩ := h false "a" _ rfl htask
  have hbare : ∀ n ∈ torn.state.db.docs "a", some ⟨1, "x"⟩ = some n.rev → n.content = none := by
    decide +kernel
  rw [hbare n hn hhead.rev] at ha
  cases ha

end Working

end FileSync
