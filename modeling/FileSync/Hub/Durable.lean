import FileSync.Hub.Resolution
import FileSync.Hub.Responses
/-!
# What an acknowledged push has stored

A push is answered once its change is in the revision tree: as a revision on
top of the one it names, as a branch off it, or as a branch that was there
already. No document loses a revision, so what has been acknowledged is
there for good, whatever is made of it by the revisions on top.

A branch is named by a hash of what it says, and a branch whose name is
taken is not written.

The requests may be made by anybody who reaches the database: by a hub's
handler, or by the part of a device's sync that a hub does for it.
-/

namespace FileSync

namespace Push

/-- What a change is branched as: the generation after its base's, and the
hash of what it says. -/
def branchName (change : PushChange) : Rev :=
  ⟨(change.baseRev.map Rev.gen).getD 0 + 1, revHash (branchSeed change change.deleted
    (if change.deleted then none else (change.contentBase64.getD .empty).decode.toOption))⟩

/-- The revision is the change: written on the revision the device had seen,
and for an upsert with its time and its bytes. -/
structure Carried (change : PushChange) (n : Node) : Prop where
  deleted : n.deleted = change.deleted
  base : ∀ r ∈ change.baseRev, r ∈ n.ancestors
  written : change.deleted = false → n.body.mtime = some change.mtime ∧
    ∃ a ∈ n.content, (change.contentBase64.getD .empty).decode = .ok a.data

instance (change : PushChange) (n : Node) : Decidable (Carried change n) :=
  decidable_of_iff (n.deleted = change.deleted ∧ (∀ r ∈ change.baseRev, r ∈ n.ancestors) ∧
      (change.deleted = false → n.body.mtime = some change.mtime ∧
        ∃ a ∈ n.content, (change.contentBase64.getD .empty).decode = .ok a.data))
    ⟨fun ⟨h, h', h''⟩ => ⟨h, h', h''⟩, fun h => ⟨h.deleted, h.base, h.written⟩⟩

/-- The change is one of its path's revisions, or the name of its branch is
the name of one. -/
def Kept (db : Db) (change : PushChange) : Prop :=
  ∃ n ∈ db.docs change.path, Carried change n ∨ n.rev = branchName change

/-- **What an answer stands for**: the change is stored, and the answer names
a revision that is there. A delete of what the device never had is answered
without one. -/
structure Acknowledged (db : Db) (change : PushChange) (result : PushResult) : Prop where
  path : result.path = change.path
  stored : change.deleted = true ∧ change.baseRev = none ∧ result.rev = none ∨
    Kept db change ∧ ∃ r ∈ result.rev, ∃ n ∈ db.docs change.path, n.rev = r

/-- What is stored for a change that was answered: the change, and the
revision the answer names. -/
structure Stored (db : Db) (change : PushChange) (result : PushResult) : Prop where
  path : result.path = change.path
  stored : change.deleted = true ∧ change.baseRev = none ∧ result.rev = none ∨
    (∃ n ∈ db.docs change.path, Carried change n) ∧
      ∃ r ∈ result.rev, ∃ n ∈ db.docs change.path, n.rev = r

/-- The name of the change's branch is nobody else's. -/
def OwnName (db : Db) (change : PushChange) : Prop :=
  ∀ n ∈ db.docs change.path, n.rev = branchName change → Carried change n

instance (db : Db) (change : PushChange) : Decidable (OwnName db change) :=
  inferInstanceAs (Decidable (∀ n ∈ _, _))

theorem Acknowledged.to_stored {db : Db} {change : PushChange} {result : PushResult}
    (h : Acknowledged db change result) (hname : OwnName db change) : Stored db change result := by
  refine ⟨h.path, h.stored.imp_right fun ⟨⟨n, hn, hkept⟩, hrev⟩ => ⟨⟨n, hn, ?_⟩, hrev⟩⟩
  rcases hkept with hcarried | hnamed
  exacts [hcarried, hname n hn hnamed]

end Push

/-- What a database goes on saying as revisions are added. -/
def Db.Lasts (P : Db → Prop) : Prop := ∀ ⦃db db' : Db⦄, db.Adds db' → P db → P db'

namespace Db.Lasts

variable {P Q : Db → Prop} {path : Path} {α : Type} {l : List α}

theorem and (hP : Lasts P) (hQ : Lasts Q) : Lasts fun db => P db ∧ Q db :=
  fun _ _ hadds h => ⟨hP hadds h.1, hQ hadds h.2⟩

theorem pure (p : Prop) : Lasts fun _ => p := fun _ _ _ h => h

theorem named : Lasts Named := fun _ _ hadds h => hadds.named h

/-- A revision that is there. -/
theorem exists_mem (p : Node → Prop) : Lasts fun db => ∃ n ∈ db.docs path, p n := by
  rintro db db' hadds ⟨n, hn, hp⟩
  exact ⟨n, (hadds.docs path).subset hn, hp⟩

theorem kept {change : PushChange} : Lasts fun db => Push.Kept db change := exists_mem _

theorem acknowledged {change : PushChange} {result : PushResult} :
    Lasts fun db => Push.Acknowledged db change result := by
  rintro db db' hadds ⟨hpath, hstored⟩
  refine ⟨hpath, hstored.imp_right fun ⟨hkept, r, hr, hrev⟩ => ⟨kept hadds hkept, r, hr, ?_⟩⟩
  exact exists_mem _ hadds hrev

end Db.Lasts

theorem Db.mem_accept {db : Db} {id : Path} {n : Node} : n ∈ (db.accept id n).2.docs id := by
  show n ∈ (db.write id n).docs id
  rw [write_docs_self]
  exact List.mem_append_right _ (List.mem_singleton_self n)

/-! ## Reaching a database -/

variable {ι O A σ : Type} {E : Type → Type}

/-- Task `i` makes its requests of a database through `f`. Each is one call:
it is answered, or its answer is lost and it may or may not have taken place.
`R` is what the task holds on to besides. -/
structure CouchAccess (C : Couch) (S : Semantics ι E O A σ) (D : StepCond ι E O A σ)
    (K : Contract ι σ) (i : ι) (f : ∀ ⦃β : Type⦄, CouchReq β → Prog E β) (db : σ → Db)
    (R : σ → Prop) : Prop where
  rely : ∀ ⦃s s'⦄, R s → K.rely i s s' → R s' ∧ (db s).Adds (db s')
  call : ∀ ⦃β : Type⦄ (e : CouchReq β), ∃ e', f e = .perform e' ∧
    ∀ o s, R s → e.Hangs (db s) → D.call i e' o s →
      K.guar i s (S.exec i e' o s).2 ∧ R (S.exec i e' o s).2 ∧
        ((S.exec i e' o s).1 = (C.answer e (db s)).1 ∧
            db (S.exec i e' o s).2 = (C.answer e (db s)).2 ∨
          (S.exec i e' o s).1 = e.lost ∧ (db s).Adds (db (S.exec i e' o s).2))

/-- What a hub's program does to the database it reaches. -/
def AccessDoes {ε α : Type} (S : Semantics ι E O A σ) (D : StepCond ι E O A σ) (K : Contract ι σ)
    (i : ι) (f : ∀ ⦃β : Type⦄, CouchReq β → Prog E β) (db : σ → Db) (R : σ → Prop) (P : Db → Prop)
    (x : Hub ε α) (M : α → Db → Prop) : Prop :=
  Does S D K i f (fun s => R s ∧ P (db s)) x (Post R fun a s => R s ∧ M a (db s))

namespace CouchAccess

variable {C : Couch} {S : Semantics ι E O A σ} {D : StepCond ι E O A σ} {K : Contract ι σ} {i : ι}
  {f : ∀ ⦃β : Type⦄, CouchReq β → Prog E β} {db : σ → Db} {R : σ → Prop} {env : HubEnv}
  {P P' : Db → Prop} {ε ε' α β γ : Type} {M : α → Db → Prop} {path : Path} {change : PushChange}

theorem stable_frame (h : CouchAccess C S D K i f db R) : K.Stable i R :=
  fun _ _ hs hr => (h.rely hs hr).1

theorem stable (h : CouchAccess C S D K i f db R) (hP : Db.Lasts P) :
    K.Stable i fun s => R s ∧ P (db s) := by
  rintro s s' ⟨hs, hp⟩ hr
  obtain ⟨hs', hadds⟩ := h.rely hs hr
  exact ⟨hs', hP hadds hp⟩

theorem pure (h : CouchAccess C S D K i f db R) {a : α} (hM : Db.Lasts (M a))
    (hP : ∀ d, P d → M a d) : AccessDoes S D K i f db R P (Pure.pure a : Hub ε α) M :=
  Does.pure (h.stable hM) fun _ hs => ⟨hs.1, hP _ hs.2⟩

theorem throw (h : CouchAccess C S D K i f db R) (e : ε) :
    AccessDoes S D K i f db R P (MonadExcept.throw e : Hub ε α) M :=
  Does.throw h.stable_frame fun _ hs => hs.1

theorem bind (h : CouchAccess C S D K i f db R) {x : Hub ε γ} {g : γ → Hub ε α}
    {N : γ → Db → Prop} (hx : AccessDoes S D K i f db R P x N)
    (hg : ∀ a, AccessDoes S D K i f db R (N a) (g a) M) :
    AccessDoes S D K i f db R P (x >>= g) M :=
  Does.bind _ h.stable_frame hx hg

theorem adapt (h : CouchAccess C S D K i f db R) (hM : ∀ a, Db.Lasts (M a)) {g : ε → ε'}
    {x : Hub ε α} (hx : AccessDoes S D K i f db R P x M) :
    AccessDoes S D K i f db R P (x.adapt g) M :=
  Does.adapt h.stable_frame (fun a => h.stable (hM a)) hx

theorem pre {x : Hub ε α} (hx : AccessDoes S D K i f db R P x M) (hP : ∀ d, P' d → P d) :
    AccessDoes S D K i f db R P' x M :=
  Does.pre hx fun _ hs => ⟨hs.1, hP _ hs.2⟩

theorem mono {M' : α → Db → Prop} {x : Hub ε α} (hx : AccessDoes S D K i f db R P x M)
    (hM : ∀ a d, M a d → M' a d) : AccessDoes S D K i f db R P x M' :=
  Does.mono hx (fun _ hs => hs) fun a _ hs => ⟨hs.1, hM a _ hs.2⟩

/-- What the precondition says of no database. -/
theorem of_pure {φ : Prop} {x : Hub ε α} (hφ : ∀ d, P d → φ)
    (h : φ → AccessDoes S D K i f db R P x M) : AccessDoes S D K i f db R P x M :=
  Triple.of_pure (fun _ hs => hφ _ hs.2) h

/-- **One request**: a lost one fails. -/
theorem request (h : CouchAccess C S D K i f db R) {e : CouchReq β} {g : β → Except ε α}
    (hM : ∀ a, Db.Lasts (M a)) (hangs : ∀ d, P d → e.Hangs d)
    (hlost : ∃ x, g e.lost = .error x)
    (hok : ∀ d a, P d → g (C.answer e d).1 = .ok a → M a (C.answer e d).2) :
    AccessDoes S D K i f db R P (.mk (.call e fun r => .done (g r))) M := by
  obtain ⟨x, hx⟩ := hlost
  obtain ⟨e', hf, hcall⟩ := h.call e
  have hpost : ∀ r, K.Stable i fun s => Post R (fun a s => R s ∧ M a (db s)) (g r) s :=
    fun r => stable_post h.stable_frame (fun a => h.stable (hM a)) (g r)
  show Triple S D K i _ (f e >>= fun r => .done (g r)) _
  rw [hf]
  refine Triple.call _ hpost (fun o s hs ho => ?_) fun r => Triple.done (hpost r) fun _ hr => hr
  obtain ⟨hguar, hframe, hanswer⟩ := hcall o s hs.1 (hangs _ hs.2) ho
  refine ⟨hguar, ?_⟩
  rcases hanswer with ⟨hr, hd⟩ | ⟨hr, -⟩
  · rw [hr]
    cases hg : g (C.answer e (db s)).1 with
    | error y => exact hframe
    | ok a =>
      refine ⟨hframe, ?_⟩
      rw [hd]
      exact hok _ a hs.2 hg
  · rw [hr, hx]
    exact hframe

/-- What lasts, every program keeps whose requests hang off what is there,
also where it fails. -/
theorem does_keeps (h : CouchAccess C S D K i f db R) (hP : Db.Lasts P) {x : Hub ε α}
    (hx : Fallible.All (fun _ e => ∀ d : Db, e.Hangs d) x) :
    Does S D K i f (fun s => R s ∧ P (db s)) x
      (Post (fun s => R s ∧ P (db s)) fun _ s => R s ∧ P (db s)) := by
  refine Does.of_all (h.stable hP) (fun β e he => ?_) hx
  obtain ⟨e', hf, hcall⟩ := h.call e
  rw [hf]
  refine Triple.perform (fun _ => h.stable hP) fun o s hs ho => ?_
  obtain ⟨hguar, hframe, hanswer⟩ := hcall o s hs.1 (he _) ho
  refine ⟨hguar, hframe, ?_⟩
  rcases hanswer with ⟨-, hd⟩ | ⟨-, hadds⟩
  · rw [hd]
    exact hP (C.adds_answer e _) hs.2
  · exact hP hadds hs.2

theorem keeps (h : CouchAccess C S D K i f db R) (hP : Db.Lasts P) {x : Hub ε α}
    (hx : Fallible.All (fun _ e => ∀ d : Db, e.Hangs d) x) :
    AccessDoes S D K i f db R P x fun _ => P :=
  Does.mono (h.does_keeps hP hx) (fun _ hs => hs.1) fun _ _ hs => hs

/-- **A run handed back as a value**: what lasts is there after a failure
too. -/
theorem attempt (h : CouchAccess C S D K i f db R) (hP : Db.Lasts P) (hM : ∀ a, Db.Lasts (M a))
    {x : Hub ε α} (hall : Fallible.All (fun _ e => ∀ d : Db, e.Hangs d) x)
    (hx : AccessDoes S D K i f db R P x M) :
    AccessDoes S D K i f db R P (Fallible.attempt x : Hub ε' (Except ε α)) fun r d =>
      P d ∧ ∀ a, r = .ok a → M a d := by
  have hboth : Does S D K i f (fun s => R s ∧ P (db s)) x
      (Post (fun s => R s ∧ P (db s)) fun a s => R s ∧ P (db s) ∧ M a (db s)) := by
    refine Triple.post (Triple.pre (Triple.and hx (h.does_keeps hP hall)) fun _ hs => ⟨hs, hs⟩)
      fun r s hs => ?_
    cases r with
    | ok a => exact ⟨hs.1.1, hs.2.2, hs.1.2⟩
    | error e => exact hs.2
  have hvalue : Does S D K i f (fun s => R s ∧ P (db s))
      (Fallible.attempt x : Hub ε' (Except ε α))
      (Post R (Post (fun s => R s ∧ P (db s)) fun a s => R s ∧ P (db s) ∧ M a (db s))) :=
    Does.attempt (h.stable hP) (fun a => h.stable (hP.and (hM a))) hboth
  refine Does.mono hvalue (fun _ hs => hs) fun r s hs => ?_
  cases r with
  | ok a =>
    refine ⟨hs.1, hs.2.1, ?_⟩
    rintro b ⟨⟩
    exact hs.2.2
  | error e =>
    refine ⟨hs.1, hs.2, ?_⟩
    rintro b ⟨⟩

theorem orConflict (h : CouchAccess C S D K i f db R) {a : Option α} (hM : ∀ x, Db.Lasts (M x))
    (hP : ∀ x ∈ a, ∀ d, P d → M x d) : AccessDoes S D K i f db R P (Push.orConflict a) M := by
  cases a with
  | none => exact h.throw _
  | some x => exact h.pure (hM x) (hP x rfl)

/-! ## Reads -/

/-- The document is one of the path's revisions. -/
theorem getDoc (h : CouchAccess C S D K i f db R) (hP : Db.Lasts P) :
    AccessDoes S D K i f db R P (CouchClient.getDoc path) fun doc d =>
      P d ∧ ∀ doc' ∈ doc, ∃ n ∈ d.docs path, n.rev = doc'.rev := by
  have hM : ∀ doc : Option Doc, Db.Lasts fun d =>
      P d ∧ ∀ doc' ∈ doc, ∃ n ∈ d.docs path, n.rev = doc'.rev := fun doc d d' hadds hd =>
    ⟨hP hadds hd.1, fun doc' hdoc => Db.Lasts.exists_mem _ hadds (hd.2 doc' hdoc)⟩
  refine h.request hM (fun _ _ => trivial) ⟨_, rfl⟩ fun d doc hd hdoc => ⟨hd, ?_⟩
  rintro doc' rfl
  have hanswer := CouchClient.orMissing_eq_ok_some hdoc
  simp only [Couch.answer] at hanswer
  cases hread : (d.docs path).doc? with
  | none =>
    rw [hread] at hanswer
    cases hanswer
  | some doc =>
    rw [hread] at hanswer
    obtain rfl := Except.ok.inj hanswer
    obtain ⟨n, hn, hrev, -⟩ := Routes.mem_of_doc? hread
    exact ⟨n, hn, hrev⟩

/-- So is the one that is asked for, with its history. -/
theorem getDocAtRev (h : CouchAccess C S D K i f db R) (hP : Db.Lasts P) {rev : Rev} :
    AccessDoes S D K i f db R P (CouchClient.getDocAtRev path rev) fun doc d =>
      P d ∧ ∀ doc' ∈ doc, ∃ n ∈ d.docs path, n.rev = rev ∧ doc'.revisions = n.revisions := by
  have hM : ∀ doc : Option RevDoc, Db.Lasts fun d =>
      P d ∧ ∀ doc' ∈ doc, ∃ n ∈ d.docs path, n.rev = rev ∧ doc'.revisions = n.revisions :=
    fun doc d d' hadds hd =>
      ⟨hP hadds hd.1, fun doc' hdoc => Db.Lasts.exists_mem _ hadds (hd.2 doc' hdoc)⟩
  refine h.request hM (fun _ _ => trivial) ⟨_, rfl⟩ fun d doc hd hdoc => ⟨hd, ?_⟩
  rintro doc' rfl
  have hanswer := CouchClient.orMissing_eq_ok_some hdoc
  simp only [Couch.answer] at hanswer
  cases hread : (d.docs path).find? rev with
  | none =>
    rw [hread] at hanswer
    cases hanswer
  | some n =>
    rw [hread] at hanswer
    obtain rfl := Except.ok.inj hanswer
    obtain ⟨hn, hrev⟩ := Tree.find?_eq_some hread
    exact ⟨n, hn, hrev, rfl⟩

/-- A branch's parent: nothing, or the revision the change names. -/
def ParentIn (change : PushChange) (parent : Revisions) (d : Db) : Prop :=
  parent = ⟨0, []⟩ ∧ change.baseRev = none ∨
    ∃ n ∈ d.docs change.path, change.baseRev = some n.rev ∧ parent = n.revisions

theorem lasts_parentIn {parent : Revisions} : Db.Lasts (ParentIn change parent) := by
  rintro d d' hadds (hnone | hsome)
  · exact .inl hnone
  · exact .inr (Db.Lasts.exists_mem _ hadds hsome)

theorem branchParent (h : CouchAccess C S D K i f db R) (hP : Db.Lasts P) :
    AccessDoes S D K i f db R P (Push.branchParent change) fun parent d =>
      P d ∧ ParentIn change parent d := by
  have hM : ∀ parent, Db.Lasts fun d => P d ∧ ParentIn change parent d := fun _ =>
    hP.and lasts_parentIn
  unfold Push.branchParent
  split
  · rename_i baseRev hbase
    have hN : ∀ doc : Option RevDoc, Db.Lasts fun d => P d ∧
        ∀ doc' ∈ doc, ∃ n ∈ d.docs change.path, n.rev = baseRev ∧ doc'.revisions = n.revisions :=
      fun doc d d' hadds hd =>
        ⟨hP hadds hd.1, fun doc' hdoc => Db.Lasts.exists_mem _ hadds (hd.2 doc' hdoc)⟩
    refine h.bind (h.adapt hN (h.getDocAtRev hP)) fun doc => ?_
    refine h.bind (h.orConflict (M := fun doc' d => P d ∧
      ∃ n ∈ d.docs change.path, n.rev = baseRev ∧ doc'.revisions = n.revisions)
        (fun _ => hP.and (Db.Lasts.exists_mem _)) fun doc' hdoc d hd => ⟨hd.1, hd.2 doc' hdoc⟩)
          fun doc' => h.pure (hM _) ?_
    rintro d ⟨hd, n, hn, rfl, hrevs⟩
    exact ⟨hd, .inr ⟨n, hn, hbase, hrevs⟩⟩
  · rename_i hbase
    exact h.pure (hM _) fun d hd => ⟨hd, .inl ⟨rfl, hbase⟩⟩

/-! ## Writes -/

/-- A revision that is there, as a condition on a database. -/
abbrev Has (path : Path) (p : Node → Prop) (d : Db) : Prop := ∃ n ∈ d.docs path, p n

/-- A request that writes one revision, or fails. -/
theorem write (h : CouchAccess C S D K i f db R) {e : CouchReq (Except HttpFailure Rev)}
    {g : HttpFailure → ε} {p : Rev → Node → Prop} (hP : Db.Lasts P) (hangs : ∀ d, e.Hangs d)
    (hlost : ∃ x, e.lost = .error x)
    (hok : ∀ d rev, P d → (C.answer e d).1 = .ok rev → Has path (p rev) (C.answer e d).2) :
    AccessDoes S D K i f db R P (.ask g e) fun rev d => P d ∧ Has path (p rev) d := by
  obtain ⟨x, hx⟩ := hlost
  refine h.request (fun rev => hP.and (Db.Lasts.exists_mem _)) (fun d _ => hangs d)
    ⟨g x, by rw [hx]; rfl⟩ fun d rev hd hr => ⟨hP (C.adds_answer e d) hd, hok d rev hd ?_⟩
  cases hanswer : (C.answer e d).1 with
  | error y =>
    rw [hanswer] at hr
    cases hr
  | ok rev' =>
    rw [hanswer] at hr
    exact congrArg Except.ok (Except.ok.inj hr)

/-- **A conditional write** is on top of the revision it names. -/
theorem putDoc (h : CouchAccess C S D K i f db R) (hP : Db.Lasts P) {caller : Caller}
    {base : Option Rev} {body : Body} :
    AccessDoes S D K i f db R P (CouchClient.putDoc caller path base body) fun rev d =>
      P d ∧ Has path (fun n => n.rev = rev ∧ n.deleted = false ∧ n.body = body ∧
        ∀ r ∈ base, r ∈ n.ancestors) d := by
  refine h.write hP (fun _ => trivial) ⟨_, rfl⟩ fun d rev _ hr => ?_
  simp only [Couch.answer] at hr ⊢
  cases hparent : Couch.putParent (d.docs path) base with
  | error x =>
    rw [hparent] at hr
    cases hr
  | ok parent =>
    rw [hparent] at hr
    refine ⟨_, Db.mem_accept, Except.ok.inj hr, rfl, rfl, fun r hbase => ?_⟩
    obtain rfl := Option.mem_def.1 hbase
    simp only [Couch.putParent] at hparent
    split at hparent
    · rename_i n hn
      obtain rfl := Except.ok.inj hparent
      rw [Couch.ancestors_child_some, (Tree.leaf?_eq_some hn).2]
      exact List.mem_cons_self
    · cases hparent

/-- **Its second half** keeps what the first has said and adds the bytes. -/
theorem putAttachment (h : CouchAccess C S D K i f db R) (hP : Db.Lasts P)
    (hnamed : ∀ d, P d → d.Named) {caller : Caller} {base : Option Rev} {body : Body} {rev : Rev}
    {contentType : String} {bytes : Bytes} (hfirst : ∀ d, P d → Has path (fun n => n.rev = rev ∧
      n.deleted = false ∧ n.body = body ∧ ∀ r ∈ base, r ∈ n.ancestors) d) :
    AccessDoes S D K i f db R P (CouchClient.putAttachment caller path rev contentType bytes)
      fun rev' d => P d ∧ Has path (fun n => n.rev = rev' ∧ n.deleted = false ∧ n.body = body ∧
        n.content = some ⟨contentType, bytes⟩ ∧ ∀ r ∈ base, r ∈ n.ancestors) d := by
  unfold CouchClient.putAttachment
  split
  case isFalse => exact h.throw _
  refine h.write hP (fun _ => trivial) ⟨_, rfl⟩ fun d rev' hd hr => ?_
  obtain ⟨n, hn, hrev, hdel, hbody, hbase⟩ := hfirst d hd
  simp only [Couch.answer] at hr ⊢
  cases hleaf : (d.docs path).leaf? rev with
  | none =>
    rw [hleaf] at hr
    cases hr
  | some q =>
    rw [hleaf] at hr
    obtain ⟨hq, hqrev⟩ := Tree.leaf?_eq_some hleaf
    -- the revision on top of which it is written is the first half
    obtain rfl : q = n := List.inj_on_of_nodup_map (hnamed d hd path) (Tree.mem_of_mem_leaves hq) hn
      (hqrev.trans hrev.symm)
    refine ⟨_, Db.mem_accept, Except.ok.inj hr, hdel, hbody, rfl, fun r hr' => ?_⟩
    rw [Couch.ancestors_child_some]
    exact List.mem_cons_of_mem _ (hbase r hr')

/-- **A delete** is a tombstone on top of the revision it names. -/
theorem deleteDoc (h : CouchAccess C S D K i f db R) (hP : Db.Lasts P) {caller : Caller}
    {base : Rev} :
    AccessDoes S D K i f db R P (CouchClient.deleteDoc caller path base) fun rev d =>
      P d ∧ Has path (fun n => n.rev = rev ∧ n.deleted = true ∧ base ∈ n.ancestors) d := by
  refine h.write hP (fun _ => trivial) ⟨_, rfl⟩ fun d rev _ hr => ?_
  simp only [Couch.answer] at hr ⊢
  cases hparent : C.deleteParent (d.docs path) base with
  | error x =>
    rw [hparent] at hr
    cases hr
  | ok q =>
    rw [hparent] at hr
    refine ⟨_, Db.mem_accept, Except.ok.inj hr, rfl, ?_⟩
    have hq : q.rev = base := by
      unfold Couch.deleteParent at hparent
      split at hparent
      · cases hparent
      split at hparent
      · cases hparent
      split at hparent
      · rename_i n hn
        obtain rfl := Except.ok.inj hparent
        exact (Tree.leaf?_eq_some hn).2
      · cases hparent
    rw [Couch.ancestors_child_some, hq]
    exact List.mem_cons_self

/-- **A branch** is there once it has been put, under its name. -/
theorem putRevision (h : CouchAccess C S D K i f db R) (hP : Db.Lasts P) {deleted : Bool}
    {content : Option Bytes} {parent : Revisions} (hparent : ∀ d, P d → ParentIn change parent d) :
    AccessDoes S D K i f db R P
      (CouchClient.putRevision (Push.branchDoc change deleted content parent)) fun _ d =>
        P d ∧ Has change.path
          (fun n => n.rev = (Push.branchDoc change deleted content parent).rev) d := by
  refine h.request (fun _ => hP.and (Db.Lasts.exists_mem _)) (fun d hd => ?_) ⟨_, rfl⟩
    fun d _ hd _ => ⟨hP (C.adds_answer _ d) hd, ?_⟩
  · refine ⟨change, deleted, content, parent, rfl, ?_⟩
    rcases hparent d hd with ⟨rfl, -⟩ | ⟨n, hn, -, rfl⟩
    exacts [.inl rfl, .inr ⟨n, hn, rfl⟩]
  · have hdocs : (Push.branchDoc change deleted content parent).id = change.path := rfl
    simp only [Couch.answer, hdocs]
    cases hfound : (d.docs change.path).find?
        (Push.branchDoc change deleted content parent).rev with
    | some n =>
      obtain ⟨hn, hrev⟩ := Tree.find?_eq_some hfound
      exact ⟨n, hn, hrev⟩
    | none =>
      refine ⟨(Push.branchDoc change deleted content parent).toNode, ?_, rfl⟩
      rw [Db.write_docs_self]
      exact List.mem_append_right _ (List.mem_singleton_self _)

/-! ## A push -/

/-- The change is stored, and the revision is one of the path's. -/
def StoredAs (change : PushChange) (rev : Option Rev) (d : Db) : Prop :=
  Push.Kept d change ∧ ∃ r ∈ rev, Has change.path (fun n => n.rev = r) d

theorem lasts_storedAs {rev : Option Rev} : Db.Lasts (StoredAs change rev) := by
  rintro d d' hadds ⟨hkept, r, hr, hrev⟩
  exact ⟨Db.Lasts.kept hadds hkept, r, hr, Db.Lasts.exists_mem _ hadds hrev⟩

/-- The content a change is branched with. -/
def BranchedWith (change : PushChange) (deleted : Bool) (content : Option Bytes) : Prop :=
  change.deleted = deleted ∧
    content = if deleted then none else (change.contentBase64.getD .empty).decode.toOption

/-- The branch of a change has the change's name. -/
theorem branchDoc_rev {deleted : Bool} {content : Option Bytes} {parent : Revisions} {d : Db}
    (hwith : BranchedWith change deleted content) (hparent : ParentIn change parent d) :
    (Push.branchDoc change deleted content parent).rev = Push.branchName change := by
  obtain ⟨rfl, rfl⟩ := hwith
  have hgen : parent.start = (change.baseRev.map Rev.gen).getD 0 := by
    rcases hparent with ⟨rfl, hnone⟩ | ⟨p, -, hsome, rfl⟩
    · rw [hnone]
      rfl
    · rw [hsome]
      rfl
  simp only [Push.branchDoc, Push.branchName, hgen]

/-- **A stale change**: its branch is stored, and the revision that is
answered is read back. -/
theorem branchAndResolve (h : CouchAccess C S D K i f db R) (hP : Db.Lasts P) {deleted : Bool}
    {content : Option Bytes} (hwith : BranchedWith change deleted content) :
    AccessDoes S D K i f db R P (Push.branchAndResolve env change deleted content) fun rev d =>
      P d ∧ StoredAs change rev d := by
  unfold Push.branchAndResolve
  refine h.bind (h.branchParent hP) fun parent => ?_
  have hparent : Db.Lasts fun d => P d ∧ ParentIn change parent d := hP.and lasts_parentIn
  have hkept : Db.Lasts fun d => P d ∧ Push.Kept d change := hP.and Db.Lasts.kept
  refine h.bind (h.adapt (fun _ => hkept) (mono (h.putRevision hparent fun _ hd => hd.2)
    fun _ d hd => ?_)) fun _ => ?_
  · obtain ⟨⟨hp, hpar⟩, n, hn, hrev⟩ := hd
    exact ⟨hp, n, hn, .inr (hrev.trans (branchDoc_rev hwith hpar))⟩
  refine h.bind (h.attempt hkept (fun _ => hkept) (Resolver.all_resolve Resolver.hangs)
    (h.keeps hkept (Resolver.all_resolve Resolver.hangs))) fun r => ?_
  cases r with
  | error e => exact h.throw _
  | ok outcome =>
    refine pre (P := fun d => P d ∧ Push.Kept d change) ?_ fun _ hd => hd.1
    have hread : ∀ doc : Doc, Db.Lasts fun d =>
        (P d ∧ Push.Kept d change) ∧ Has change.path (fun n => n.rev = doc.rev) d := fun doc =>
      hkept.and (Db.Lasts.exists_mem _)
    have hread? : ∀ doc : Option Doc, Db.Lasts fun d => (P d ∧ Push.Kept d change) ∧
        ∀ doc' ∈ doc, Has change.path (fun n => n.rev = doc'.rev) d :=
      fun doc d d' hadds hd => ⟨hkept hadds hd.1, fun doc' hdoc =>
        Db.Lasts.exists_mem _ hadds (hd.2 doc' hdoc)⟩
    refine h.bind (h.adapt hread? (h.getDoc hkept)) fun doc => ?_
    refine h.bind (h.orConflict hread fun doc' hdoc d hd => ⟨hd.1, hd.2 doc' hdoc⟩) fun winner => ?_
    exact h.pure (hP.and lasts_storedAs) fun d hd => ⟨hd.1.1, hd.1.2, winner.rev, rfl, hd.2⟩

theorem applyDelete (h : CouchAccess C S D K i f db R) (hP : Db.Lasts P)
    (hdel : change.deleted = true) :
    AccessDoes S D K i f db R P (Push.applyDelete env change) fun rev d =>
      P d ∧ (change.baseRev = none ∧ rev = none ∨ StoredAs change rev d) := by
  have hM : ∀ rev, Db.Lasts fun d =>
      P d ∧ (change.baseRev = none ∧ rev = none ∨ StoredAs change rev d) := fun rev =>
    hP.and fun d d' hadds hd => hd.imp_right (lasts_storedAs hadds)
  unfold Push.applyDelete
  split
  · rename_i hbase
    refine h.bind (h.adapt (fun _ => hP) (mono (h.getDoc hP) fun _ _ hd => hd.1)) fun doc => ?_
    cases doc with
    | some doc => exact h.throw _
    | none => exact h.pure (hM none) fun d hd => ⟨hd, .inl ⟨hbase, rfl⟩⟩
  · rename_i base hbase
    refine h.bind (h.attempt hP (fun rev => hP.and (Db.Lasts.exists_mem _))
      (all_call (fun _ => trivial) _) (h.deleteDoc hP)) fun r => ?_
    cases r with
    | error e =>
      cases e with
      | revConflict id =>
        -- the base is behind, and the deletion is branched off it
        exact mono (pre (h.branchAndResolve hP ⟨hdel, rfl⟩) fun _ hd => hd.1)
          fun rev d hd => ⟨hd.1, .inr hd.2⟩
      | _ => exact h.throw _
    | ok rev =>
      refine h.pure (hM (some rev)) fun d hd => ⟨hd.1, .inr ?_⟩
      obtain ⟨n, hn, hrev, hndel, hover⟩ := (hd.2 rev rfl).2
      refine ⟨⟨n, hn, .inl ⟨hndel.trans hdel.symm, fun r hr => ?_, fun hup => ?_⟩⟩, rev, rfl, n, hn,
        hrev⟩
      · obtain rfl := Option.some.inj (hbase.symm.trans (Option.mem_def.1 hr))
        exact hover
      · rw [hdel] at hup
        cases hup

theorem applyUpsert (h : CouchAccess C S D K i f db R) (hP : Db.Lasts P)
    (hnamed : ∀ d, P d → d.Named) (hdel : change.deleted = false) :
    AccessDoes S D K i f db R P (Push.applyUpsert env change) fun rev d =>
      P d ∧ StoredAs change rev d := by
  have hM : ∀ rev, Db.Lasts fun d => P d ∧ StoredAs change rev d := fun _ =>
    hP.and lasts_storedAs
  unfold Push.applyUpsert
  cases hcontent : (change.contentBase64.getD .empty).decode with
  | error e => exact h.throw _
  | ok content =>
    refine h.bind (h.pure (M := fun bytes d => P d ∧ bytes = content)
      (hP.and (Db.Lasts.pure _)) fun d hd => ⟨hd, rfl⟩) fun bytes => ?_
    refine of_pure (φ := bytes = content) (fun _ hd => hd.2) fun hbytes => ?_
    subst hbytes
    refine pre (P := P) ?_ fun _ hd => hd.1
    have hfirst : ∀ rev, Db.Lasts fun d => P d ∧ Has change.path (fun n => n.rev = rev ∧
        n.deleted = false ∧ n.body = ⟨some change.path, some change.mtime,
          some (change.contentType.getD octetStream)⟩ ∧ ∀ r ∈ change.baseRev, r ∈ n.ancestors) d :=
      fun _ => hP.and (Db.Lasts.exists_mem _)
    refine h.bind (h.attempt hP hfirst (all_call (fun _ => trivial) _) (h.putDoc hP)) fun r => ?_
    cases r with
    | error e =>
      cases e with
      | revConflict id =>
        exact pre (h.branchAndResolve hP ⟨hdel, by rw [hcontent]; rfl⟩) fun _ hd => hd.1
      | _ => exact h.throw _
    | ok rev =>
      -- the body is there, and its content is attached
      refine pre (P := fun d => P d ∧ Has change.path (fun n => n.rev = rev ∧
        n.deleted = false ∧ n.body = ⟨some change.path, some change.mtime,
          some (change.contentType.getD octetStream)⟩ ∧ ∀ r ∈ change.baseRev, r ∈ n.ancestors) d)
        ?_ fun _ hd => hd.2 rev rfl
      refine h.bind (h.adapt (fun _ => (hfirst rev).and (Db.Lasts.exists_mem _))
        (h.putAttachment (hfirst rev) (fun d hd => hnamed d hd.1) fun _ hd => hd.2)) fun rev' => ?_
      refine h.pure (hM (some rev')) fun d hd => ⟨hd.1.1, ?_⟩
      obtain ⟨n, hn, hrev, hndel, hbody, hdata, hover⟩ := hd.2
      exact ⟨⟨n, hn, .inl ⟨hndel.trans hdel.symm, hover, fun _ =>
        ⟨by rw [hbody], _, hdata, hcontent⟩⟩⟩, rev', rfl, n, hn, hrev⟩

/-- **One change**: what is answered stands for what is stored. -/
theorem applyOne (h : CouchAccess C S D K i f db R) (hP : Db.Lasts P)
    (hnamed : ∀ d, P d → d.Named) :
    AccessDoes S D K i f db R P (Push.applyOne env change) fun result d =>
      P d ∧ Push.Acknowledged d change result := by
  have hM : ∀ rev : Option Rev, Db.Lasts fun d =>
      P d ∧ Push.Acknowledged d change ⟨change.path, rev⟩ := fun _ =>
    hP.and Db.Lasts.acknowledged
  have happly : AccessDoes S D K i f db R P (Push.apply env change) fun rev d =>
      P d ∧ Push.Acknowledged d change ⟨change.path, rev⟩ := by
    unfold Push.apply
    split
    · rename_i hdel
      refine mono (h.applyDelete hP hdel) fun rev d hd => ⟨hd.1, rfl, hd.2.imp_left fun hnone => ?_⟩
      exact ⟨hdel, hnone⟩
    · rename_i hdel
      exact mono (h.applyUpsert hP hnamed (by simpa using hdel)) fun rev d hd =>
        ⟨hd.1, rfl, .inr hd.2⟩
  unfold Push.applyOne
  exact h.bind (h.adapt hM happly) fun rev => h.pure (hM rev) fun _ hd => hd

/-- **A batch**, one change after another: every answer stands for its
change. -/
theorem postChanges (h : CouchAccess C S D K i f db R) (hP : Db.Lasts P)
    (hnamed : ∀ d, P d → d.Named) (changes : List PushChange) :
    AccessDoes S D K i f db R P (Push.postChanges env changes) fun results d =>
      P d ∧ List.Forall₂ (Push.Acknowledged d) changes results := by
  have hall : ∀ changes results, Db.Lasts fun d =>
      List.Forall₂ (Push.Acknowledged d) changes results := fun _ _ d d' hadds hd =>
    hd.imp fun _ _ hone => Db.Lasts.acknowledged hadds hone
  induction changes generalizing P with
  | nil => exact h.pure (hP.and (hall [] [])) fun d hd => ⟨hd, .nil⟩
  | cons change changes ih =>
    have hone : ∀ result, Db.Lasts fun d => P d ∧ Push.Acknowledged d change result := fun _ =>
      hP.and Db.Lasts.acknowledged
    unfold Push.postChanges
    refine h.bind (h.applyOne hP hnamed) fun result => ?_
    refine h.bind (ih (hone result) fun d hd => hnamed d hd.1) fun results => ?_
    exact h.pure (hP.and (hall _ _)) fun d hd => ⟨hd.1.1, .cons hd.1.2 hd.2⟩

end CouchAccess

end FileSync
