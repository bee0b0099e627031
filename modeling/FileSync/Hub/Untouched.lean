import FileSync.Common.Refinement
import FileSync.Hub.Acknowledged
import FileSync.Hub.Addressing
/-!
# Documents nobody names

A handler writes the documents the paths in its request lead to, and conflict
copies beside them. A copy is written as a document that is not there yet, so
one that is there and alive is refused, and the copy's content is attached
only to what was not refused. Whatever runs beside whatever, a live document
no named path leads to stays as it is.
-/

namespace FileSync

open Addressing (Document read)

namespace CouchReq

/-- The request writes nothing. -/
def Reads ⦃β : Type⦄ : CouchReq β → Prop
  | .putDoc .. | .putAttachment .. | .deleteDoc .. | .bulkDocs .. => False
  | _ => True

instance {β : Type} : DecidablePred (Reads (β := β)) := fun e => by
  cases e <;> unfold Reads <;> infer_instance

/-- The request writes nothing to this document but perhaps its first
revision. -/
def Spares (q : Path) ⦃β : Type⦄ : CouchReq β → Prop
  | .putDoc _ id rev _ => id ≠ q ∨ rev = none
  | .putAttachment _ id _ _ => id ≠ q
  | .deleteDoc _ id _ => id ≠ q
  | .bulkDocs doc => doc.id ≠ q
  | _ => True

/-- No first revision of the document is accepted. -/
def RefusesFirst (q : Path) ⦃β : Type⦄ : CouchReq β → β → Prop
  | .putDoc _ id rev _, b => rev = none → ∀ r, b = .ok r → id ≠ q
  | _, _ => True

/-- The same of the document that the request's URL stands for; one that
stands for none only reads. -/
def SparesAt (U : UrlRules) (q : Path) ⦃β : Type⦄ (e : CouchReq β) : Prop :=
  match e.urlId? with
  | none => e.Spares q
  | some id => (e.Reads ∨ Document U id) ∧ (e.toDoc (read U id)).Spares q

def RefusesFirstAt (U : UrlRules) (q : Path) ⦃β : Type⦄ (e : CouchReq β) (b : β) : Prop :=
  match e.urlId? with
  | none => True
  | some id => (e.toDoc (read U id)).RefusesFirst q b

end CouchReq

/-- The path leads to a document, and to another one than this. -/
structure Aside (U : UrlRules) (q path : Path) : Prop where
  document : Document U path
  read_ne : read U path ≠ q
  ne : path ≠ q

instance {U : UrlRules} {q path : Path} : Decidable (Aside U q path) :=
  decidable_of_iff (Document U path ∧ read U path ≠ q ∧ path ≠ q)
    ⟨fun h => ⟨h.1, h.2.1, h.2.2⟩, fun h => ⟨h.document, h.read_ne, h.ne⟩⟩

/-- The program leaves a live document alone. -/
abbrev SparesLive {ε α : Type} (U : UrlRules) (q : Path) (x : Hub ε α) : Prop :=
  Fallible.Given (CouchReq.SparesAt U q) (CouchReq.RefusesFirstAt U q) (fun _ => True) x

variable {U : UrlRules} {q path : Path} {env : HubEnv}

theorem reads_spare : ReadCalls (CouchReq.SparesAt U q) where
  getDoc _ := ⟨.inl trivial, trivial⟩
  getDocAtRev _ _ := ⟨.inl trivial, trivial⟩
  getAttachment _ _ := ⟨.inl trivial, trivial⟩
  openRevs _ := ⟨.inl trivial, trivial⟩

namespace CouchClient

theorem spares_putDoc {caller : Caller} {rev : Option Rev} {body : Body} (h : Aside U q path) :
    SparesLive U q (putDoc caller path rev body) :=
  .ask (e := CouchReq.putDoc caller path rev body) _ ⟨.inr h.document, .inl h.read_ne⟩
    fun _ _ => trivial

/-- A first revision that is accepted is another document's. -/
theorem spares_putFirst {caller : Caller} {body : Body} (h : Document U path) :
    Fallible.Given (CouchReq.SparesAt U q) (CouchReq.RefusesFirstAt U q) (fun _ => read U path ≠ q)
      (putDoc caller path none body) :=
  .ask (e := CouchReq.putDoc caller path none body) _ ⟨.inr h, .inr rfl⟩
    fun r hr => hr rfl r rfl

theorem spares_putAttachment {caller : Caller} {rev : Rev} {contentType : String} {bytes : Bytes}
    (h : Document U path) (hne : read U path ≠ q) :
    SparesLive U q (putAttachment caller path rev contentType bytes) := by
  unfold putAttachment
  split
  · exact .ask (e := CouchReq.putAttachment caller path rev ⟨contentType, bytes⟩) _ ⟨.inr h, hne⟩
      fun _ _ => trivial
  · exact .throw _

theorem spares_deleteDoc {caller : Caller} {rev : Rev} (h : Aside U q path) :
    SparesLive U q (deleteDoc caller path rev) :=
  .ask (e := CouchReq.deleteDoc caller path rev) _ ⟨.inr h.document, h.read_ne⟩ fun _ _ => trivial

theorem spares_putRevision {doc : BranchDoc} (h : doc.id ≠ q) : SparesLive U q (putRevision doc) :=
  .ask (e := CouchReq.bulkDocs doc) _ h fun _ _ => trivial

theorem spares_getDoc : SparesLive U q (getDoc path) :=
  Fallible.All.given (all_call (reads_spare.getDoc path) _)

end CouchClient

/-! ## Resolving -/

namespace Resolver

open CouchClient

/-- The names that copies are looked for under are documents'. -/
theorem document_conflictName (h : Document U path) (today : String) (n : ℕ) :
    Document U (conflictName path today n) := by
  have hmark : 2 ≤ (kept ".conflict-").toList.length := by decide
  cases n with
  | zero =>
    show Document U (path ++ ".conflict-" ++ today)
    exact h.append hmark
  | succ n =>
    have hname : conflictName path today (n + 1) =
        path ++ ".conflict-" ++ (today ++ "." ++ toString n) := by
      rw [← String.append_assoc, ← String.append_assoc]
      rfl
    exact hname ▸ h.append hmark

theorem spares_firstFree (h : Document U path) (today : String) (n fuel : ℕ) :
    Fallible.Given (CouchReq.SparesAt U q) (CouchReq.RefusesFirstAt U q) (Document U)
      (firstFree path today n fuel) := by
  induction fuel generalizing n with
  | zero => exact .throw _
  | succ fuel ih =>
    refine .bind spares_getDoc.adapt fun doc _ => ?_
    cases doc with
    | none => exact .pure (document_conflictName h today n)
    | some doc => exact ih _

/-- **A conflict copy**, whatever name is found free. -/
theorem spares_writeCopy (h : Document U path) (copy : Copy) :
    SparesLive U q (writeCopy env path copy) := by
  refine .bind (spares_firstFree h _ _ _) fun copyPath hcopy => ?_
  -- that the first half was not refused says which document it is not
  refine .bind (spares_putFirst hcopy).adapt fun rev hrev => ?_
  exact .bind (spares_putAttachment hcopy hrev).adapt fun _ _ => .pure trivial

theorem spares_writeCopies (h : Document U path) (copies : List Copy) :
    SparesLive U q (writeCopies env path copies) := by
  induction copies with
  | nil => exact .pure trivial
  | cons copy copies ih =>
    exact .bind (spares_writeCopy h copy) fun _ _ => .bind ih fun _ _ => .pure trivial

theorem spares_writeFinal (h : Aside U q path) (plan : Plan) : SparesLive U q (writeFinal path plan) := by
  unfold writeFinal
  split
  · exact .pure trivial
  · exact .bind (spares_putDoc h).adapt fun _ _ =>
      .bind (spares_putAttachment h.document h.read_ne).adapt fun _ _ => .pure trivial

theorem spares_deleteLosers (h : Aside U q path) (revs : List Rev) :
    SparesLive U q (deleteLosers path revs) := by
  induction revs with
  | nil => exact .pure trivial
  | cons rev revs ih => exact .bind (spares_deleteDoc h).adapt fun _ _ => ih

theorem spares_applyPlan (h : Aside U q path) (plan : Plan) : SparesLive U q (applyPlan env path plan) :=
  .bind (spares_writeCopies h.document _) fun _ _ => .bind (spares_writeFinal h plan) fun _ _ =>
    .bind (spares_deleteLosers h _) fun _ _ => .pure trivial

theorem spares_applyOrRetry (h : Aside U q path) (plan : Plan) {again : Hub ResolveError Outcome}
    (hagain : SparesLive U q again) : SparesLive U q (applyOrRetry env path plan again) := by
  refine .bind (spares_applyPlan h plan).attempt fun r _ => ?_
  rcases r with (e | _ | _ | _ | _) | copies
  · exact .throw _
  · exact hagain
  · exact .throw _
  · exact .throw _
  · exact .throw _
  · exact .pure trivial

theorem spares_resolveDeleteWinnerLoop (h : Aside U q path) (tries : ℕ) :
    SparesLive U q (resolveDeleteWinnerLoop env path tries) := by
  induction tries with
  | zero => exact .throw _
  | succ tries ih =>
    have hleaves : SparesLive U q (getDocLeaves env.leafLines path) :=
      Fallible.All.given (all_call (reads_spare.openRevs path) _)
    refine .bind hleaves.adapt fun raws _ => ?_
    split
    · exact .pure trivial
    · refine .bind (Fallible.All.given (all_leavesFromDocs reads_spare raws)) fun leaves _ => ?_
      split
      · exact .pure trivial
      · exact spares_applyOrRetry h _ ih

/-- **A resolution.** -/
theorem spares_resolve (h : Aside U q path) : SparesLive U q (resolve env path) := by
  have hloop : ∀ tries, SparesLive U q (resolveLoop env path tries) := by
    intro tries
    induction tries with
    | zero => exact .throw _
    | succ tries ih =>
      refine .bind spares_getDoc.adapt fun winner _ => ?_
      cases winner with
      | none => exact spares_resolveDeleteWinnerLoop h _
      | some winner =>
        dsimp only
        split
        · exact .pure trivial
        · exact .bind (Fallible.All.given (all_fetchLeaves reads_spare _)) fun leaves _ =>
            .bind (Fallible.All.given (all_planResolution reads_spare leaves _)) fun plan _ =>
              spares_applyOrRetry h plan ih
  exact hloop _

end Resolver

/-! ## Pushing -/

namespace Push

open CouchClient

theorem spares_branchAndResolve {change : PushChange} (h : Aside U q change.path) (deleted : Bool)
    (content : Option Bytes) : SparesLive U q (branchAndResolve env change deleted content) := by
  refine .bind (Fallible.All.given (all_branchParent reads_spare change)) fun parent _ => ?_
  refine .bind (spares_putRevision h.ne).adapt fun _ _ => ?_
  refine .bind (Resolver.spares_resolve h).attempt fun r _ => ?_
  cases r with
  | error e => exact .throw _
  | ok outcome =>
    exact .bind spares_getDoc.adapt fun winner _ =>
      .bind (Fallible.All.given (all_orConflict winner)) fun _ _ => .pure trivial

theorem spares_applyDelete {change : PushChange} (h : Aside U q change.path) :
    SparesLive U q (applyDelete env change) := by
  unfold applyDelete
  split
  · refine .bind spares_getDoc.adapt fun doc _ => ?_
    cases doc with
    | none => exact .pure trivial
    | some doc => exact .throw _
  · refine .bind (spares_deleteDoc h).attempt fun r _ => ?_
    rcases r with (_ | _ | _ | _ | _) | rev
    · exact .throw _
    · exact .throw _
    · exact .throw _
    · exact spares_branchAndResolve h _ _
    · exact .throw _
    · exact .pure trivial

theorem spares_applyUpsert {change : PushChange} (h : Aside U q change.path) :
    SparesLive U q (applyUpsert env change) := by
  unfold applyUpsert
  split
  · refine .bind (.pure (G := fun _ => True) trivial) fun content _ => ?_
    refine .bind (spares_putDoc h).attempt fun r _ => ?_
    rcases r with (_ | _ | _ | _ | _) | rev
    · exact .throw _
    · exact .throw _
    · exact .throw _
    · exact spares_branchAndResolve h _ _
    · exact .throw _
    · exact .bind (spares_putAttachment h.document h.read_ne).adapt fun _ _ => .pure trivial
  · exact .throw _

/-- **A push of other paths.** -/
theorem spares_postChanges {changes : List PushChange} (h : ∀ change ∈ changes, Aside U q change.path) :
    SparesLive U q (postChanges env changes) := by
  induction changes with
  | nil => exact .pure trivial
  | cons change changes ih =>
    have hone : SparesLive U q (apply env change) := by
      unfold apply
      split
      · exact spares_applyDelete (h change List.mem_cons_self)
      · exact spares_applyUpsert (h change List.mem_cons_self)
    have hresult : SparesLive U q (applyOne env change) := .bind hone.adapt fun _ _ => .pure trivial
    exact .bind hresult fun _ _ =>
      .bind (ih fun c hc => h c (List.mem_cons_of_mem _ hc)) fun _ _ => .pure trivial

end Push

namespace Routes

theorem spares_getChanges (since : Option Checkpoint) : SparesLive U q (getChanges since) :=
  .bind (Fallible.Given.adapt (Fallible.All.given (all_call trivial _))) fun _ _ => .pure trivial

theorem spares_getFile (path : Path) : SparesLive U q (getFile path) := by
  refine .bind CouchClient.spares_getDoc.adapt fun doc _ => ?_
  cases doc with
  | none => exact .throw _
  | some doc =>
    have hcontent : SparesLive U q (CouchClient.getAttachment path none) :=
      Fallible.All.given (all_call (reads_spare.getAttachment path none) _)
    exact .bind hcontent.adapt fun _ _ => .pure trivial

end Routes

/-! ## Every run -/

/-- The request names a document that is to be written. -/
def Handler.Names (q : Path) : Handler → Prop
  | .postChanges changes => ∃ change ∈ changes, change.path = q
  | .resolve path => path = q
  | _ => False

theorem Handler.given_prog {handler : Handler} (h : ∀ path, handler.Names path → Aside U q path) :
    (handler.prog env).Given (CouchReq.SparesAt U q) (CouchReq.RefusesFirstAt U q) fun _ => True := by
  cases handler with
  | postChanges changes =>
    exact Prog.Given.bind
      (Push.spares_postChanges fun change hc => h _ ⟨change, hc, rfl⟩) fun _ _ => trivial
  | getChanges since => exact Prog.Given.bind (Routes.spares_getChanges since) fun _ _ => trivial
  | getFile path => exact Prog.Given.bind (Routes.spares_getFile path) fun _ _ => trivial
  | resolve path => exact Prog.Given.bind (Resolver.spares_resolve (h path rfl)) fun _ _ => trivial

/-- A first revision is put on no live document. -/
theorem Couch.putParent_none {t : Tree} (h : t.visible.isSome = true) :
    Couch.putParent t none = .error Couch.conflict := by
  unfold Tree.visible at h
  cases hw : t.winner with
  | none =>
    rw [hw] at h
    cases h
  | some n =>
    rw [hw, Option.isSome_filter] at h
    simp only [Couch.putParent, hw]
    rw [if_neg (by simpa using h)]

namespace Serving

variable {ι : Type} {C : Couch} {db : Db} {t : Tree}

/-- **One request** that spares a live document leaves it as it is. -/
theorem docs_answer_of_spares {β : Type} {e : CouchReq β} (he : e.Spares q)
    (ht : t.visible.isSome = true) (h : db.docs q = t) :
    e.RefusesFirst q (C.answer e db).1 ∧ (C.answer e db).2.docs q = t := by
  have hother : ∀ id n, id ≠ q → (db.write id n).docs q = t := fun id n hne =>
    (Function.update_of_ne hne.symm _ _).trans h
  cases e with
  | putDoc caller id rev body =>
    by_cases hid : id = q
    · -- it is alive, so the write is refused
      subst hid
      obtain rfl := he.resolve_left fun hne => hne rfl
      simp only [Couch.answer, h, Couch.putParent_none ht]
      refine ⟨fun _ r hr => ?_, trivial⟩
      cases hr
    · refine ⟨fun _ _ _ => hid, ?_⟩
      simp only [Couch.answer]
      split
      · exact hother id _ hid
      · exact h
  | putAttachment caller id rev a =>
    refine ⟨trivial, ?_⟩
    simp only [Couch.answer]
    split
    · exact hother id _ he
    · exact h
  | deleteDoc caller id rev =>
    refine ⟨trivial, ?_⟩
    simp only [Couch.answer]
    split
    · exact hother id _ he
    · exact h
  | bulkDocs doc =>
    refine ⟨trivial, ?_⟩
    simp only [Couch.answer]
    split
    · exact h
    · exact hother doc.id _ he
  | getDoc _ | getDocAtRev _ _ | getAttachment _ _ | openRevs _ | changes _ => exact ⟨trivial, h⟩

/-- What CouchDB makes of a request: it acts on the document that the URL
stands for. What it makes of a URL that stands for none is its own affair, but
reading changes nothing. -/
def answerAt (C : Couch) (U : UrlRules) (beside : ∀ ⦃β : Type⦄, CouchReq β → Db → β × Db)
    ⦃β : Type⦄ (e : CouchReq β) (db : Db) : β × Db :=
  match e.urlId? with
  | none => C.answer e db
  | some id =>
    if Document U id then C.answer (e.toDoc (read U id)) db
    else if e.Reads then ((beside e db).1, db)
    else beside e db

/-- Requests that go where their URLs lead, delivered or lost. -/
def addressed (ι : Type) (C : Couch) (U : UrlRules)
    (beside : ∀ ⦃β : Type⦄, CouchReq β → Db → β × Db) :
    Semantics ι CouchReq Delivery BranchDoc Db where
  exec _ _ e o db :=
    match o with
    | .delivered => answerAt C U beside e db
    | .unsent => (e.lost, db)
    | .unanswered => (e.lost, (answerAt C U beside e db).2)
  env doc db := (C.answer (.bulkDocs doc) db).2

variable {beside : ∀ ⦃β : Type⦄, CouchReq β → Db → β × Db}

theorem docs_answerAt_of_spares {β : Type} {e : CouchReq β} (he : e.SparesAt U q)
    (ht : t.visible.isSome = true) (h : db.docs q = t) :
    e.RefusesFirstAt U q (answerAt C U beside e db).1 ∧ (answerAt C U beside e db).2.docs q = t := by
  unfold CouchReq.SparesAt at he
  unfold CouchReq.RefusesFirstAt answerAt
  cases hid : e.urlId? with
  | none =>
    rw [hid] at he
    exact ⟨trivial, (docs_answer_of_spares he ht h).2⟩
  | some id =>
    rw [hid] at he
    obtain ⟨hdoc, hspares⟩ := he
    dsimp only
    by_cases hid' : Document U id
    · rw [if_pos hid']
      exact docs_answer_of_spares hspares ht h
    · have hreads := hdoc.resolve_right hid'
      rw [if_neg hid', if_pos hreads]
      refine ⟨?_, h⟩
      cases e with
      | putDoc => exact hreads.elim
      | _ => trivial

/-- A request without an answer has not been refused, or accepted. -/
theorem refusesFirst_lost {β : Type} (e : CouchReq β) : e.RefusesFirstAt U q e.lost := by
  cases e with
  | putDoc caller id rev body =>
    intro _ r hr
    cases hr
  | _ => trivial

/-- **Every run** of programs that spare a live document. -/
theorem docs_runs_of_spares {α : Type} [DecidableEq ι] {c : Config ι CouchReq α Db}
    (hall : ∀ i, (c.task i).Given (CouchReq.SparesAt U q) (CouchReq.RefusesFirstAt U q)
      fun _ => True)
    (hlive : (c.state.docs q).visible.isSome = true) {ms : List (Move ι Delivery BranchDoc)}
    (hms : ∀ m ∈ ms, m.Allowed (fun _ => True) fun doc => doc.id ≠ q) :
    (c.runs (addressed ι C U beside) ms).state.docs q = c.state.docs q := by
  have hexec : ∀ (i : ι) ⦃β : Type⦄ (e : CouchReq β) (o : Delivery) (db' : Db), True →
      e.SparesAt U q → db'.docs q = c.state.docs q →
        e.RefusesFirstAt U q ((addressed ι C U beside).exec i e o db').1 ∧
          ((addressed ι C U beside).exec i e o db').2.docs q = c.state.docs q := by
    intro i β e o db' _ he h
    cases o with
    | delivered => exact docs_answerAt_of_spares he hlive h
    | unsent => exact ⟨refusesFirst_lost e, h⟩
    | unanswered => exact ⟨refusesFirst_lost e, (docs_answerAt_of_spares he hlive h).2⟩
  exact (Config.runs_of_given (S := addressed ι C U beside) hexec
    (fun doc _ hne h => (docs_answer_of_spares (e := .bulkDocs doc) hne hlive h).2) hall rfl hms).2

/-- **A live document nobody names is never touched**: in every run of any
handlers, all of whose paths lead to other documents, with requests and answers
lost and other documents' revisions coming in from other hubs, its tree stays
as it is; no conflict copy is written on it, whatever its name. -/
theorem live_untouched [DecidableEq ι] (C : Couch) (U : UrlRules)
    (beside : ∀ ⦃β : Type⦄, CouchReq β → Db → β × Db) (env : HubEnv) (handlers : ι → Handler)
    (db : Db) (hlive : (db.docs q).visible.isSome = true)
    (hnames : ∀ i path, (handlers i).Names path → Aside U q path)
    (ms : List (Move ι Delivery BranchDoc))
    (hms : ∀ m ∈ ms, m.Allowed (fun _ => True) fun doc => doc.id ≠ q) :
    (Config.runs (addressed ι C U beside) ⟨fun i => (handlers i).prog env, db⟩ ms).state.docs q =
      db.docs q :=
  docs_runs_of_spares (fun i => Handler.given_prog (hnames i)) hlive hms

/-- A file that has the name the first conflict copy of `a` would get. -/
def copyTaken : Db :=
  Db.empty.write "a.conflict-01.01.2026" ⟨⟨1, "z"⟩, [], false, ⟨none, some 3, none⟩,
    some ⟨octetStream, [7]⟩⟩

/-- The copy is written under the next name, and the file is left alone. -/
theorem copyTaken_untouched :
    (Config.runs (addressed Bool (Couch.counting true) Addressing.encodingSlashes
          fun _ e db => (e.lost, db))
        ⟨fun i => (bothNew i).prog .plain, copyTaken⟩
        overtaken).state.docs "a.conflict-01.01.2026" = copyTaken.docs "a.conflict-01.01.2026" ∧
      ((Config.runs (addressed Bool (Couch.counting true) Addressing.encodingSlashes
          fun _ e db => (e.lost, db))
        ⟨fun i => (bothNew i).prog .plain, copyTaken⟩
        overtaken).state.docs "a.conflict-01.01.2026.0").visible.isSome = true := by
  have hnames : ∀ i path, (bothNew i).Names path →
      Aside Addressing.encodingSlashes "a.conflict-01.01.2026" path := by
    rintro (_ | _) path ⟨change, hchange, rfl⟩ <;>
    · obtain rfl := List.mem_singleton.1 hchange
      decide +kernel
  refine ⟨live_untouched (Couch.counting true) Addressing.encodingSlashes (fun _ e db => (e.lost, db))
    .plain bothNew copyTaken (by decide +kernel) hnames overtaken fun m hm => ?_, by decide +kernel⟩
  have hruns : ∀ m ∈ overtaken, ∃ i, m = .run i .delivered := by
    intro m hm
    rcases List.mem_cons.1 hm with rfl | hm
    · exact ⟨_, rfl⟩
    rcases List.mem_cons.1 hm with rfl | hm
    · exact ⟨_, rfl⟩
    rcases List.mem_cons.1 hm with rfl | hm
    · exact ⟨_, rfl⟩
    · exact ⟨_, List.eq_of_mem_replicate hm⟩
  obtain ⟨i, rfl⟩ := hruns m hm
  trivial

end Serving

end FileSync
