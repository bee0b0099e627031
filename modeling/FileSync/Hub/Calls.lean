import FileSync.Model.Push
/-!
# Which requests the hub's programs make

What holds of every request of the kinds the resolver makes holds of every
request of a resolution, and the same of a push.
-/

namespace FileSync

open Fallible (All)

variable {φ : ∀ ⦃β : Type⦄, CouchReq β → Prop}

/-- What the resolver reads of CouchDB. -/
structure ReadCalls (φ : ∀ ⦃β : Type⦄, CouchReq β → Prop) : Prop where
  getDoc : ∀ id, φ (.getDoc id)
  getDocAtRev : ∀ id rev, φ (.getDocAtRev id rev)
  getAttachment : ∀ id rev, φ (.getAttachment id rev)
  openRevs : ∀ id, φ (.openRevs id)

/-- What the resolver asks CouchDB. -/
structure ResolverCalls (φ : ∀ ⦃β : Type⦄, CouchReq β → Prop) : Prop extends ReadCalls φ where
  putDoc : ∀ id rev body, φ (.putDoc .resolver id rev body)
  putAttachment : ∀ id rev a, φ (.putAttachment .resolver id rev a)
  deleteDoc : ∀ id rev, φ (.deleteDoc .resolver id rev)

/-- What a push asks it besides. -/
structure PushCalls (φ : ∀ ⦃β : Type⦄, CouchReq β → Prop) : Prop extends ResolverCalls φ where
  putDocPush : ∀ id rev body, φ (.putDoc .push id rev body)
  putAttachmentPush : ∀ id rev a, φ (.putAttachment .push id rev a)
  deleteDocPush : ∀ id rev, φ (.deleteDoc .push id rev)
  bulkDocs : ∀ change deleted content parent,
    φ (.bulkDocs (Push.branchDoc change deleted content parent))

/-- One call, whatever is made of its answer. -/
theorem all_call {β ε α : Type} {e : CouchReq β} (h : φ e) (f : β → Except ε α) :
    All φ (.mk (.call e fun r => .done (f r)) : Hub ε α) :=
  ⟨h, fun _ => trivial⟩

namespace CouchClient

variable {α : Type}

/-- An attachment that can be sent is one request, and one that cannot be is
none. -/
theorem all_putAttachment {caller : Caller} {id : Path} {rev : Rev} {contentType : String}
    {bytes : Bytes} (h : φ (.putAttachment caller id rev ⟨contentType, bytes⟩)) :
    All φ (putAttachment caller id rev contentType bytes) := by
  unfold putAttachment
  split
  · exact (Fallible.all_ask _ _).2 h
  · exact Fallible.all_throw _

/-- A document that is not there is no error. -/
theorem orMissing_orNotFound (x : Option α) : orMissing none ((Couch.orNotFound x).map some) = .ok x := by
  cases x <;> rfl

/-- A document that is not read is missing, or the read failed. -/
theorem orMissing_error (missing : α) (f : HttpFailure) : orMissing missing (.error f) = .ok missing ∨
    orMissing missing (.error f) = .error (.ofFailure f) := by
  unfold orMissing
  split
  · rename_i h
    cases h
  · exact .inl rfl
  · rename_i h
    cases h
    exact .inr rfl

/-- A document that is read was answered. -/
theorem orMissing_eq_ok_some {r : Except HttpFailure α} {a : α}
    (h : orMissing none (r.map some) = .ok (some a)) : r = .ok a := by
  cases r with
  | ok b => exact congrArg Except.ok (Option.some.inj (Except.ok.inj h))
  | error f =>
    rcases orMissing_error (none : Option α) f with hf | hf <;> cases hf.symm.trans h

end CouchClient

namespace Resolver

variable {env : HubEnv} {path : Path}

theorem all_leafFromDoc (h : ReadCalls φ) (doc : RevDoc) : All φ (leafFromDoc path doc) := by
  unfold leafFromDoc
  split
  · exact .bind (Fallible.all_pure _) fun _ => Fallible.all_pure _
  · exact .bind (.adapt (all_call (h.getAttachment _ _) _)) fun _ => Fallible.all_pure _

theorem all_fetchLeaf (h : ReadCalls φ) (rev : Rev) : All φ (fetchLeaf path rev) := by
  refine .bind (.adapt (all_call (h.getDocAtRev _ _) _)) fun doc => .bind ?_ fun _ => all_leafFromDoc h _
  cases doc
  exacts [Fallible.all_throw _, Fallible.all_pure _]

theorem all_fetchLeaves (h : ReadCalls φ) (revs : List Rev) :
    All φ (fetchLeaves path revs) := by
  induction revs with
  | nil => exact Fallible.all_pure _
  | cons rev revs ih => exact .bind (all_fetchLeaf h rev) fun _ => .bind ih fun _ => Fallible.all_pure _

theorem all_leavesFromDocs (h : ReadCalls φ) (docs : List RevDoc) :
    All φ (leavesFromDocs path docs) := by
  induction docs with
  | nil => exact Fallible.all_pure _
  | cons doc docs ih => exact .bind (all_leafFromDoc h doc) fun _ => .bind ih fun _ => Fallible.all_pure _

theorem all_orMissingLeaf {α : Type} (a : Option α) : All φ (orMissingLeaf a) := by
  cases a
  exacts [Fallible.all_throw _, Fallible.all_pure _]

theorem all_mergeBase (h : ReadCalls φ) (winner loser : Leaf) :
    All φ (mergeBase path winner loser) := by
  unfold mergeBase
  split
  · split
    · refine .bind (.attempt (all_call (h.getAttachment _ _) _)) fun r => ?_
      cases r <;> exact Fallible.all_pure _
    · exact Fallible.all_pure _
  · exact Fallible.all_pure _

theorem all_planResolution (h : ReadCalls φ) (leaves : List Leaf) (winnerRev : Rev) :
    All φ (planResolution env path leaves winnerRev) := by
  refine .bind (all_orMissingLeaf _) fun winner => ?_
  dsimp only
  split
  · refine .bind (all_orMissingLeaf _) fun other => .bind (all_mergeBase h _ _) fun base => ?_
    split <;> exact Fallible.all_pure _
  · split <;> exact Fallible.all_pure _

theorem all_firstFree (h : ReadCalls φ) (base : String) (n fuel : ℕ) :
    All φ (firstFree base env.today n fuel) := by
  induction fuel generalizing n with
  | zero => exact Fallible.all_throw _
  | succ fuel ih =>
    refine .bind (.adapt (all_call (h.getDoc _) _)) fun doc => ?_
    cases doc
    exacts [Fallible.all_pure _, ih _]

theorem all_writeCopies (h : ResolverCalls φ) (copies : List Copy) :
    All φ (writeCopies env path copies) := by
  induction copies with
  | nil => exact Fallible.all_pure _
  | cons copy copies ih =>
    refine .bind (.bind (all_firstFree h.toReadCalls _ _ _) fun _ => ?_) fun _ =>
      .bind ih fun _ => Fallible.all_pure _
    exact .bind (.adapt (all_call (h.putDoc _ _ _) _)) fun _ =>
      .bind (.adapt (CouchClient.all_putAttachment (h.putAttachment _ _ _))) fun _ => Fallible.all_pure _

theorem all_writeFinal (h : ResolverCalls φ) (plan : Plan) : All φ (writeFinal path plan) := by
  unfold writeFinal
  split
  · exact Fallible.all_pure _
  · exact .bind (.adapt (all_call (h.putDoc _ _ _) _)) fun _ =>
      .bind (.adapt (CouchClient.all_putAttachment (h.putAttachment _ _ _))) fun _ => Fallible.all_pure _

theorem all_deleteLosers (h : ResolverCalls φ) (revs : List Rev) :
    All φ (deleteLosers path revs) := by
  induction revs with
  | nil => exact Fallible.all_pure _
  | cons rev revs ih => exact .bind (.adapt (all_call (h.deleteDoc _ _) _)) fun _ => ih

theorem all_applyPlan (h : ResolverCalls φ) (plan : Plan) : All φ (applyPlan env path plan) :=
  .bind (all_writeCopies h _) fun _ => .bind (all_writeFinal h _) fun _ =>
    .bind (all_deleteLosers h _) fun _ => Fallible.all_pure _

theorem all_applyOrRetry (h : ResolverCalls φ) (plan : Plan) {again : Hub ResolveError Outcome}
    (hagain : All φ again) : All φ (applyOrRetry env path plan again) := by
  refine .bind (.attempt (all_applyPlan h plan)) fun r => ?_
  rcases r with (e | _ | _ | _ | _) | copies
  exacts [Fallible.all_throw _, hagain, Fallible.all_throw _, Fallible.all_throw _,
    Fallible.all_throw _, Fallible.all_pure _]

theorem all_resolveDeleteWinnerLoop (h : ResolverCalls φ) (tries : ℕ) :
    All φ (resolveDeleteWinnerLoop env path tries) := by
  induction tries with
  | zero => exact Fallible.all_throw _
  | succ tries ih =>
    refine .bind (.adapt (all_call (h.openRevs _) _)) fun raws => ?_
    split
    · exact Fallible.all_pure _
    · refine .bind (all_leavesFromDocs h.toReadCalls _) fun leaves => ?_
      split
      exacts [Fallible.all_pure _, all_applyOrRetry h _ ih]

/-- **Every request of a resolution** is of the resolver's kinds. -/
theorem all_resolve (h : ResolverCalls φ) : All φ (resolve env path) := by
  have hloop : ∀ tries, All φ (resolveLoop env path tries) := by
    intro tries
    induction tries with
    | zero => exact Fallible.all_throw _
    | succ tries ih =>
      refine .bind (.adapt (all_call (h.getDoc _) _)) fun winner => ?_
      cases winner with
      | none => exact all_resolveDeleteWinnerLoop h _
      | some winner =>
        dsimp only
        split
        · exact Fallible.all_pure _
        · exact .bind (all_fetchLeaves h.toReadCalls _) fun _ =>
            .bind (all_planResolution h.toReadCalls _ _) fun _ => all_applyOrRetry h _ ih
  exact hloop _

end Resolver

namespace Push

variable {env : HubEnv}

theorem all_orConflict {α : Type} (a : Option α) : All φ (orConflict a) := by
  cases a
  exacts [Fallible.all_throw _, Fallible.all_pure _]

theorem all_branchParent (h : ReadCalls φ) (change : PushChange) : All φ (branchParent change) := by
  unfold branchParent
  split
  · exact .bind (.adapt (all_call (h.getDocAtRev _ _) _)) fun _ =>
      .bind (all_orConflict _) fun _ => Fallible.all_pure _
  · exact Fallible.all_pure _

/-- A branch is the only thing the resolver would not write. -/
theorem all_branchAndResolve (h : ResolverCalls φ) (hbulk : ∀ change deleted content parent,
    φ (.bulkDocs (branchDoc change deleted content parent))) (change : PushChange) (deleted : Bool)
    (content : Option Bytes) : All φ (branchAndResolve env change deleted content) := by
  refine .bind (all_branchParent h.toReadCalls change) fun parent =>
    .bind (.adapt (all_call (hbulk _ _ _ _) _)) fun _ => ?_
  refine .bind (.attempt (Resolver.all_resolve h)) fun r => ?_
  cases r with
  | error e => exact Fallible.all_throw _
  | ok outcome =>
    exact .bind (.adapt (all_call (h.getDoc _) _)) fun _ =>
      .bind (all_orConflict _) fun _ => Fallible.all_pure _

theorem all_applyDelete (h : ResolverCalls φ) (hdelete : ∀ id rev, φ (.deleteDoc .push id rev))
    (hbulk : ∀ change deleted content parent,
      φ (.bulkDocs (branchDoc change deleted content parent))) (change : PushChange) :
    All φ (applyDelete env change) := by
  unfold applyDelete
  split
  · refine .bind (.adapt (all_call (h.getDoc _) _)) fun doc => ?_
    cases doc
    exacts [Fallible.all_pure _, Fallible.all_throw _]
  · refine .bind (.attempt (all_call (hdelete _ _) _)) fun r => ?_
    rcases r with (_ | _ | _ | _ | _) | rev
    exacts [Fallible.all_throw _, Fallible.all_throw _, Fallible.all_throw _,
      all_branchAndResolve h hbulk _ _ _, Fallible.all_throw _, Fallible.all_pure _]

theorem all_apply (h : PushCalls φ) (change : PushChange) : All φ (apply env change) := by
  unfold apply
  split
  · exact all_applyDelete h.toResolverCalls h.deleteDocPush h.bulkDocs change
  · unfold applyUpsert
    split
    · refine .bind (Fallible.all_pure _) fun content =>
        .bind (.attempt (all_call (h.putDocPush _ _ _) _)) fun r => ?_
      rcases r with (_ | _ | _ | _ | _) | rev
      exacts [Fallible.all_throw _, Fallible.all_throw _, Fallible.all_throw _,
        all_branchAndResolve h.toResolverCalls h.bulkDocs _ _ _, Fallible.all_throw _,
        .bind (.adapt (CouchClient.all_putAttachment (h.putAttachmentPush _ _ _))) fun _ => Fallible.all_pure _]
    · exact Fallible.all_throw _

/-- **Every request of a push** is of a push's kinds or the resolver's. -/
theorem all_postChanges (h : PushCalls φ) (changes : List PushChange) :
    All φ (postChanges env changes) := by
  induction changes with
  | nil => exact Fallible.all_pure _
  | cons change changes ih =>
    exact .bind (.bind (.adapt (all_apply h change)) fun _ => Fallible.all_pure _) fun _ =>
      .bind ih fun _ => Fallible.all_pure _

end Push

end FileSync
