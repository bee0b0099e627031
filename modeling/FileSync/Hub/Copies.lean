import FileSync.Hub.Settling
import FileSync.Hub.Resend
import FileSync.Common.Interleave
/-!
# The copies of one resolution

One resolution runs while others write the path. Copies are written before
the result, and the result is conditioned on the leaves read: where one of
its writes is refused the resolution starts over, and the copies that are
there already are in nobody's report. Where none is refused after the first
copy, what was created is what is reported.
-/

namespace FileSync

/-- A hub's documents, and those the resolution has created, in order. -/
structure Resolving where
  db : Db
  created : List Path

namespace Resolving

open Resolver

/-- A document is created by the write that names no revision. -/
def createdBy ⦃β : Type⦄ : CouchReq β → Db → List Path
  | .putDoc _ id none _, db => if (Couch.putParent (db.docs id) none).isOk then [id] else []
  | _, _ => []

def exec (C : Couch) ⦃β : Type⦄ (e : CouchReq β) (s : Resolving) : β × Resolving :=
  ((C.answer e s.db).1, ⟨(C.answer e s.db).2, s.created ++ createdBy e s.db⟩)

/-- The requests of the resolution, and between them others write what they
like to the path. -/
def semantics (C : Couch) (path : Path) : Semantics Unit CouchReq Unit Node Resolving where
  exec _ _ e _ s := exec C e s
  env n s := { s with db := s.db.write path n }

/-- The request goes through: a write names a leaf, a body names a type its
content can be sent with, and the last of the names for a copy is free. -/
def goesThrough (C : Couch) (env : HubEnv) (path : Path) ⦃β : Type⦄ : CouchReq β → Db → Bool
  | .putDoc _ id rev body, db =>
    (Couch.putParent (db.docs id) rev).isOk && body.contentType.all HeaderValue.accepts
  | .putAttachment _ id rev _, db => ((db.docs id).leaf? rev).isSome
  | .deleteDoc _ id rev, db => (C.deleteParent (db.docs id) rev).isOk
  | .getDoc id, db =>
    id != conflictName path env.today (2 ^ 32 - 1) || (db.docs id).visible.isNone
  | _, _ => true

/-- From the first copy it creates on, everything the resolution asks for
goes through. -/
def Undisturbed (C : Couch) (env : HubEnv) (path : Path) ⦃β : Type⦄ (e : CouchReq β)
    (s : Resolving) : Prop :=
  s.created ++ createdBy e s.db ≠ [] → goesThrough C env path e s.db = true

instance (C : Couch) (env : HubEnv) (path : Path) {β : Type} (e : CouchReq β) (s : Resolving) :
    Decidable (s.Undisturbed C env path e) := inferInstanceAs (Decidable (_ → _ = true))

def condition (C : Couch) (env : HubEnv) (path : Path) :
    StepCond Unit CouchReq Unit Node Resolving where
  call _ _ e _ s := s.Undisturbed C env path e
  env _ _ := True

/-- One resolution that has just begun. -/
def start (env : HubEnv) (path : Path) (db : Db) :
    Config Unit CouchReq (Except ResolveError Outcome) Resolving :=
  ⟨fun _ => (resolve env path).run, ⟨db, []⟩⟩

/-! ## What is to hold in the end -/

/-- The plan is one the resolver makes of these leaves. -/
def Planned (C : Couch) (env : HubEnv) (path : Path) (leaves : List Leaf) (plan : Plan) : Prop :=
  planDeleteWinner leaves = some plan ∨
    ∃ winnerRev db, (Hub.exec C (planResolution env path leaves winnerRev) db).1 = .ok plan

/-- The leaves have the contents of the revisions they are read from. -/
def AreRead (path : Path) (leaves : List Leaf) (s : Resolving) : Prop :=
  ∀ l ∈ leaves, l.deleted = false → (s.db.docs path).content? (some l.rev) = some l.content

/-- These are the documents created, each once and beside the path, and each
shows its content. -/
structure Holds (path : Path) (copies : List (Path × Bytes)) (s : Resolving) : Prop where
  created : s.created = copies.map Prod.fst
  nodup : s.created.Nodup
  beside : ∀ c ∈ copies, c.1 ≠ path
  shown : ∀ c ∈ copies, (s.db.docs c.1).content? none = some c.2

/-- What is reported is what was created, one document for each content the
plan would lose, and the plan is made of what was read. -/
def Reported (C : Couch) (env : HubEnv) (path : Path) (r : Resolved) (s : Resolving) : Prop :=
  ∃ leaves plan copies, s.AreRead path leaves ∧ Planned C env path leaves plan ∧
    r.path = path ∧ r.kind = plan.kind ∧ r.conflictCopies = copies.map Prod.fst ∧
    plan.copies.map Copy.content = copies.map Prod.snd ∧ s.Holds path copies

/-- Every copy is accounted for: a resolution reports those it created, and
one that resolves nothing created none. -/
def Accounted (C : Couch) (env : HubEnv) (path : Path) :
    Except ResolveError Outcome → Resolving → Prop
  | .ok (.resolved r), s => s.Reported C env path r
  | .ok .noConflict, s => s.created = []
  | .error _, s => s.created = []

/-! ## Steps -/

variable {C : Couch} {env : HubEnv} {path q : Path} {s s' : Resolving} {leaves : List Leaf}
  {copies : List (Path × Bytes)}

/-- What others leave: documents other than the path as they are, and the
path with revisions more. -/
structure Others (path : Path) (s s' : Resolving) : Prop where
  created : s'.created = s.created
  others : ∀ p, p ≠ path → s'.db.docs p = s.db.docs p
  grown : s.db.docs path <+: s'.db.docs path

def contract (path : Path) : Contract Unit Resolving := ⟨fun _ => Others path, fun _ _ _ => True⟩

theorem contract_fits : (contract path).Fits (semantics C path) (condition C env path) where
  guar_rely _ _ hne := absurd rfl hne
  env_rely _ n s _ := by
    refine ⟨rfl, fun p hp => Db.write_docs_of_ne hp, ?_⟩
    show s.db.docs path <+: (s.db.write path n).docs path
    rw [Db.write_docs_self]
    exact List.prefix_append _ _

/-! ## What the others do not undo -/

theorem stable_created (l : List Path) : (contract path).Stable () fun s => s.created = l :=
  fun _ _ hs h => h.created.trans hs

theorem AreRead.of_grown (h : s.AreRead path leaves)
    (hgrown : s.db.docs path <+: s'.db.docs path) : s'.AreRead path leaves :=
  fun l hl hd => Tree.content?_of_grown hgrown (h l hl hd)

theorem stable_areRead (leaves : List Leaf) :
    (contract path).Stable () fun s => s.AreRead path leaves :=
  fun _ _ hs h => hs.of_grown h.grown

/-- What leaves the documents beside the path alone creates no copy and
changes none. -/
theorem Holds.of_same (h : s.Holds path copies) (hcreated : s'.created = s.created)
    (hdocs : ∀ p, p ≠ path → s'.db.docs p = s.db.docs p) : s'.Holds path copies := by
  refine ⟨hcreated.trans h.created, hcreated ▸ h.nodup, h.beside, fun c hc => ?_⟩
  rw [hdocs c.1 (h.beside c hc)]
  exact h.shown c hc

theorem stable_holds (copies : List (Path × Bytes)) :
    (contract path).Stable () fun s => s.Holds path copies :=
  fun _ _ hs h => hs.of_same h.created h.others

/-- At the start there is no copy. -/
theorem holds_nil (h : s.created = []) : s.Holds path [] :=
  ⟨h, h ▸ List.nodup_nil, fun _ hc => absurd hc List.not_mem_nil,
    fun _ hc => absurd hc List.not_mem_nil⟩

/-! ## Programs that create no copy unless they succeed -/

/-- From `P` the program comes to `M`, or it fails with no copy created. -/
abbrev Runs (C : Couch) (env : HubEnv) (path : Path) {ε α : Type} (P : Resolving → Prop)
    (x : Hub ε α) (M : α → Resolving → Prop) : Prop :=
  Does (semantics C path) (condition C env path) (contract path) () (fun _ e => .perform e) P x
    (Post (fun s => s.created = []) M)

variable {ε α β γ : Type} {P : Resolving → Prop} {M : α → Resolving → Prop}

theorem Runs.bind {x : Hub ε γ} {g : γ → Hub ε α} (M' : γ → Resolving → Prop)
    (hx : Runs C env path P x M') (hg : ∀ a, Runs C env path (M' a) (g a) M) :
    Runs C env path P (x >>= g) M :=
  Does.bind M' (stable_created []) hx hg

/-- One request. -/
theorem Runs.call {e : CouchReq β} {g : β → Except ε α} (hM : ∀ a, (contract path).Stable () (M a))
    (hok : ∀ s a, P s → s.Undisturbed C env path e → g (exec C e s).1 = .ok a →
      M a (exec C e s).2)
    (herr : ∀ s x, P s → s.Undisturbed C env path e → g (exec C e s).1 = .error x →
      (exec C e s).2.created = []) :
    Runs C env path P (.mk (.call e fun r => .done (g r))) M := by
  refine Triple.call (fun r => Post (fun s => s.created = []) M (g r))
    (fun r => stable_post (stable_created []) hM _) (fun o s hs ho => ⟨trivial, ?_⟩)
    fun r => Triple.done (stable_post (stable_created []) hM _) fun _ h => h
  show Post _ M (g (exec C e s).1) (exec C e s).2
  cases hr : g (exec C e s).1 with
  | ok a => exact hok s a hs ho hr
  | error x => exact herr s x hs ho hr

theorem Runs.adapt {ε' : Type} {x : Hub ε α} {g : ε → ε'}
    (hM : ∀ a, (contract path).Stable () (M a)) (hx : Runs C env path P x M) :
    Runs C env path P (x.adapt g) M :=
  Does.adapt (stable_created []) hM hx

/-! ## Reading and planning -/

/-- No copy is there, and the leaves are as they are read. -/
def Reads (path : Path) (leaves : List Leaf) (s : Resolving) : Prop :=
  s.created = [] ∧ s.AreRead path leaves

theorem stable_reads (leaves : List Leaf) : (contract path).Stable () fun s => s.Reads path leaves :=
  fun _ _ hs h => ⟨h.created.trans hs.1, hs.2.of_grown h.grown⟩

theorem Reads.snoc {leaf : Leaf} (h : s.Reads path leaves)
    (hleaf : leaf.deleted = false → (s.db.docs path).content? (some leaf.rev) = some leaf.content) :
    s.Reads path (leaves ++ [leaf]) := by
  refine ⟨h.1, fun l hl hd => ?_⟩
  rcases List.mem_append.1 hl with hold | hnew
  · exact h.2 l hold hd
  · rw [List.mem_singleton] at hnew
    subst hnew
    exact hleaf hd

theorem orNotFound_eq_ok {x : Option α} {a : α} {f : HttpFailure → ε}
    (h : (Couch.orNotFound x).mapError f = .ok a) : x = some a := by
  cases x with
  | none => cases h
  | some b => exact congrArg some (Except.ok.inj h)

/-- A request that reads leaves everything as it is. -/
theorem exec_read : ReadCalls fun _ e => ∀ s, (exec C e s).2 = s where
  getDoc _ s := congrArg (Resolving.mk s.db) (List.append_nil _)
  getDocAtRev _ _ s := congrArg (Resolving.mk s.db) (List.append_nil _)
  getAttachment _ _ s := congrArg (Resolving.mk s.db) (List.append_nil _)
  openRevs _ s := congrArg (Resolving.mk s.db) (List.append_nil _)

theorem runs_of_reads {x : Hub ε α} (hx : Fallible.All (fun _ e => ∀ s, (exec C e s).2 = s) x) :
    Runs C env path (Reads path leaves) x fun _ => Reads path leaves := by
  refine Does.mono (Does.of_all (stable_reads leaves) (fun _ e he => ?_) hx) (fun _ h => h.1)
    fun _ _ h => h
  refine Triple.perform (fun _ => stable_reads leaves) fun o s hs _ => ⟨trivial, ?_⟩
  show Reads path leaves (exec C e s).2
  rw [he s]
  exact hs

theorem runs_leafFromDoc (doc : RevDoc) :
    Runs C env path (Reads path leaves) (leafFromDoc path doc)
      fun leaf => Reads path (leaves ++ [leaf]) := by
  unfold leafFromDoc
  cases hd : doc.deleted with
  | true =>
    rw [if_pos rfl]
    exact .bind (fun _ => Reads path leaves) (.pure (stable_reads _) fun _ hs => hs) fun content =>
      .pure (stable_reads _) fun s hs => hs.snoc fun h => by cases h
  | false =>
    rw [if_neg Bool.false_ne_true]
    refine .bind (fun content s => s.Reads path leaves ∧
      (s.db.docs path).content? (some doc.rev) = some content) ?_ fun content =>
      .pure (stable_reads _) fun s hs => hs.1.snoc fun _ => hs.2
    have hst : ∀ content, (contract path).Stable () fun s => s.Reads path leaves ∧
        (s.db.docs path).content? (some doc.rev) = some content :=
      fun _ _ _ hs h => ⟨stable_reads _ hs.1 h, Tree.content?_of_grown h.grown hs.2⟩
    refine .adapt hst (.call hst (fun s a hs _ hr => ?_) fun s x hs _ _ => ?_)
    · exact ⟨⟨(List.append_nil _).trans hs.1, hs.2⟩, orNotFound_eq_ok hr⟩
    · exact (List.append_nil _).trans hs.1

theorem runs_fetchLeaf (rev : Rev) :
    Runs C env path (Reads path leaves) (fetchLeaf path rev)
      fun leaf => Reads path (leaves ++ [leaf]) := by
  have hget : Runs C env path (Reads path leaves) (orCouch (CouchClient.getDocAtRev path rev))
      fun _ => Reads path leaves := runs_of_reads (.adapt (all_call (exec_read.getDocAtRev _ _) _))
  exact .bind _ hget fun doc? => .bind _ (runs_of_reads (all_orMissingLeaf doc?)) fun doc =>
    runs_leafFromDoc doc

theorem runs_fetchLeaves (revs : List Rev) :
    Runs C env path (Reads path leaves) (fetchLeaves path revs)
      fun rest => Reads path (leaves ++ rest) := by
  induction revs generalizing leaves with
  | nil => exact .pure (stable_reads _) fun s hs => by rwa [List.append_nil]
  | cons rev revs ih =>
    refine .bind _ (runs_fetchLeaf rev) fun leaf => .bind _ ih fun rest =>
      .pure (stable_reads _) fun s hs => ?_
    rwa [List.append_assoc, List.singleton_append] at hs

theorem runs_leavesFromDocs (docs : List RevDoc) :
    Runs C env path (Reads path leaves) (leavesFromDocs path docs)
      fun rest => Reads path (leaves ++ rest) := by
  induction docs generalizing leaves with
  | nil => exact .pure (stable_reads _) fun s hs => by rwa [List.append_nil]
  | cons doc docs ih =>
    refine .bind _ (runs_leafFromDoc doc) fun leaf => .bind _ ih fun rest =>
      .pure (stable_reads _) fun s hs => ?_
    rwa [List.append_assoc, List.singleton_append] at hs

theorem stable_and (hP : (contract path).Stable () P) (φ : Prop) :
    (contract path).Stable () fun s => P s ∧ φ :=
  fun _ _ hs h => ⟨hP hs.1 h, hs.2⟩

/-- The base is one that could be read of some state of the path. -/
theorem runs_mergeBase (winner loser : Leaf) :
    Runs C env path (Reads path leaves) (mergeBase path winner loser) fun base s =>
      s.Reads path leaves ∧ ∃ db : Db, mergeBaseIn (db.docs path) winner loser = base := by
  have hst : ∀ φ, (contract path).Stable () fun s => s.Reads path leaves ∧ φ :=
    stable_and (stable_reads leaves)
  unfold mergeBase mergeBaseIn
  cases winner.revisions with
  | none => exact .pure (hst _) fun s hs => ⟨hs, .empty, rfl⟩
  | some a =>
    cases loser.revisions with
    | none => exact .pure (hst _) fun s hs => ⟨hs, .empty, rfl⟩
    | some b =>
      dsimp only
      cases Diff3.commonAncestor a.ids b.start b.ids with
      | none => exact .pure (hst _) fun s hs => ⟨hs, .empty, rfl⟩
      | some rev =>
        dsimp only
        have hread : Does (semantics C path) (condition C env path) (contract path) ()
            (fun _ e => .perform e) (Reads path leaves) (CouchClient.getAttachment path (some rev))
            (Post (fun s => s.Reads path leaves ∧ ∃ db : Db, (db.docs path).content? rev = none)
              fun bytes s => s.Reads path leaves ∧
                ∃ db : Db, (db.docs path).content? rev = some bytes) := by
          refine Does.ask_perform rfl (hst _) (fun _ => hst _) fun o s hs _ => ⟨trivial, ?_⟩
          have hsame : (exec C (.getAttachment path (some rev)) s).2 = s :=
            exec_read.getAttachment _ _ s
          show (∀ bytes, Couch.orNotFound ((s.db.docs path).content? rev) = .ok bytes →
              Reads path leaves (exec C (.getAttachment path (some rev)) s).2 ∧ _) ∧
            ∀ x, Couch.orNotFound ((s.db.docs path).content? rev) = .error x →
              Reads path leaves (exec C (.getAttachment path (some rev)) s).2 ∧ _
          rw [hsame]
          cases hc : (s.db.docs path).content? rev with
          | none => exact ⟨nofun, fun _ _ => ⟨hs, s.db, hc⟩⟩
          | some bytes =>
            refine ⟨fun b hb => ⟨hs, s.db, ?_⟩, nofun⟩
            rw [hc, Except.ok.inj hb]
        refine Does.bind _ (stable_created []) (Does.attempt (hst _) (fun _ => hst _) hread)
          fun r => ?_
        cases r with
        | ok bytes => exact .pure (hst _) fun s ⟨hs, db, hdb⟩ => ⟨hs, db, by rw [hdb]; rfl⟩
        | error e => exact .pure (hst _) fun s ⟨hs, db, hdb⟩ => ⟨hs, db, by rw [hdb]; rfl⟩

theorem runs_planEditVsEdit (winner loser : Leaf) (loserRevs : List Rev) :
    Runs C env path (Reads path leaves) (planEditVsEdit env path winner loser loserRevs)
      fun plan s => s.Reads path leaves ∧ ∃ db : Db,
        plan = editVsEdit env (mergeBaseIn (db.docs path) winner loser) winner loser loserRevs := by
  refine .bind _ (runs_mergeBase winner loser) fun base => ?_
  have hst : ∀ plan, (contract path).Stable () fun s => s.Reads path leaves ∧ ∃ db : Db,
      plan = editVsEdit env (mergeBaseIn (db.docs path) winner loser) winner loser loserRevs :=
    fun _ => stable_and (stable_reads leaves) _
  -- the merge succeeds or it does not, and `editVsEdit` is what follows
  cases hmerge : Diff3.merge env.mergeStrings base winner.content loser.content with
  | ok merged =>
    refine .pure (hst _) fun s ⟨hs, db, hbase⟩ => ⟨hs, db, ?_⟩
    rw [hbase, editVsEdit, hmerge]
  | error e =>
    refine .pure (hst _) fun s ⟨hs, db, hbase⟩ => ⟨hs, db, ?_⟩
    rw [hbase, editVsEdit, hmerge]

/-- **A plan is made of what was read**, over a base that was there at some
time. -/
theorem runs_planResolution (winnerRev : Rev) :
    Runs C env path (Reads path leaves) (planResolution env path leaves winnerRev) fun plan s =>
      s.Reads path leaves ∧ Planned C env path leaves plan := by
  have hst : ∀ φ, (contract path).Stable () fun s => s.Reads path leaves ∧ φ :=
    stable_and (stable_reads leaves)
  have hstay : ∀ {x : Hub ResolveError Leaf} {a : Leaf}, x = pure a → Runs C env path (Reads path leaves) x
      fun b s => s.Reads path leaves ∧ b = a := by
    rintro x a rfl
    exact .pure (hst _) fun s hs => ⟨hs, rfl⟩
  -- only the merge base of two live leaves is asked for, the rest of the plan is a computation
  cases hwinner : leaves.find? fun l => decide (l.rev = winnerRev) with
  | none =>
    unfold planResolution
    rw [hwinner]
    exact .bind (fun _ _ => False) (.throw (stable_created []) fun s hs => hs.1) fun _ s hs => hs.elim
  | some winner =>
    have hfound : ∀ db, Hub.exec C (orMissingLeaf (leaves.find? fun l => decide (l.rev = winnerRev))) db =
        (.ok winner, db) := by
      rw [hwinner]
      exact fun _ => rfl
    have hplanned : ∀ plan db, (Hub.exec C (planResolution env path leaves winnerRev) db).1 = .ok plan →
        Planned C env path leaves plan := fun plan db h => .inr ⟨winnerRev, db, h⟩
    unfold planResolution at hplanned ⊢
    simp only [Hub.exec_bind_of_ok (hfound _)] at hplanned
    refine .bind _ (hstay (by rw [hwinner]; rfl)) fun w => ?_
    refine Triple.of_pure (φ := w = winner) (fun s hs => hs.2) ?_
    rintro rfl
    refine Does.pre (P := Reads path leaves) ?_ fun s hs => hs.1
    dsimp only at hplanned ⊢
    by_cases htwo : (leaves.filter fun l => !l.deleted).length = 2 ∧ leaves.length = 2
    · simp only [if_pos htwo] at hplanned ⊢
      cases hother : (leaves.filter fun l => !l.deleted).find? fun l => decide (l.rev ≠ w.rev) with
      | none =>
        exact Runs.bind (fun _ _ => False) (.throw (stable_created []) fun s hs => hs.1)
          fun _ s hs => hs.elim
      | some other =>
        rw [hother] at hplanned
        refine Runs.bind _ (hstay rfl) fun o => ?_
        refine Triple.of_pure (φ := o = other) (fun s hs => hs.2) ?_
        rintro rfl
        refine Does.mono ((runs_planEditVsEdit _ _ _).pre fun s hs => hs.1) (fun _ h => h) ?_
        rintro plan s ⟨hs, db, rfl⟩
        refine ⟨hs, hplanned _ db ?_⟩
        exact congrArg Prod.fst exec_planEditVsEdit
    · simp only [if_neg htwo] at hplanned ⊢
      split
      · next edit hlive =>
        rw [hlive] at hplanned
        exact .pure (hst _) fun s hs => ⟨hs, hplanned _ .empty rfl⟩
      · next hlive =>
        refine .pure (hst _) fun s hs => ⟨hs, hplanned _ .empty ?_⟩
        split
        · next edit hone => exact absurd hone (hlive edit)
        · rfl

/-! ## Writing -/

variable {caller : Caller} {id : Path} {rev : Rev} {rev? : Option Rev} {body : Body}
  {attachment : Attachment} {x : HttpFailure}

/-- What does not go through leaves nothing created. -/
theorem Undisturbed.created_eq_nil {e : CouchReq β} (h : s.Undisturbed C env path e)
    (hnot : goesThrough C env path e s.db ≠ true) : (exec C e s).2.created = [] := by
  by_contra hne
  exact hnot (h hne)

/-- A refused body creates nothing, and nothing was created before. -/
theorem created_of_putDoc_error (h : s.Undisturbed C env path (.putDoc caller id rev? body))
    (hx : (exec C (.putDoc caller id rev? body) s).1 = .error x) :
    (exec C (.putDoc caller id rev? body) s).2.created = [] := by
  refine h.created_eq_nil fun hgoes => ?_
  simp only [exec, Couch.answer] at hx
  cases hp : Couch.putParent (s.db.docs id) rev? with
  | ok parent =>
    rw [hp] at hx
    cases hx
  | error e =>
    rw [goesThrough, hp] at hgoes
    cases hgoes

theorem created_of_putAttachment_error
    (h : s.Undisturbed C env path (.putAttachment caller id rev attachment))
    (hx : (exec C (.putAttachment caller id rev attachment) s).1 = .error x) :
    (exec C (.putAttachment caller id rev attachment) s).2.created = [] := by
  refine h.created_eq_nil fun hgoes => ?_
  simp only [exec, Couch.answer] at hx
  cases hl : (s.db.docs id).leaf? rev with
  | some p =>
    rw [hl] at hx
    cases hx
  | none =>
    rw [goesThrough, hl] at hgoes
    cases hgoes

theorem created_of_deleteDoc_error (h : s.Undisturbed C env path (.deleteDoc caller id rev))
    (hx : (exec C (.deleteDoc caller id rev) s).1 = .error x) :
    (exec C (.deleteDoc caller id rev) s).2.created = [] := by
  refine h.created_eq_nil fun hgoes => ?_
  simp only [exec, Couch.answer] at hx
  cases hd : C.deleteParent (s.db.docs id) rev with
  | ok p =>
    rw [hd] at hx
    cases hx
  | error e =>
    rw [goesThrough, hd] at hgoes
    cases hgoes

/-- After a body either its content can be sent or nothing is created. -/
theorem sendable_of_putDoc {contentType : String} (hbody : body.contentType = some contentType)
    (h : s.Undisturbed C env path (.putDoc caller id rev? body))
    (hunsent : HeaderValue.accepts contentType = false) :
    (exec C (.putDoc caller id rev? body) s).2.created = [] := by
  refine h.created_eq_nil fun hgoes => ?_
  rw [goesThrough, hbody, Option.all_some, hunsent, Bool.and_false] at hgoes
  cases hgoes

theorem mapError_eq_error {ε ε' : Type} {r : Except ε α} {f : ε → ε'} {x : ε'}
    (h : r.mapError f = .error x) : ∃ y, r = .error y := by
  cases r with
  | ok a => cases h
  | error y => exact ⟨y, rfl⟩

theorem mapError_eq_ok {ε ε' : Type} {r : Except ε α} {f : ε → ε'} {a : α}
    (h : r.mapError f = .ok a) : r = .ok a := by
  cases r with
  | ok b => exact congrArg Except.ok (Except.ok.inj h)
  | error y => cases h

/-- A name that is free is found, with every copy so far in its place. -/
theorem runs_firstFree {n fuel : ℕ} (hn : n + fuel = 2 ^ 32) :
    Runs C env path (fun s => s.Holds path copies ∧ (fuel = 0 → s.created = []))
      (firstFree path env.today n fuel) fun q s =>
        s.Holds path copies ∧ q ≠ path ∧ (s.db.docs q).visible = none := by
  have hst : ∀ q, (contract path).Stable () fun s =>
      s.Holds path copies ∧ q ≠ path ∧ (s.db.docs q).visible = none := by
    rintro q s s' ⟨hs, hne, hnone⟩ h
    exact ⟨stable_holds copies hs h, hne, h.others q hne ▸ hnone⟩
  induction fuel generalizing n with
  | zero => exact .throw (stable_created []) fun s hs => hs.2 rfl
  | succ fuel ih =>
    have hget : Runs C env path
        (fun s => s.Holds path copies ∧ (fuel + 1 = 0 → s.created = []))
        (orCouch (CouchClient.getDoc (conflictName path env.today n))) fun doc s =>
          s.Holds path copies ∧
            doc.elim ((s.db.docs (conflictName path env.today n)).visible = none)
              fun _ => fuel = 0 → s.created = [] := by
      have hst : ∀ doc : Option Doc, (contract path).Stable () fun s =>
          s.Holds path copies ∧
            doc.elim ((s.db.docs (conflictName path env.today n)).visible = none)
              fun _ => fuel = 0 → s.created = [] := by
        rintro (_ | doc) s s' ⟨hs, hdoc⟩ h
        · exact ⟨stable_holds copies hs h, h.others _ (conflictName_ne _ _ _) ▸ hdoc⟩
        · exact ⟨stable_holds copies hs h, fun hfuel => h.created.trans (hdoc hfuel)⟩
      refine .adapt hst (.call hst (fun s doc hs hu hr => ?_) fun s y hs hu hr => ?_)
      · have hdoc : (s.db.docs (conflictName path env.today n)).doc? = doc :=
          Except.ok.inj ((CouchClient.orMissing_orNotFound _).symm.trans hr)
        rw [exec_read.getDoc]
        refine ⟨hs.1, ?_⟩
        cases doc with
        | none => exact Tree.doc?_eq_none.1 hdoc
        | some doc =>
          rintro rfl
          by_contra hne
          have hlast : n = 2 ^ 32 - 1 := by omega
          have hgoes := hu fun happ => hne (List.append_eq_nil_iff.1 happ).1
          rw [goesThrough, hlast, bne_self_eq_false, Bool.false_or, Option.isNone_iff_eq_none]
            at hgoes
          rw [hlast, Tree.doc?_eq_none.2 hgoes] at hdoc
          cases hdoc
      · cases (CouchClient.orMissing_orNotFound _).symm.trans hr
    refine Runs.bind _ hget fun doc => ?_
    cases doc with
    | none => exact .pure (hst _) fun s hs => ⟨hs.1, conflictName_ne _ _ _, hs.2⟩
    | some doc => exact ih (by omega)

/-- One copy more has been created, and has no content yet. -/
structure Bare (C : Couch) (path : Path) (copies : List (Path × Bytes)) (q : Path) (rev : Rev)
    (s : Resolving) : Prop where
  created : s.created = copies.map Prod.fst ++ [q]
  nodup : s.created.Nodup
  beside : ∀ c ∈ copies, c.1 ≠ path
  ne : q ≠ path
  shown : ∀ c ∈ copies, (s.db.docs c.1).content? none = some c.2
  bare : ∃ t parent body, t.visible = none ∧ (∀ p, parent = some p → p ∈ t) ∧
    rev = (C.child t parent false body none).rev ∧
    s.db.docs q = t ++ [C.child t parent false body none]

theorem stable_bare : (contract path).Stable () fun s => s.Bare C path copies q rev := by
  intro s s' hs h
  refine ⟨h.created.trans hs.created, h.created ▸ hs.nodup, hs.beside, hs.ne, fun c hc => ?_, ?_⟩
  · rw [h.others c.1 (hs.beside c hc)]
    exact hs.shown c hc
  · rw [h.others q hs.ne]
    exact hs.bare

/-- No copy so far has a name that is free. -/
theorem Holds.ne_of_free (h : s.Holds path copies) (hfree : (s.db.docs q).visible = none)
    {c : Path × Bytes} (hc : c ∈ copies) : c.1 ≠ q := by
  rintro rfl
  have hshown := h.shown c hc
  rw [Tree.content?, Option.elim_none, hfree] at hshown
  cases hshown

/-- The body of a copy. -/
theorem Holds.putDoc (h : s.Holds path copies) (hne : q ≠ path)
    (hfree : (s.db.docs q).visible = none)
    (hr : (exec C (.putDoc caller q none body) s).1 = .ok rev) :
    (exec C (.putDoc caller q none body) s).2.Bare C path copies q rev := by
  have hnew : q ∉ s.created := by
    rw [h.created]
    intro hmem
    obtain ⟨c, hc, hcq⟩ := List.mem_map.1 hmem
    exact h.ne_of_free hfree hc hcq
  simp only [exec, Couch.answer] at hr ⊢
  cases hp : Couch.putParent (s.db.docs q) none with
  | error e =>
    rw [hp] at hr
    cases hr
  | ok parent =>
    rw [hp] at hr
    have hcreated : createdBy (.putDoc caller q none body) s.db = [q] := by
      show (if _ then _ else _) = _
      rw [hp]
      rfl
    rw [hcreated]
    dsimp only
    refine ⟨congrArg (· ++ [q]) h.created, ?_, h.beside, hne, fun c hc => ?_, ?_⟩
    · exact List.nodup_append.2 ⟨h.nodup, List.nodup_singleton q,
        fun a ha b hb hab => hnew (List.mem_singleton.1 hb ▸ hab ▸ ha)⟩
    · show ((s.db.write q _).docs c.1).content? none = some c.2
      rw [Db.write_docs_of_ne (h.ne_of_free hfree hc)]
      exact h.shown c hc
    · exact ⟨s.db.docs q, parent, body, hfree,
        fun p hq => Tree.mem_of_mem_leaves (Push.putParent_mem hp p hq),
        (Except.ok.inj hr).symm, Db.write_docs_self⟩

/-- Its content. -/
theorem Bare.putAttachment {new : Rev} (h : s.Bare C path copies q rev)
    (hr : (exec C (.putAttachment caller q rev attachment) s).1 = .ok new) :
    (exec C (.putAttachment caller q rev attachment) s).2.Holds path
      (copies ++ [(q, attachment.data)]) := by
  obtain ⟨t, parent, body, hnone, hparent, rfl, hdocs⟩ := h.bare
  have hleaf : (s.db.docs q).leaf? (C.child t parent false body none).rev =
      some (C.child t parent false body none) := by
    rw [hdocs]
    exact Push.leaf?_append_child hparent
  have hne : ∀ c ∈ copies, c.1 ≠ q := by
    rintro c hc rfl
    have hnodup := h.nodup
    rw [h.created] at hnodup
    exact (List.nodup_append.1 hnodup).2.2 c.1 (List.mem_map_of_mem hc) c.1
      (List.mem_singleton_self _) rfl
  simp only [exec, Couch.answer, hleaf, createdBy, List.append_nil]
  refine ⟨?_, h.nodup, fun c hc => ?_, fun c hc => ?_⟩
  · rw [List.map_append]
    exact h.created
  · rcases List.mem_append.1 hc with hold | hnew
    · exact h.beside c hold
    · rw [List.mem_singleton.1 hnew]
      exact h.ne
  · show ((s.db.write q _).docs c.1).content? none = some c.2
    rcases List.mem_append.1 hc with hold | hnew
    · rw [Db.write_docs_of_ne (hne c hold)]
      exact h.shown c hold
    · rw [List.mem_singleton.1 hnew, Db.write_docs_self, hdocs, Tree.content?, Option.elim_none,
        visible_append_two hnone]
      rfl

/-- A body whose content cannot be sent leaves nothing created, and no
content follows it. -/
theorem runs_unsent {contentType : String} {data : Bytes} {M : α → Resolving → Prop}
    {g : Rev → Hub ResolveError α} (hunsent : HeaderValue.accepts contentType = false)
    (hbody : body.contentType = some contentType) :
    Runs C env path P (do
      let rev ← orCas (CouchClient.putDoc caller id rev? body)
      let new ← orCas (CouchClient.putAttachment caller id rev contentType data)
      g new) M := by
  have hnone : (contract path).Stable () fun s => s.created = [] := stable_created []
  refine .bind (fun _ s => s.created = [])
    (.adapt (fun _ => hnone) (.call (fun _ => hnone) (fun s rev hs hu hr => ?_) fun s y hs hu hr => ?_))
    fun rev => .bind (fun _ _ => False) (.adapt (fun _ _ _ hs _ => hs) ?_) fun _ _ hs => hs.elim
  · exact sendable_of_putDoc hbody hu hunsent
  · obtain ⟨x, hx⟩ := mapError_eq_error hr
    exact created_of_putDoc_error hu hx
  · rw [CouchClient.putAttachment, hunsent, if_neg Bool.false_ne_true]
    exact .throw hnone fun s hs => hs

/-- **A copy that is written** is one document more, and shows its content. -/
theorem runs_writeCopy (copy : Copy) :
    Runs C env path (Holds path copies) (writeCopy env path copy)
      fun q => Holds path (copies ++ [(q, copy.content)]) := by
  unfold writeCopy conflictCopyPath
  have hst : ∀ q, (contract path).Stable () (Holds path (copies ++ [(q, copy.content)])) :=
    fun q => stable_holds _
  refine .bind _ ((runs_firstFree (Nat.zero_add _)).pre fun s hs => ⟨hs, fun h => ?_⟩) fun q => ?_
  · exact absurd h (by decide)
  cases hsend : HeaderValue.accepts copy.contentType with
  | false => exact runs_unsent hsend rfl
  | true =>
    refine .bind (Bare C path copies q) ?_ fun rev =>
      .bind (fun _ => Holds path (copies ++ [(q, copy.content)])) ?_
        fun _ => .pure (hst q) fun s hs => hs
    · refine .adapt (fun _ => stable_bare)
        (.call (fun _ => stable_bare) (fun s rev hs hu hr => ?_) fun s y hs hu hr => ?_)
      · exact hs.1.putDoc hs.2.1 hs.2.2 (mapError_eq_ok hr)
      · obtain ⟨x, hx⟩ := mapError_eq_error hr
        exact created_of_putDoc_error hu hx
    · rw [CouchClient.putAttachment, if_pos hsend]
      refine .adapt (fun _ => hst q)
        (.call (fun _ => hst q) (fun s new hs hu hr => ?_) fun s y hs hu hr => ?_)
      · exact hs.putAttachment (mapError_eq_ok hr)
      · obtain ⟨x, hx⟩ := mapError_eq_error hr
        exact created_of_putAttachment_error hu hx

/-- **Copies that are written** are as many documents more, in order. -/
theorem runs_writeCopies (todo : List Copy) :
    Runs C env path (Holds path copies) (writeCopies env path todo) fun written s =>
      ∃ more, written = more.map Prod.fst ∧ todo.map Copy.content = more.map Prod.snd ∧
        s.Holds path (copies ++ more) := by
  have hst : ∀ (todo : List Copy) (copies : List (Path × Bytes)) written,
      (contract path).Stable () fun s =>
        ∃ more, written = more.map Prod.fst ∧ todo.map Copy.content = more.map Prod.snd ∧
          s.Holds path (copies ++ more) := by
    rintro todo copies written s s' ⟨more, hwritten, hcontents, hs⟩ h
    exact ⟨more, hwritten, hcontents, stable_holds _ hs h⟩
  induction todo generalizing copies with
  | nil =>
    refine .pure (hst [] copies []) fun s hs => ⟨[], rfl, rfl, ?_⟩
    rwa [List.append_nil]
  | cons copy todo ih =>
    refine .bind _ (runs_writeCopy copy) fun q => .bind _ ih fun rest =>
      .pure (hst (copy :: todo) copies (q :: rest)) ?_
    rintro s ⟨more, hwritten, hcontents, hs⟩
    refine ⟨(q, copy.content) :: more, ?_, ?_, ?_⟩
    · rw [hwritten, List.map_cons]
    · rw [List.map_cons, List.map_cons, hcontents]
    · rwa [List.append_assoc, List.singleton_append] at hs

/-! ### The result -/

/-- A write at the path leaves the copies alone. -/
theorem runs_atPath {e : CouchReq (Except HttpFailure Rev)} {f : HttpFailure → CouchError}
    (hcreated : ∀ db, createdBy e db = [])
    (hdocs : ∀ (db : Db) p, p ≠ path → (C.answer e db).2.docs p = db.docs p)
    (herr : ∀ s x, s.Undisturbed C env path e → (exec C e s).1 = .error x →
      (exec C e s).2.created = []) :
    Runs C env path (Holds path copies) (orCas (.ask f e)) fun _ => Holds path copies := by
  have hst : ∀ _ : Rev, (contract path).Stable () (Holds path copies) := fun _ => stable_holds _
  refine .adapt hst (.call hst (fun s rev hs hu hr => ?_) fun s y hs hu hr => ?_)
  · exact hs.of_same ((congrArg (s.created ++ ·) (hcreated s.db)).trans (List.append_nil _)) (hdocs s.db)
  · obtain ⟨x, hx⟩ := mapError_eq_error hr
    exact herr s x hu hx

theorem runs_writeFinal (plan : Plan) :
    Runs C env path (Holds path copies) (writeFinal path plan) fun _ => Holds path copies := by
  unfold writeFinal
  cases plan.finalContent with
  | none => exact .pure (stable_holds _) fun s hs => hs
  | some content =>
    cases hsend : HeaderValue.accepts plan.finalContentType with
    | false => exact runs_unsent hsend rfl
    | true =>
      have hattach : ∀ rev, Runs C env path (Holds path copies)
          (orCas (CouchClient.putAttachment .resolver path rev plan.finalContentType content))
          fun _ => Holds path copies := by
        intro rev
        rw [CouchClient.putAttachment, if_pos hsend]
        refine runs_atPath (fun _ => rfl) (fun db p hp => ?_) fun s x hu hx =>
          created_of_putAttachment_error hu hx
        simp only [Couch.answer]
        split
        exacts [Db.write_docs_of_ne hp, rfl]
      refine .bind (fun _ => Holds path copies) (runs_atPath (fun _ => rfl) (fun db p hp => ?_)
        fun s x hu hx => created_of_putDoc_error hu hx) fun rev =>
          .bind (fun _ => Holds path copies) (hattach rev) fun _ => .pure (stable_holds _) fun s hs => hs
      simp only [Couch.answer]
      split
      exacts [Db.write_docs_of_ne hp, rfl]

theorem runs_deleteLosers (revs : List Rev) :
    Runs C env path (Holds path copies) (deleteLosers path revs) fun _ => Holds path copies := by
  induction revs with
  | nil => exact .pure (stable_holds _) fun s hs => hs
  | cons rev revs ih =>
    refine .bind (fun _ => Holds path copies) (runs_atPath (fun _ => rfl) (fun db p hp => ?_)
      fun s x hu hx => created_of_deleteDoc_error hu hx) fun _ => ih
    simp only [Couch.answer]
    split
    exacts [Db.write_docs_of_ne hp, rfl]

/-- **A plan carried out** has created one document for each of its copies,
and returns their names. -/
theorem runs_applyPlan (plan : Plan) :
    Runs C env path (fun s => s.created = []) (applyPlan env path plan) fun written s =>
      ∃ copies, written = copies.map Prod.fst ∧
        plan.copies.map Copy.content = copies.map Prod.snd ∧ s.Holds path copies := by
  have hst : ∀ written, (contract path).Stable () fun s =>
      ∃ copies, written = copies.map Prod.fst ∧
        plan.copies.map Copy.content = copies.map Prod.snd ∧ s.Holds path copies := by
    rintro written s s' ⟨copies, hwritten, hcontents, hs⟩ h
    exact ⟨copies, hwritten, hcontents, stable_holds _ hs h⟩
  refine .bind _ ((runs_writeCopies plan.copies).pre fun s hs => holds_nil hs) fun written => ?_
  refine Triple.of_exists fun copies => Triple.of_pure (φ := written = copies.map Prod.fst ∧
    plan.copies.map Copy.content = copies.map Prod.snd) (fun s hs => ⟨hs.1, hs.2.1⟩) ?_
  rintro ⟨hwritten, hcontents⟩
  refine Runs.bind (fun _ => Holds path copies) ((runs_writeFinal plan).pre fun s hs => hs.2.2)
    fun _ => .bind (fun _ => Holds path copies) (runs_deleteLosers _) fun _ =>
      .pure (hst written) fun s hs => ⟨copies, hwritten, hcontents, hs⟩

/-! ## The loop -/

theorem stable_accounted (r : Except ResolveError Outcome) :
    (contract path).Stable () (Accounted C env path r) := by
  rcases r with e | _ | r
  · exact stable_created []
  · exact stable_created []
  · rintro s s' ⟨leaves, plan, copies, hread, hplanned, hpath, hkind, hcopies, hcontents, hs⟩ h
    exact ⟨leaves, plan, copies, stable_areRead leaves hread h, hplanned, hpath, hkind, hcopies,
      hcontents, stable_holds copies hs h⟩

/-- What was read stays as it is read. -/
theorem keeps_areRead {x : Hub ε α} :
    Does (semantics C path) (condition C env path) (contract path) () (fun _ e => .perform e)
      (fun s => s.AreRead path leaves) x
      (Post (fun s => s.AreRead path leaves) fun _ s => s.AreRead path leaves) :=
  Does.of_all (φ := fun _ _ => True) (stable_areRead leaves)
    (fun _ e _ => Triple.perform (fun _ => stable_areRead leaves) fun _ s hs _ =>
      ⟨trivial, hs.of_grown (C.docs_answer e s.db path)⟩)
    (Prog.all_of_forall (fun _ _ => trivial) _)

/-- **A plan is written and reported**, or nothing was created and the loop
goes round again. -/
theorem runs_applyOrRetry {plan : Plan} {again : Hub ResolveError Outcome}
    (hplan : Planned C env path leaves plan)
    (hagain : Runs C env path (fun s => s.created = []) again
      fun o => Accounted C env path (.ok o)) :
    Runs C env path (Reads path leaves) (applyOrRetry env path plan again)
      fun o => Accounted C env path (.ok o) := by
  have hst : ∀ o, (contract path).Stable () (Accounted C env path (.ok o)) :=
    fun o => stable_accounted (.ok o)
  have happly : Runs C env path (Reads path leaves) (applyPlan env path plan) fun written s =>
      Accounted C env path (.ok (.resolved ⟨path, plan.kind, written⟩)) s := by
    refine Triple.post (Triple.and (runs_applyPlan plan) keeps_areRead) ?_
    rintro (e | written) s ⟨h, hread⟩
    · exact h
    · obtain ⟨copies, hwritten, hcontents, hs⟩ := h
      exact ⟨leaves, plan, copies, hread, hplan, rfl, rfl, hwritten, hcontents, hs⟩
  refine Runs.bind _ (Does.attempt (stable_created []) (fun _ => hst _) happly) fun r => ?_
  rcases r with (e | _ | _ | _ | _) | written
  · exact .throw (stable_created []) fun s hs => hs
  · exact hagain
  · exact .throw (stable_created []) fun s hs => hs
  · exact .throw (stable_created []) fun s hs => hs
  · exact .throw (stable_created []) fun s hs => hs
  · exact .pure (hst _) fun s hs => hs

/-- From nothing read. -/
theorem reads_nil (h : s.created = []) : s.Reads path [] :=
  ⟨h, fun _ hl => absurd hl List.not_mem_nil⟩

theorem runs_resolveDeleteWinnerLoop (tries : ℕ) :
    Runs C env path (fun s => s.created = []) (resolveDeleteWinnerLoop env path tries)
      fun o => Accounted C env path (.ok o) := by
  induction tries with
  | zero => exact .throw (stable_created []) fun s hs => hs
  | succ tries ih =>
    unfold resolveDeleteWinnerLoop
    have hget : Runs C env path (Reads path []) (orCouch (CouchClient.getDocLeaves env.leafLines path))
        fun _ => Reads path [] := runs_of_reads (.adapt (all_call (exec_read.openRevs _) _))
    refine .bind _ (hget.pre fun s hs => reads_nil hs) fun raws => ?_
    split
    · exact .pure (stable_created []) fun s hs => hs.1
    · refine .bind _ (runs_leavesFromDocs raws) fun leaves => ?_
      cases hplan : planDeleteWinner leaves with
      | none => exact .pure (stable_created []) fun s hs => hs.1
      | some plan => exact runs_applyOrRetry (.inl hplan) ih

theorem runs_resolveLoop (tries : ℕ) :
    Runs C env path (fun s => s.created = []) (resolveLoop env path tries)
      fun o => Accounted C env path (.ok o) := by
  induction tries with
  | zero => exact .throw (stable_created []) fun s hs => hs
  | succ tries ih =>
    have hget : Runs C env path (Reads path []) (orCouch (CouchClient.getDoc path))
        fun _ => Reads path [] := runs_of_reads (.adapt (all_call (exec_read.getDoc _) _))
    unfold resolveLoop
    refine .bind _ (hget.pre fun s hs => reads_nil hs) fun winner => ?_
    cases winner with
    | none => exact (runs_resolveDeleteWinnerLoop maxRetries).pre fun s hs => hs.1
    | some winner =>
      dsimp only
      split
      · exact .pure (stable_created []) fun s hs => hs.1
      · refine .bind _ (runs_fetchLeaves (winner.rev :: winner.conflicts)) fun leaves =>
          .bind _ (runs_planResolution winner.rev) fun plan => ?_
        refine Triple.of_pure (φ := Planned C env path leaves plan) (fun s hs => hs.2) fun hplan => ?_
        exact Does.pre (runs_applyOrRetry hplan ih) fun s hs => hs.1

/-- **Undisturbed, a resolution accounts for its copies**: whatever others
write to the path meanwhile, it reports every document it created, one for
each content its plan would lose, and one that ends without a resolution
created none. -/
theorem copies_accounted (C : Couch) (env : HubEnv) (path : Path) (db : Db)
    (ms : List (Move Unit Unit Node)) (r : Except ResolveError Outcome)
    (hmeets : (start env path db).Meets (semantics C path) (condition C env path) ms)
    (hdone : ((start env path db).runs (semantics C path) ms).task () = .done r) :
    Accounted C env path r ((start env path db).runs (semantics C path) ms).state := by
  have hloop : Runs C env path (fun s => s.created = []) (resolveLoop env path maxRetries)
      fun o => Accounted C env path (.ok o) := runs_resolveLoop maxRetries
  have hrun := Does.iff_triple.1 hloop
  have hpool : PoolSafe (semantics C path) (condition C env path) (contract path)
      (fun _ => Post (fun s => s.created = []) fun o => Accounted C env path (.ok o))
      (start env path db) :=
    PoolSafe.init (fun _ => stable_created []) (fun _ => rfl) fun _ => hrun
  have hend := (hpool.runs contract_fits hmeets).of_done hdone
  cases r with
  | error e => exact hend
  | ok o => exact hend

/-! ## Two devices, and one more in the middle -/

instance (C : Couch) (env : HubEnv) (path : Path) (i : Unit) (β : Type) (e : CouchReq β) (o : Unit)
    (s : Resolving) : Decidable ((condition C env path).call i e o s) :=
  inferInstanceAs (Decidable (s.Undisturbed C env path e))

instance (C : Couch) (env : HubEnv) (path : Path) (n : Node) (s : Resolving) :
    Decidable ((condition C env path).env n s) := inferInstanceAs (Decidable True)

/-- A file alone in a database. -/
def fileAlone (t : Tree) : Db := ⟨fun p => if p = "a.txt" then t else [], []⟩

/-- The hub answers one request after another, and after the first `k` of
them somebody writes the file. -/
def writtenAfter (k : ℕ) (n : Node) (rest : ℕ) : List (Move Unit Unit Node) :=
  List.replicate k (.run () ()) ++ .env n :: List.replicate rest (.run () ())

/-- A revision on top of the winner of three. -/
def fourth : Node := ⟨⟨2, "d"⟩, ["c"], false, ⟨none, some 4, none⟩, some ⟨octetStream, [4]⟩⟩

/-- **A write refused leaves copies behind**: three leaves, two copies, and
then a push of the winner. The resolution starts over and reports two copies
of the four it created. -/
theorem refused_not_accounted :
    let c := (start .plain "a.txt" (fileAlone threeLeaves)).runs
      (semantics (.counting false) "a.txt") (writtenAfter 14 fourth 23)
    c.task () = .done (.ok (.resolved ⟨"a.txt", .keptWinner,
        ["a.txt.conflict-01.01.2026.1", "a.txt.conflict-01.01.2026.2"]⟩)) ∧
      c.state.created = ["a.txt.conflict-01.01.2026", "a.txt.conflict-01.01.2026.0",
        "a.txt.conflict-01.01.2026.1", "a.txt.conflict-01.01.2026.2"] ∧
      ¬ Accounted (.counting false) .plain "a.txt"
        (.ok (.resolved ⟨"a.txt", .keptWinner,
          ["a.txt.conflict-01.01.2026.1", "a.txt.conflict-01.01.2026.2"]⟩)) c.state := by
  intro c
  have hdone : (c.task ()).result? = some (.ok (.resolved ⟨"a.txt", .keptWinner,
      ["a.txt.conflict-01.01.2026.1", "a.txt.conflict-01.01.2026.2"]⟩)) := by decide +kernel
  have hcreated : c.state.created = ["a.txt.conflict-01.01.2026", "a.txt.conflict-01.01.2026.0",
      "a.txt.conflict-01.01.2026.1", "a.txt.conflict-01.01.2026.2"] := by decide +kernel
  refine ⟨Prog.result?_eq_some.1 hdone, hcreated, ?_⟩
  rintro ⟨leaves, plan, copies, -, -, -, -, hcopies, -, hs⟩
  have heq := hs.created
  rw [hcreated, ← hcopies] at heq
  exact absurd heq (by decide)

/-- Two texts, and on top of the second one something that is none. -/
def twoTexts : Tree := [firstRevision "a" [65] 1, firstRevision "b" [66] 2]

def noText : Node := ⟨⟨2, "d"⟩, ["b"], false, ⟨none, some 4, none⟩, some ⟨octetStream, [255]⟩⟩

/-- A merge that is refused has no copies: the resolution starts over, and
reports the one copy it then creates. -/
theorem merged_then_accounted :
    (start .takesFirst "a.txt" (fileAlone twoTexts)).Meets (semantics (.counting false) "a.txt")
        (condition (.counting false) .takesFirst "a.txt") (writtenAfter 5 noText 12) ∧
      ((start .takesFirst "a.txt" (fileAlone twoTexts)).runs (semantics (.counting false) "a.txt")
        (writtenAfter 5 noText 12)).task () =
          .done (.ok (.resolved ⟨"a.txt", .keptNewer, ["a.txt.conflict-01.01.2026"]⟩)) ∧
      Accounted (.counting false) .takesFirst "a.txt"
        (.ok (.resolved ⟨"a.txt", .keptNewer, ["a.txt.conflict-01.01.2026"]⟩))
        ((start .takesFirst "a.txt" (fileAlone twoTexts)).runs (semantics (.counting false) "a.txt")
          (writtenAfter 5 noText 12)).state := by
  have hmeets : (start .takesFirst "a.txt" (fileAlone twoTexts)).Meets
      (semantics (.counting false) "a.txt") (condition (.counting false) .takesFirst "a.txt")
      (writtenAfter 5 noText 12) := by decide +kernel
  have hdone : (((start .takesFirst "a.txt" (fileAlone twoTexts)).runs
      (semantics (.counting false) "a.txt") (writtenAfter 5 noText 12)).task ()).result? =
        some (.ok (.resolved ⟨"a.txt", .keptNewer, ["a.txt.conflict-01.01.2026"]⟩)) := by
    decide +kernel
  exact ⟨hmeets, Prog.result?_eq_some.1 hdone, copies_accounted (.counting false) .takesFirst
    "a.txt" (fileAlone twoTexts) (writtenAfter 5 noText 12) _ hmeets (Prog.result?_eq_some.1 hdone)⟩

end Resolving

end FileSync
