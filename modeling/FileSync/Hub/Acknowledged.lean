import FileSync.Hub.Durable
import FileSync.Hub.Updates
/-!
# Handlers side by side

Any number of requests are worked on at once, and the watcher resolves what
conflicts it finds, each making its requests of the database one by one and
all of them in any order; revisions come in from other hubs between them.
Whatever the order, and whichever requests or answers are lost, what has been
answered to a push is stored, and the documents stay sound: a branch hangs
off a revision that was found there, and what is there stays.
-/

namespace FileSync

/-- What the hub is at work on. -/
inductive Handler
  | postChanges (changes : List PushChange)
  | getChanges (since : Option Checkpoint)
  | getFile (path : Path)
  | resolve (path : Path)
deriving DecidableEq, Repr

/-- Its program, and what a push that succeeds answers. -/
def Handler.prog (env : HubEnv) : Handler → Prog CouchReq (Option (List PushResult))
  | .postChanges changes => (Push.postChanges env changes).run >>= fun r => .done r.toOption
  | .getChanges since => (Routes.getChanges since).run >>= fun _ => .done none
  | .getFile path => (Routes.getFile path).run >>= fun _ => .done none
  | .resolve path => (Resolver.resolve env path).run >>= fun _ => .done none

namespace Serving

variable {ι : Type} {C : Couch} {env : HubEnv} {handlers : ι → Handler} {i : ι}
  {D : StepCond ι CouchReq Delivery BranchDoc Db} {db : Db}

/-- A request is delivered, or it is lost, or its answer is. What comes from
another hub is put as it is. -/
def semantics (C : Couch) : Semantics ι CouchReq Delivery BranchDoc Db where
  exec _ _ e o db :=
    match o with
    | .delivered => C.answer e db
    | .unsent => (e.lost, db)
    | .unanswered => (e.lost, (C.answer e db).2)
  env doc db := (C.answer (.bulkDocs doc) db).2

/-- The hub before anything is stored. -/
def start (env : HubEnv) (handlers : ι → Handler) :
    Config ι CouchReq (Option (List PushResult)) Db :=
  ⟨fun i => (handlers i).prog env, .empty⟩

/-- Revisions from another hub come after those they are written on. -/
def inOrder : StepCond ι CouchReq Delivery BranchDoc Db where
  call _ _ _ _ _ := True
  env doc db := 0 < doc.rev.gen ∧ ∀ r ∈ doc.toNode.ancestors, ∃ m ∈ db.docs doc.id, m.rev = r

instance (i : ι) (β : Type) (e : CouchReq β) (o : Delivery) (db : Db) :
    Decidable (inOrder.call i e o db) :=
  .isTrue trivial

instance (doc : BranchDoc) (db : Db) :
    Decidable ((inOrder : StepCond ι CouchReq Delivery BranchDoc Db).env doc db) :=
  inferInstanceAs (Decidable (_ ∧ ∀ r ∈ _, ∃ m ∈ _, _))

/-! ## What the handlers promise each other -/

/-- Every document is sound. -/
def AllSound (db : Db) : Prop := ∀ p, Tree.Sound (db.docs p)

/-- Revisions are added, and soundly. -/
def contract : Contract ι Db where
  rely _ := Db.Adds
  guar _ db db' := db.Adds db' ∧ (AllSound db → AllSound db')

theorem adds_exec {β : Type} (e : CouchReq β) (o : Delivery) (db : Db) :
    db.Adds ((semantics C).exec i e o db).2 := by
  cases o with
  | delivered => exact C.adds_answer e db
  | unsent => exact db.adds_refl
  | unanswered => exact C.adds_answer e db

theorem sound_exec {β : Type} {e : CouchReq β} (o : Delivery) (hangs : e.Hangs db)
    (h : AllSound db) : AllSound ((semantics C).exec i e o db).2 := by
  cases o with
  | delivered => exact fun p => Couch.sound_answer e hangs (h p)
  | unsent => exact h
  | unanswered => exact fun p => Couch.sound_answer e hangs (h p)

theorem fits : (contract : Contract ι Db).Fits (semantics C) D where
  guar_rely _ _ _ _ _ h := h.1
  env_rely _ doc db _ := C.adds_answer (.bulkDocs doc) db

/-- Each handler reaches the database. -/
theorem access : CouchAccess C (semantics C) D contract i (fun _ e => .perform e) id
    fun _ => True where
  rely _ _ _ h := ⟨trivial, h⟩
  call β e := by
    refine ⟨e, rfl, fun o db _ hangs _ => ⟨⟨adds_exec e o db, sound_exec o hangs⟩, trivial, ?_⟩⟩
    cases o with
    | delivered => exact .inl ⟨rfl, rfl⟩
    | unsent => exact .inr ⟨rfl, db.adds_refl⟩
    | unanswered => exact .inr ⟨rfl, C.adds_answer e db⟩

/-- What a handler that has returned has stored. -/
def Answered (handler : Handler) (results : Option (List PushResult)) (db : Db) : Prop :=
  ∀ changes, handler = .postChanges changes → ∀ rs ∈ results,
    List.Forall₂ (Push.Acknowledged db) changes rs

theorem stable_answered {handler : Handler} {results : Option (List PushResult)} :
    (contract : Contract ι Db).Stable i (Answered handler results) :=
  fun _ _ h hadds changes hc rs hr =>
    (h changes hc rs hr).imp fun _ _ hone => Db.Lasts.acknowledged hadds hone

/-- A handler that only reads or resolves. -/
theorem triple_quiet {ε α : Type} {x : Hub ε α} {handler : Handler}
    (hx : Fallible.All (fun _ e => ∀ d : Db, e.Hangs d) x)
    (hne : ∀ changes, handler ≠ .postChanges changes) :
    Triple (semantics C) D contract i (fun db => db.Named)
      (x.run >>= fun _ => .done none) (Answered handler) := by
  have hkeeps := (access (D := D) (i := i)).does_keeps (C := C) Db.Lasts.named hx
  rw [Does.iff_triple] at hkeeps
  refine Triple.bind _ (hkeeps.pre fun _ h => ⟨trivial, h⟩) fun r => ?_
  exact Triple.done stable_answered fun _ _ changes hc => absurd hc (hne changes)

/-- **Every handler**, from its start: what it answers is stored. -/
theorem triple_prog (handler : Handler) : Triple (semantics C) D contract i (fun db => db.Named)
    (handler.prog env) (Answered handler) := by
  have hread : ReadCalls fun _ e => ∀ d : Db, e.Hangs d := Resolver.hangs.toReadCalls
  cases handler with
  | postChanges changes =>
    have hpush : AccessDoes (semantics C) D contract i (fun _ e => .perform e) id (fun _ => True)
        Db.Named (Push.postChanges env changes) fun results db =>
          db.Named ∧ List.Forall₂ (Push.Acknowledged db) changes results :=
      access.postChanges Db.Lasts.named (fun _ h => h) changes
    have hstored := Does.iff_triple.1 hpush
    refine Triple.bind _ (hstored.pre fun _ h => ⟨trivial, h⟩) fun r => ?_
    refine Triple.done stable_answered fun db hr changes' hc rs hrs => ?_
    obtain rfl := Handler.postChanges.inj hc
    cases r with
    | error e => cases hrs
    | ok results =>
      obtain rfl := Option.some.inj hrs
      exact hr.2.2
  | getChanges since =>
    exact triple_quiet (.bind (.adapt (all_call (fun _ => trivial) _)) fun _ =>
      Fallible.all_pure _) fun _ => nofun
  | getFile path =>
    refine triple_quiet (.bind (.adapt (all_call (hread.getDoc _) _)) fun doc => ?_) fun _ => nofun
    cases doc with
    | none => exact Fallible.all_throw _
    | some doc => exact .bind (.adapt (all_call (hread.getAttachment _ _) _)) fun _ => Fallible.all_pure _
  | resolve path => exact triple_quiet (Resolver.all_resolve Resolver.hangs) fun _ => nofun

theorem poolSafe_start : PoolSafe (semantics C) D contract (fun i => Answered (handlers i))
    (start env handlers) :=
  PoolSafe.init (fun _ => show contract.Stable _ Db.Named from fun _ _ h hadds => hadds.named h)
    (fun _ _ => List.nodup_nil) fun i => triple_prog (handlers i)

/-! ## Every run -/

variable [DecidableEq ι]

/-- **What a push is answered for is stored**: in every run of any handlers,
with requests and answers lost and revisions from other hubs at any point, a
push that has been answered has every change of its batch among its path's
revisions, in the order of the batch, and its answers name revisions that are
there. It is assumed that nothing else has the name of a change's branch. -/
theorem acknowledged_stored (C : Couch) (env : HubEnv) (handlers : ι → Handler)
    (ms : List (Move ι Delivery BranchDoc)) (i : ι) (changes : List PushChange)
    (results : List PushResult) (hi : handlers i = .postChanges changes)
    (hdone : ((start env handlers).runs (semantics C) ms).task i = .done (some results))
    (hnames : ∀ change ∈ changes,
      Push.OwnName ((start env handlers).runs (semantics C) ms).state change) :
    List.Forall₂ (Push.Stored ((start env handlers).runs (semantics C) ms).state)
      changes results := by
  have hruns : PoolSafe (semantics C) .any contract (fun j => Answered (handlers j))
      ((start env handlers).runs (semantics C) ms) :=
    PoolSafe.runs fits poolSafe_start (Config.meets_any ms _)
  have hanswered : List.Forall₂ _ changes results := hruns.of_done hdone changes hi results rfl
  rw [List.forall₂_iff_get] at hanswered ⊢
  refine ⟨hanswered.1, fun k hk hk' => (hanswered.2 k hk hk').to_stored (hnames _ ?_)⟩
  exact List.get_mem _ _

/-- Two devices that both take a path to be new. -/
def bothNew : Bool → Handler
  | true => .postChanges [⟨"a", false, none, 5, none, some (.encode [1])⟩]
  | false => .postChanges [⟨"a", false, none, 9, none, some (.encode [2])⟩]

/-- The second one comes between the halves of the first one's write: its
content is branched, and copied on top of the first one's. -/
def overtaken : List (Move Bool Delivery BranchDoc) :=
  .run true .delivered :: .run false .delivered :: .run true .delivered ::
    List.replicate 30 (.run false .delivered)

theorem second_new_stored :
    List.Forall₂ (Push.Stored ((start .plain bothNew).runs
        (semantics (Couch.counting true)) overtaken).state)
      [⟨"a", false, none, 9, none, some (.encode [2])⟩] [⟨"a", some ⟨4, "xxxxxxxxxxxxxxxxxx"⟩⟩] :=
  acknowledged_stored (Couch.counting true) .plain bothNew overtaken
    false _ _ rfl (Prog.result?_eq_some.1 (by decide +kernel)) (by decide +kernel)

/-! ## Sound documents -/

theorem numbered_prog (handler : Handler) :
    (handler.prog env).All fun _ e => e.Numbered := by
  have hpush : PushCalls fun _ e => e.Numbered := CouchReq.numbered_calls
  have hread : ReadCalls fun _ e => e.Numbered := hpush.toReadCalls
  cases handler with
  | postChanges changes => exact .bind (Push.all_postChanges hpush changes) fun _ => trivial
  | getChanges since =>
    exact .bind (Fallible.All.bind (.adapt (all_call trivial _)) fun _ => Fallible.all_pure _)
      fun _ => trivial
  | getFile path =>
    refine .bind (Fallible.All.bind (.adapt (all_call (hread.getDoc _) _)) fun doc => ?_)
      fun _ => trivial
    cases doc with
    | none => exact Fallible.all_throw _
    | some doc => exact .bind (.adapt (all_call (hread.getAttachment _ _) _)) fun _ => Fallible.all_pure _
  | resolve path => exact .bind (Resolver.all_resolve hpush.toResolverCalls) fun _ => trivial

/-- Revisions are numbered from 1 in every run, whatever the requests read. -/
theorem numbered_runs {ms : List (Move ι Delivery BranchDoc)}
    (hms : (start env handlers).Meets (semantics C) inOrder ms) :
    ((start env handlers).runs (semantics C) ms).state.Numbered := by
  let K : Contract ι Db := ⟨fun _ _ _ => True, fun _ db db' => db.Numbered → db'.Numbered⟩
  have hcall : ∀ (i : ι) ⦃β : Type⦄ (e : CouchReq β), e.Numbered → ∀ o db, db.Numbered →
      ((semantics C).exec i e o db).2.Numbered := by
    intro i β e he o db hdb
    cases o with
    | delivered => exact Db.numbered_answer C he hdb
    | unsent => exact hdb
    | unanswered => exact Db.numbered_answer C he hdb
  have htask : ∀ i, Triple (semantics C) inOrder K i (fun _ => True) ((handlers i).prog env)
      fun _ _ => True := fun i =>
    Triple.of_all (fun _ _ _ _ => trivial)
      (fun _ e he o db _ _ => ⟨hcall i e he o db, trivial⟩) (numbered_prog (handlers i))
  have hsafe : PoolSafe (semantics C) inOrder K (fun _ _ _ => True) (start env handlers) :=
    PoolSafe.init (P := fun _ _ => True) (fun _ _ _ _ _ => trivial) (fun _ => trivial) htask
  refine hsafe.invariant ⟨fun _ _ _ _ _ _ => trivial, fun _ _ _ _ => trivial⟩
    (fun _ _ _ hg => hg) (fun doc db hdoc hdb => ?_) hms Db.Numbered.empty
  exact Db.numbered_answer C (e := .bulkDocs doc) hdoc.1 hdb

/-- **Documents stay sound**: in every run of any handlers, with requests and
answers lost, and revisions from other hubs arriving after those they are
written on, no document has a revision twice or one without those it was
written on, and a document with a revision has a winner. -/
theorem documents_sound (C : Couch) (env : HubEnv) (handlers : ι → Handler)
    (ms : List (Move ι Delivery BranchDoc))
    (hms : (start env handlers).Meets (semantics C) inOrder ms) (p : Path) :
    Tree.Sound (((start env handlers).runs (semantics C) ms).state.docs p) ∧
      (((start env handlers).runs (semantics C) ms).state.docs p ≠ [] →
        ∃ w, (((start env handlers).runs (semantics C) ms).state.docs p).winner = some w) := by
  have harrive : ∀ doc db, (inOrder : StepCond ι CouchReq Delivery BranchDoc Db).env doc db →
      AllSound db → AllSound ((semantics (ι := ι) C).env doc db) := by
    intro doc db hdoc h q
    show Tree.Sound ((C.answer (.bulkDocs doc) db).2.docs q)
    simp only [Couch.answer]
    cases hfound : (db.docs doc.id).find? doc.rev with
    | some n => exact h q
    | none =>
      -- what is put is new, and hangs off what has arrived before it
      refine Db.sound_write (h q) fun hs => hs.append (fun m hm hrev => ?_) fun r hr => ?_
      · exact Tree.find?_eq_none.1 hfound m hm hrev
      · exact hdoc.2 r hr
  have hsound : AllSound ((start env handlers).runs (semantics C) ms).state :=
    poolSafe_start.invariant fits (fun _ _ _ hg h => hg.2 h) harrive hms fun _ => .nil
  exact ⟨hsound p, Tree.exists_winner ((numbered_runs hms).pos p)⟩

/-- What another hub has of the path, each on top of the one before it. -/
def elsewhere (rev : Rev) (ids : List String) : BranchDoc :=
  ⟨"a", rev, ⟨rev.gen, ids⟩, false, ⟨some "a", some 7, none⟩, some ⟨octetStream, [3]⟩⟩

/-- Two revisions come in from another hub, one of them between the halves
of a write. -/
def joined : List (Move Bool Delivery BranchDoc) :=
  .run true .delivered :: .env (elsewhere ⟨1, "f"⟩ ["f"]) :: .run false .delivered ::
    .run true .unanswered :: .env (elsewhere ⟨2, "g"⟩ ["g", "f"]) ::
      List.replicate 30 (.run false .delivered)

theorem joined_sound :
    Tree.Sound (((start .plain bothNew).runs
        (semantics (Couch.counting true)) joined).state.docs "a") ∧
      (((start .plain bothNew).runs
          (semantics (Couch.counting true)) joined).state.docs "a" ≠ [] →
        ∃ w, (((start .plain bothNew).runs
          (semantics (Couch.counting true)) joined).state.docs "a").winner = some w) :=
  documents_sound (Couch.counting true) .plain bothNew joined
    (by decide +kernel) "a"

end Serving

end FileSync
