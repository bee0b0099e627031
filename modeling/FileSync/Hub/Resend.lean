import FileSync.Hub.Resolution
import FileSync.Hub.Updates
/-!
# Sending an upsert again

A client that got no answer sends the same upsert again. The revision the
upsert named is no leaf any more, so the second call branches it off. If the
first one had to branch it off as well, the branch is there already and
nothing is written. If not, the branch stands beside what the first call
wrote, and the two are resolved as the edits of two devices are.
-/

namespace FileSync

namespace Resend

open Resolver (mergeBaseIn leafOf editVsEdit)

/-- **The retry is harmless**: it succeeds and leaves the path's content, the
number of its live leaves and the documents there are as they were. -/
structure Harmless (C : Couch) (env : HubEnv) (db : Db) (change : PushChange) : Prop where
  ok : ∃ results, (Hub.exec C (Push.postChanges env [change]) db).1 = .ok results
  content : ((Hub.exec C (Push.postChanges env [change]) db).2.docs change.path).content? none =
    (db.docs change.path).content? none
  live : ((Hub.exec C (Push.postChanges env [change]) db).2.docs change.path).liveLeaves.length =
    (db.docs change.path).liveLeaves.length
  documents : ∀ p, ((Hub.exec C (Push.postChanges env [change]) db).2.docs p).visible.isSome =
    (db.docs p).visible.isSome

/-- The write conditioned on the change's base is refused. -/
def Stale (t : Tree) (change : PushChange) : Prop :=
  Couch.putParent t change.baseRev = .error Couch.conflict

instance (t : Tree) (change : PushChange) : Decidable (Stale t change) :=
  inferInstanceAs (Decidable (_ = _))

/-- The revision a stale upsert is branched off as. -/
abbrev branch (change : PushChange) (content : Bytes) (parent : Revisions) : BranchDoc :=
  Push.branchDoc change false (some content) parent

/-- The branch is there already, or is merged with what stands there into the
same bytes. -/
def Absorbed (env : HubEnv) (t : Tree) (n : Node) (change : PushChange) (content : Bytes)
    (parent : Revisions) : Prop :=
  t.find? (branch change content parent).rev ≠ none ∨
    Diff3.merge env.mergeStrings
      (mergeBaseIn (t ++ [(branch change content parent).toNode]) (leafOf n content)
        (leafOf (branch change content parent).toNode content)) content content = .ok content

/-- The first call branched the change off; or it is the one live version of
the path, and absorbs its own branch. -/
def Repeatable (env : HubEnv) (change : PushChange) (content : Bytes) (before after : Tree) :
    Prop :=
  Stale before change ∨ ∃ n parent, after.liveLeaves = [n] ∧
    Push.parentIn after change = .ok parent ∧ Absorbed env after n change content parent

variable {C : Couch} {env : HubEnv} {db : Db} {change : PushChange} {content : Bytes} {t : Tree}
  {n : Node} {parent : Revisions} {path : Path}

/-! ## Documents grow -/

theorem docs_exec {ε α : Type} (db : Db) (x : Hub ε α) (p : Path) :
    db.docs p <+: (Hub.exec C x db).2.docs p :=
  Prog.run_invariant (I := fun db' => db.docs p <+: db'.docs p)
    (fun _ e db' h => h.trans (C.docs_answer e db' p)) x.run List.prefix_rfl

theorem grows_exec (C : Couch) {ε α : Type} (x : Hub ε α) (db : Db) :
    Db.Grows db (Hub.exec C x db).2 :=
  Prog.run_invariant (I := Db.Grows db) (fun _ e db' h => h.trans (Db.grows_answer C e db')) x.run
    (Db.Grows.refl db)

/-! ## Staleness -/

theorem stale_or (t : Tree) (change : PushChange) :
    Stale t change ∨ ∃ parent, Couch.putParent t change.baseRev = .ok parent := by
  cases h : Couch.putParent t change.baseRev with
  | ok parent => exact .inr ⟨parent, rfl⟩
  | error e => exact .inl (by rw [Stale, h, Push.putParent_error h])

/-- A change is stale on what has been written over its base, and on a
visible document if it has none. -/
theorem stale_of (hsome : ∀ r, change.baseRev = some r → ∃ m ∈ t, r ∈ m.ancestors)
    (hvisible : t.liveLeaves ≠ []) : Stale t change := by
  unfold Stale Couch.putParent
  cases hb : change.baseRev with
  | none =>
    obtain ⟨n, hn⟩ := List.exists_mem_of_ne_nil _ hvisible
    obtain ⟨w, hw⟩ := Tree.exists_visible hn
    obtain ⟨hw, hd⟩ := Tree.visible_eq_some.1 hw
    simp [hw, hd]
  | some r =>
    obtain ⟨m, hm, hr⟩ := hsome r hb
    have hnone : t.leaf? r = none := by
      refine Tree.leaf?_eq_none.2 ?_
      rintro n hn rfl
      exact (Tree.mem_leaves.1 hn).2 m hm hr
    simp [hnone]

/-- What a stale change names has been written over. -/
theorem Stale.over (h : Stale t change) (hparent : Push.parentIn t change = .ok parent) :
    ∀ r, change.baseRev = some r → ∃ m ∈ t, r ∈ m.ancestors := by
  intro r hb
  rcases Push.parentIn_eq_ok hparent with ⟨-, hnone⟩ | ⟨p, hp, hsome, -⟩
  · rw [hb] at hnone
    cases hnone
  · obtain rfl := Option.some.inj (hb.symm.trans hsome)
    by_contra hnot
    push Not at hnot
    have hleaf : p ∈ t.leaves := Tree.mem_leaves.2 ⟨hp, hnot⟩
    unfold Stale Couch.putParent at h
    rw [hb] at h
    dsimp only at h
    cases hf : t.leaf? p.rev with
    | none => exact Tree.leaf?_eq_none.1 hf p hleaf rfl
    | some q =>
      rw [hf] at h
      cases h

/-! ## The second call -/

theorem exec_apply_of_stale (hupsert : change.deleted = false)
    (hcontent : (change.contentBase64.getD .empty).decode = .ok content)
    (hstale : Stale (db.docs change.path) change) :
    Hub.exec C (Push.apply env change) db =
      Hub.exec C (Push.branchAndResolve env change false (some content)) db := by
  rw [Push.apply, if_neg (by rw [hupsert]; exact Bool.false_ne_true),
    Push.exec_applyUpsert hcontent, hstale]

/-- A path with one live leaf has no conflict. -/
theorem exec_resolve_of_sole (C : Couch) (env : HubEnv) (h : (db.docs path).liveLeaves = [n]) :
    Hub.exec C (Resolver.resolve env path) db = (.ok .noConflict, db) ∧
      (db.docs path).doc? = some ⟨n.rev, n.body, []⟩ := by
  have hdoc : (db.docs path).doc? = some ⟨n.rev, n.body, []⟩ := by
    rw [Tree.doc?, Tree.visible_of_liveLeaves h, Option.map_some, h]
    simp
  refine ⟨?_, hdoc⟩
  rw [Resolver.resolve, Resolver.maxRetries, Resolver.resolveLoop,
    Hub.exec_bind_of_ok (Hub.exec_adapt_of_ok CouchClient.exec_getDoc), hdoc]
  rfl

/-- **A branch that is there already** leaves everything as it is, if the
path has one live leaf. -/
theorem harmless_of_present (hupsert : change.deleted = false)
    (hcontent : (change.contentBase64.getD .empty).decode = .ok content)
    (hstale : Stale (db.docs change.path) change)
    (hparent : Push.parentIn (db.docs change.path) change = .ok parent)
    (hsole : (db.docs change.path).liveLeaves = [n])
    (hpresent : (db.docs change.path).find? (branch change content parent).rev ≠ none) :
    Harmless C env db change := by
  have hbranched : Push.branched C change false (some content) parent db = db := by
    obtain ⟨m, hm⟩ := Option.ne_none_iff_exists'.1 hpresent
    unfold Push.branched
    simp only [Couch.answer]
    rw [show (db.docs (branch change content parent).id).find? _ = some m from hm]
  obtain ⟨hresolve, hdoc⟩ := exec_resolve_of_sole C env hsole
  have hrun : Hub.exec C (Push.postChanges env [change]) db =
      (.ok [⟨change.path, some n.rev⟩], db) := by
    rw [Push.exec_postChanges_singleton, exec_apply_of_stale hupsert hcontent hstale,
      Push.exec_branchAndResolve, hparent]
    dsimp only
    rw [hbranched, hresolve]
    dsimp only
    rw [hdoc]
  exact ⟨⟨_, by rw [hrun]⟩, by rw [hrun], by rw [hrun], fun p => by rw [hrun]⟩

theorem sound_branched {deleted : Bool} {content : Option Bytes} {p : Path}
    (h : Tree.Sound (db.docs p)) (hparent : Push.parentIn (db.docs change.path) change = .ok parent) :
    Tree.Sound ((Push.branched C change deleted content parent db).docs p) := by
  refine Couch.sound_answer _ ⟨change, deleted, content, parent, rfl, ?_⟩ h
  rcases Push.parentIn_eq_ok hparent with ⟨hroot, -⟩ | ⟨q, hq, -, hq'⟩
  exacts [.inl hroot, .inr ⟨q, hq, hq'⟩]

/-- A second call that succeeds leaves one live leaf at most, so a harmless
one has found no more. -/
theorem Harmless.live_le_one (h : Harmless C env db change) (hupsert : change.deleted = false)
    (hcontent : (change.contentBase64.getD .empty).decode = .ok content)
    (hs : Tree.Sound (db.docs change.path)) (hstale : Stale (db.docs change.path) change) :
    (db.docs change.path).liveLeaves.length ≤ 1 := by
  obtain ⟨results, hok⟩ := h.ok
  have hlive := h.live
  rw [Push.exec_postChanges_singleton] at hok hlive
  rcases hrun : Hub.exec C (Push.apply env change) db with ⟨e | rev, db'⟩
  · rw [hrun] at hok
    cases hok
  · rw [hrun] at hlive
    rw [exec_apply_of_stale hupsert hcontent hstale] at hrun
    obtain ⟨parent, o, doc, hparent, hresolve, -⟩ := Push.exec_branchAndResolve_eq_ok hrun
    rw [← hlive]
    exact Resolver.length_liveLeaves_of_resolve (sound_branched hs hparent) hresolve

/-! ## A branch beside what stands there -/

/-- What the branch makes of a path with one live leaf: two. -/
structure Beside (t : Tree) (n b : Node) : Prop where
  sound : Tree.Sound (t ++ [b])
  visible : Tree.visible (t ++ [b]) = some n
  losers : (Tree.liveLeaves (t ++ [b])).filter (fun m => m.rev ≠ n.rev) = [b]
  here : n ∈ Tree.leaves (t ++ [b])
  there : b ∈ Tree.leaves (t ++ [b])
  within : Tree.LiveWithin (t ++ [b]) [n.rev, b.rev]
  ne : b.rev ≠ n.rev

theorem beside_branch (hs : Tree.Sound t) (hsole : t.liveLeaves = [n])
    (hparent : Push.parentIn t change = .ok parent)
    (hover : ∀ r, change.baseRev = some r → ∃ m ∈ t, r ∈ m.ancestors)
    (hnew : t.find? (branch change content parent).rev = none)
    (hgen : parent.start + 1 < n.rev.gen) :
    Beside t n (branch change content parent).toNode := by
  set b := (branch change content parent).toNode with hb
  have hfresh : ∀ m ∈ t, m.rev ≠ b.rev := Tree.find?_eq_none.1 hnew
  have hnlive : n ∈ t.liveLeaves := by rw [hsole]; exact List.mem_singleton_self n
  obtain ⟨hnleaf, hnd⟩ := Tree.mem_liveLeaves.1 hnlive
  have hparents : ∀ r ∈ b.ancestors, ∃ m ∈ t, m.rev = r := by
    rcases Push.parentIn_eq_ok hparent with ⟨rfl, -⟩ | ⟨p, hp, -, rfl⟩
    · exact fun r hr => absurd hr List.not_mem_nil
    · intro r hr
      rw [hb, Push.ancestors_branch, List.mem_cons] at hr
      rcases hr with rfl | hr
      exacts [⟨p, hp, rfl⟩, hs.closed p hp r hr]
  have hsound : Tree.Sound (t ++ [b]) := hs.append hfresh hparents
  have hnot : n.rev ∉ b.ancestors := by
    rcases Push.parentIn_eq_ok hparent with ⟨rfl, -⟩ | ⟨p, hp, hbase, rfl⟩
    · exact List.not_mem_nil
    · rw [hb, Push.ancestors_branch, List.mem_cons, not_or]
      refine ⟨fun h => ?_, (Tree.mem_leaves.1 hnleaf).2 p hp⟩
      obtain ⟨m, hm, hr⟩ := hover _ hbase
      exact (Tree.mem_leaves.1 hnleaf).2 m hm (h ▸ hr)
  have hhere : n ∈ Tree.leaves (t ++ [b]) := Tree.mem_leaves_append.2 (.inl ⟨hnleaf, hnot⟩)
  have hthere : b ∈ Tree.leaves (t ++ [b]) := hs.mem_leaves_append_self hfresh hparents
  have honly : ∀ m ∈ Tree.liveLeaves (t ++ [b]), m = n ∨ m = b := by
    intro m hm
    obtain ⟨hleaf, hd⟩ := Tree.mem_liveLeaves.1 hm
    rcases Tree.mem_leaves_append.1 hleaf with ⟨hold, -⟩ | ⟨rfl, -⟩
    · have hmem : m ∈ t.liveLeaves := Tree.mem_liveLeaves.2 ⟨hold, hd⟩
      rw [hsole, List.mem_singleton] at hmem
      exact .inl hmem
    · exact .inr rfl
  have hne : b.rev ≠ n.rev := fun h => hfresh n (Tree.mem_of_mem_leaves hnleaf) h.symm
  -- two leaves are live: what stood there, which has the higher generation, and the branch
  refine ⟨hsound, ?_, ?_, hhere, hthere, ?_, hne⟩
  · obtain ⟨w, hw⟩ := Tree.exists_visible (Tree.mem_liveLeaves.2 ⟨hhere, hnd⟩)
    rcases honly w (Tree.visible_mem hw) with rfl | rfl
    · exact hw
    · -- the branch has the lower generation
      have hrank := Tree.rank_le_winner (Tree.visible_eq_some.1 hw).1 hhere
      have hbgen : b.rev.gen = parent.start + 1 := rfl
      have hbd : b.deleted = false := rfl
      rw [Node.rank, Node.rank, hnd, hbd, Prod.Lex.toLex_le_toLex, Prod.Lex.toLex_le_toLex] at hrank
      simp only [lt_self_iff_false, true_and, false_or] at hrank
      omega
  · refine List.perm_singleton.1 ((List.perm_ext_iff_of_nodup (hsound.nodup_liveLeaves.filter _)
      (List.nodup_singleton b)).2 fun m => ?_)
    rw [List.mem_filter, List.mem_singleton]
    constructor
    · rintro ⟨hm, hrev⟩
      rcases honly m hm with rfl | rfl
      · simp at hrev
      · rfl
    · rintro rfl
      exact ⟨Tree.mem_liveLeaves.2 ⟨hthere, rfl⟩, by simpa using hne⟩
  · intro m hm
    rcases honly m hm with rfl | rfl <;> simp

/-- The plan for the two. -/
def plan (env : HubEnv) (t : Tree) (n : Node) (change : PushChange) (content : Bytes)
    (parent : Revisions) : Plan :=
  editVsEdit env (mergeBaseIn (t ++ [(branch change content parent).toNode]) (leafOf n content)
      (leafOf (branch change content parent).toNode content))
    (leafOf n content) (leafOf (branch change content parent).toNode content)
    [(branch change content parent).rev]

/-- What is planned has the change's content type, which the first call could
send. -/
theorem typed_plan {t : Tree} (hsend : Push.sendable change = true)
    (htype : n.body.contentType.getD octetStream = change.contentType.getD octetStream) :
    HeaderValue.accepts (plan env t n change content parent).finalContentType = true ∧
      ∀ copy ∈ (plan env t n change content parent).copies,
        HeaderValue.accepts copy.contentType = true := by
  have hnode : HeaderValue.accepts (leafOf n content).contentType = true := by
    rw [leafOf, htype]
    exact hsend
  have hbranch : HeaderValue.accepts
      (leafOf (branch change content parent).toNode content).contentType = true := hsend
  unfold plan editVsEdit
  split
  · exact ⟨hnode, fun _ h => absurd h List.not_mem_nil⟩
  · unfold Resolver.keepNewer
    by_cases hle : (leafOf (branch change content parent).toNode content).mtime ≤
        (leafOf n content).mtime
    · rw [if_pos hle]
      exact ⟨hnode, List.forall_mem_singleton.2 hbranch⟩
    · rw [if_neg hle]
      exact ⟨hbranch, List.forall_mem_singleton.2 hnode⟩

theorem exec_apply_of_beside (C : Couch) (env : HubEnv) {a : Attachment}
    (hupsert : change.deleted = false)
    (hcontent : (change.contentBase64.getD .empty).decode = .ok content)
    (hstale : Stale (db.docs change.path) change)
    (hparent : Push.parentIn (db.docs change.path) change = .ok parent)
    (hnew : (db.docs change.path).find? (branch change content parent).rev = none)
    (hbeside : Beside (db.docs change.path) n (branch change content parent).toNode)
    (ha : n.content = some a) (hdata : a.data = content) :
    Hub.exec C (Push.apply env change) db =
      match Hub.exec C (Resolver.applyOrRetry env change.path
          (plan env (db.docs change.path) n change content parent)
          (Resolver.resolveLoop env change.path 4))
          (db.write change.path (branch change content parent).toNode) with
      | (.error _, db') => (.error .conflict, db')
      | (.ok _, db') =>
        match (db'.docs change.path).doc? with
        | none => (.error .conflict, db')
        | some doc => (.ok (some doc.rev), db') := by
  subst hdata
  set b := (branch change a.data parent).toNode with hb
  have hbranched : Push.branched C change false (some a.data) parent db =
      db.write change.path b := by
    unfold Push.branched
    simp only [Couch.answer]
    rw [show (db.docs (branch change a.data parent).id).find? _ = none from hnew]
    rfl
  have hdocs : (db.write change.path b).docs change.path = db.docs change.path ++ [b] :=
    Db.write_docs_self
  have htwo : Hub.exec C (Resolver.resolve env change.path) (db.write change.path b) =
      Hub.exec C (Resolver.applyOrRetry env change.path
        (plan env (db.docs change.path) n change a.data parent)
        (Resolver.resolveLoop env change.path 4)) (db.write change.path b) := by
    have hrun := Resolver.exec_resolve_of_two C env (l := b)
      (hdocs ▸ hbeside.sound) (hdocs ▸ hbeside.visible) (hdocs ▸ hbeside.losers) ha rfl
    rw [hdocs] at hrun
    exact hrun
  rw [exec_apply_of_stale hupsert hcontent hstale, Push.exec_branchAndResolve, hparent]
  rcases hrun : Hub.exec C (Resolver.applyOrRetry env change.path
    (plan env (db.docs change.path) n change a.data parent)
    (Resolver.resolveLoop env change.path 4)) (db.write change.path b) with ⟨e | o, db'⟩
  · simp only [hbranched, htwo, hrun]
  · cases hdoc : (db'.docs change.path).doc? <;> simp only [hbranched, htwo, hrun, hdoc]

/-- **A plan without copies** that is written leaves the path with the plan's
content and one live leaf, and the documents as they were. -/
theorem exec_postChanges_of_merged {a : Attachment} {merged : Bytes}
    (hupsert : change.deleted = false)
    (hcontent : (change.contentBase64.getD .empty).decode = .ok content)
    (hstale : Stale (db.docs change.path) change)
    (hparent : Push.parentIn (db.docs change.path) change = .ok parent)
    (hnew : (db.docs change.path).find? (branch change content parent).rev = none)
    (hbeside : Beside (db.docs change.path) n (branch change content parent).toNode)
    (hsend : Push.sendable change = true)
    (htype : n.body.contentType.getD octetStream = change.contentType.getD octetStream)
    (ha : n.content = some a) (hdata : a.data = content)
    (hcopies : (plan env (db.docs change.path) n change content parent).copies = [])
    (hfinal : (plan env (db.docs change.path) n change content parent).finalContent = some merged) :
    ∃ results db' m, Hub.exec C (Push.postChanges env [change]) db = (.ok results, db') ∧
      (db'.docs change.path).liveLeaves = [m] ∧ m.content.map Attachment.data = some merged ∧
      ∀ p, p ≠ change.path → db'.docs p = db.docs p := by
  have happly := exec_apply_of_beside C env hupsert hcontent hstale hparent hnew
    hbeside ha hdata
  set b := (branch change content parent).toNode with hb
  set planned := plan env (db.docs change.path) n change content parent with hplanned
  have hdocs : (db.write change.path b).docs change.path = db.docs change.path ++ [b] :=
    Db.write_docs_self
  obtain ⟨db₁, db', m, hwrite, hdelete, hlive, hm, hothers⟩ :=
    Resolver.exec_writeTwo C (db.write change.path b) planned
      (hdocs ▸ hbeside.sound) (hdocs ▸ hbeside.here) (hdocs ▸ hbeside.there)
      (show b.rev ≠ n.rev from hbeside.ne) (hdocs ▸ hbeside.within) hfinal
      (typed_plan hsend htype).1 Resolver.editVsEdit_revs.1 Resolver.editVsEdit_revs.2
  have hcopy : Hub.exec C (Resolver.writeCopies env change.path planned.copies)
      (db.write change.path b) = (.ok [], db.write change.path b) := by
    rw [hcopies]
    rfl
  rw [Resolver.exec_applyOrRetry, Resolver.exec_applyPlan_of hcopy hwrite hdelete] at happly
  have hdoc := (exec_resolve_of_sole C env hlive).2
  dsimp only at happly
  rw [hdoc] at happly
  refine ⟨[⟨change.path, some m.rev⟩], db', m, ?_, hlive, by rw [hm]; rfl, fun p hp => ?_⟩
  · rw [Push.exec_postChanges_singleton, happly]
  · rw [hothers p hp, Db.write_docs_of_ne hp]

/-- **A plan with a copy** that is written leaves a document more. -/
theorem documents_of_copied {a : Attachment} {copy : Copy} (hupsert : change.deleted = false)
    (hcontent : (change.contentBase64.getD .empty).decode = .ok content)
    (hstale : Stale (db.docs change.path) change)
    (hparent : Push.parentIn (db.docs change.path) change = .ok parent)
    (hnew : (db.docs change.path).find? (branch change content parent).rev = none)
    (hbeside : Beside (db.docs change.path) n (branch change content parent).toNode)
    (hsend : Push.sendable change = true)
    (htype : n.body.contentType.getD octetStream = change.contentType.getD octetStream)
    (ha : n.content = some a) (hdata : a.data = content)
    (hcopies : (plan env (db.docs change.path) n change content parent).copies = [copy])
    (hfinal : (plan env (db.docs change.path) n change content parent).finalContent ≠ none)
    {results : List PushResult}
    (hok : (Hub.exec C (Push.postChanges env [change]) db).1 = .ok results) :
    ∃ q, (db.docs q).visible = none ∧
      ((Hub.exec C (Push.postChanges env [change]) db).2.docs q).visible ≠ none := by
  have happly := exec_apply_of_beside C env hupsert hcontent hstale hparent hnew
    hbeside ha hdata
  set b := (branch change content parent).toNode with hb
  set planned := plan env (db.docs change.path) n change content parent with hplanned
  obtain ⟨final, hfinal⟩ := Option.ne_none_iff_exists'.1 hfinal
  have hcopytype : HeaderValue.accepts copy.contentType = true :=
    (typed_plan hsend htype).2 copy (hcopies ▸ List.mem_singleton_self copy)
  -- the copy is a document that was not there, if a name for it is left
  rcases Resolver.exec_writeCopy_content C env (db.write change.path b) change.path copy
    hcopytype with ⟨q, dbq, hrun, hcopied, -⟩ | ⟨hrun, -⟩
  · have hdocs : dbq.docs change.path = db.docs change.path ++ [b] := by
      rw [hcopied.others _ hcopied.ne.symm, Db.write_docs_self]
    obtain ⟨db₁, db', m, hwrite, hdelete, hlive, -, hothers⟩ :=
      Resolver.exec_writeTwo C dbq planned
        (hdocs ▸ hbeside.sound) (hdocs ▸ hbeside.here) (hdocs ▸ hbeside.there)
        (show b.rev ≠ n.rev from hbeside.ne) (hdocs ▸ hbeside.within) hfinal
        (typed_plan hsend htype).1 Resolver.editVsEdit_revs.1 Resolver.editVsEdit_revs.2
    have hcopy : Hub.exec C (Resolver.writeCopies env change.path planned.copies)
        (db.write change.path b) = (.ok [q], dbq) := by
      rw [hcopies, Resolver.writeCopies, Hub.exec_bind_of_ok hrun]
      rfl
    rw [Resolver.exec_applyOrRetry, Resolver.exec_applyPlan_of hcopy hwrite hdelete] at happly
    have hdoc := (exec_resolve_of_sole C env hlive).2
    dsimp only at happly
    rw [hdoc] at happly
    refine ⟨q, ?_, ?_⟩
    · have hbefore := hcopied.before
      rwa [Db.write_docs_of_ne hcopied.ne] at hbefore
    · rw [Push.exec_postChanges_singleton, happly]
      dsimp only
      rw [hothers q hcopied.ne]
      exact hcopied.after
  · -- no name is left for the copy, and the call fails
    have hcopy : Hub.exec C (Resolver.writeCopies env change.path planned.copies)
        (db.write change.path b) = (.error .suffixOverflow, db.write change.path b) := by
      rw [hcopies, Resolver.writeCopies, Hub.exec_bind_of_error hrun]
    have hplan : Hub.exec C (Resolver.applyPlan env change.path planned)
        (db.write change.path b) = (.error .suffixOverflow, db.write change.path b) :=
      Hub.exec_bind_of_error hcopy
    rw [Resolver.exec_applyOrRetry, hplan] at happly
    dsimp only at happly
    rw [Push.exec_postChanges_singleton, happly] at hok
    cases hok

/-- **Beside what stands there**, the retry is harmless exactly when the two
are merged into the same bytes. -/
theorem harmless_iff_merged {a : Attachment} (hupsert : change.deleted = false)
    (hcontent : (change.contentBase64.getD .empty).decode = .ok content)
    (hstale : Stale (db.docs change.path) change)
    (hparent : Push.parentIn (db.docs change.path) change = .ok parent)
    (hnew : (db.docs change.path).find? (branch change content parent).rev = none)
    (hsole : (db.docs change.path).liveLeaves = [n])
    (hbeside : Beside (db.docs change.path) n (branch change content parent).toNode)
    (hsend : Push.sendable change = true)
    (htype : n.body.contentType.getD octetStream = change.contentType.getD octetStream)
    (ha : n.content = some a) (hdata : a.data = content) :
    Harmless C env db change ↔ Diff3.merge env.mergeStrings
      (mergeBaseIn (db.docs change.path ++ [(branch change content parent).toNode])
        (leafOf n content) (leafOf (branch change content parent).toNode content))
      content content = .ok content := by
  have hbefore : (db.docs change.path).content? none = some content := by
    rw [Tree.content?, Option.elim, Tree.visible_of_liveLeaves hsole, Option.bind_some, ha, ← hdata]
    rfl
  -- two contents that are not merged leave a conflict copy
  cases hmerge : Diff3.merge env.mergeStrings
      (mergeBaseIn (db.docs change.path ++ [(branch change content parent).toNode])
        (leafOf n content) (leafOf (branch change content parent).toNode content))
      content content with
  | ok merged =>
    have hplan : (plan env (db.docs change.path) n change content parent).copies = [] ∧
        (plan env (db.docs change.path) n change content parent).finalContent = some merged := by
      simp only [plan, editVsEdit, leafOf] at hmerge ⊢
      rw [hmerge]
      exact ⟨rfl, rfl⟩
    obtain ⟨results, db', m, hrun, hlive, hm, hothers⟩ := exec_postChanges_of_merged (C := C)
      hupsert hcontent hstale hparent hnew hbeside hsend htype ha hdata hplan.1 hplan.2
    have hafter : (db'.docs change.path).content? none = some merged := by
      rw [Tree.content?, Option.elim, Tree.visible_of_liveLeaves hlive, Option.bind_some, hm]
    constructor
    · intro h
      have hsame := h.content
      rw [hrun, hafter, hbefore] at hsame
      rw [Option.some.inj hsame]
    · intro h
      refine ⟨⟨results, by rw [hrun]⟩, ?_, ?_, fun p => ?_⟩
      · rw [hrun, hafter, hbefore, Except.ok.inj h]
      · rw [hrun, hlive, hsole]
        rfl
      · rw [hrun]
        by_cases hp : p = change.path
        · rw [hp, Tree.visible_of_liveLeaves hlive, Tree.visible_of_liveLeaves hsole]
          rfl
        · rw [hothers p hp]
  | error e =>
    refine iff_of_false (fun h => ?_) (by rintro ⟨⟩)
    have hplan : ∃ copy, (plan env (db.docs change.path) n change content parent).copies = [copy] ∧
        (plan env (db.docs change.path) n change content parent).finalContent ≠ none := by
      simp only [plan, editVsEdit, leafOf] at hmerge ⊢
      rw [hmerge]
      exact ⟨_, rfl, Option.some_ne_none _⟩
    obtain ⟨copy, hcopies, hfinal⟩ := hplan
    obtain ⟨results, hok⟩ := h.ok
    obtain ⟨q, hq, hq'⟩ := documents_of_copied (C := C) hupsert hcontent hstale hparent hnew
      hbeside hsend htype ha hdata hcopies hfinal hok
    have hsame := h.documents q
    rw [hq, Option.isSome_none] at hsame
    exact hq' (by simpa using hsame)

/-! ## After the first call -/

variable {db₁ db₂ : Db} {results : List PushResult}

theorem exec_apply_eq_ok
    (h : Hub.exec C (Push.postChanges env [change]) db = (.ok results, db₁)) :
    ∃ rev, Hub.exec C (Push.apply env change) db = (.ok rev, db₁) := by
  rw [Push.exec_postChanges_singleton] at h
  rcases hrun : Hub.exec C (Push.apply env change) db with ⟨e | rev, db'⟩
  · rw [hrun] at h
    cases (Prod.mk.inj h).1
  · rw [hrun] at h
    obtain ⟨-, rfl⟩ := Prod.mk.inj h
    exact ⟨rev, rfl⟩

/-- **After a first call that branched**, the branch is there, the path has
one live leaf, and the change is stale still. -/
theorem harmless_of_stale (hs : Tree.Sound (db.docs change.path)) (hupsert : change.deleted = false)
    (hcontent : (change.contentBase64.getD .empty).decode = .ok content)
    (hfirst : Hub.exec C (Push.postChanges env [change]) db = (.ok results, db₁))
    (hstale : Stale (db.docs change.path) change) (env' : HubEnv)
    (hsame : db₂.docs change.path = db₁.docs change.path) : Harmless C env' db₂ change := by
  obtain ⟨rev, hrun⟩ := exec_apply_eq_ok hfirst
  rw [exec_apply_of_stale hupsert hcontent hstale] at hrun
  obtain ⟨parent, o, doc, hparent, hresolve, hdoc, -⟩ := Push.exec_branchAndResolve_eq_ok hrun
  -- the branch, and what the change's base names, were there before the resolution and stay
  have hgrown : (Push.branched C change false (some content) parent db).docs change.path <+:
      db₂.docs change.path := by
    have hprefix := docs_exec (C := C) (Push.branched C change false (some content) parent db)
      (Resolver.resolve env change.path) change.path
    rw [hresolve] at hprefix
    rwa [hsame]
  have hold : db.docs change.path <+: db₂.docs change.path :=
    (C.docs_answer (.bulkDocs (branch change content parent)) db change.path).trans hgrown
  have hlive : (db₂.docs change.path).liveLeaves.length ≤ 1 := by
    rw [hsame]
    exact Resolver.length_liveLeaves_of_resolve (sound_branched hs hparent) hresolve
  obtain ⟨w, hw, -⟩ := Option.map_eq_some_iff.1 hdoc
  have hwmem : w ∈ (db₂.docs change.path).liveLeaves := by
    rw [hsame]
    exact Tree.visible_mem hw
  obtain ⟨n, hsole⟩ : ∃ n, (db₂.docs change.path).liveLeaves = [n] :=
    List.length_eq_one_iff.1 (by have := List.length_pos_of_mem hwmem; omega)
  have hstale₂ : Stale (db₂.docs change.path) change := by
    refine stale_of (fun r hr => ?_) (by rw [hsole]; exact List.cons_ne_nil _ _)
    obtain ⟨m, hm, hmr⟩ := hstale.over hparent r hr
    exact ⟨m, hold.subset hm, hmr⟩
  have hparent₂ : Push.parentIn (db₂.docs change.path) change = .ok parent := by
    unfold Push.parentIn at hparent ⊢
    cases hb : change.baseRev with
    | none =>
      rw [hb] at hparent
      exact hparent
    | some r =>
      rw [hb] at hparent
      dsimp only at hparent ⊢
      cases hf : (db.docs change.path).find? r with
      | none =>
        rw [hf] at hparent
        cases hparent
      | some p =>
        obtain ⟨tail, htail⟩ := hold
        rw [hf] at hparent
        rw [← htail, Tree.find?, List.find?_append, show List.find? _ (db.docs change.path) = some p
          from hf, Option.some_or]
        exact hparent
  refine harmless_of_present hupsert hcontent hstale₂ hparent₂ hsole fun hnone => ?_
  have hthere : ∃ m ∈ (Push.branched C change false (some content) parent db).docs change.path,
      m.rev = (branch change content parent).rev := by
    unfold Push.branched
    simp only [Couch.answer]
    split
    · rename_i m hm
      exact ⟨m, Tree.find?_eq_some hm⟩
    · exact ⟨(branch change content parent).toNode, by
        rw [show (branch change content parent).id = change.path from rfl, Db.write_docs_self]
        exact List.mem_append_right _ (List.mem_singleton_self _), rfl⟩
  obtain ⟨m, hm, hrev⟩ := hthere
  exact Tree.find?_eq_none.1 hnone m (hgrown.subset hm) hrev

/-- What a first call that was not refused leaves: the path as it was, with
the change's two revisions. -/
theorem docs_of_accepted {p : Option Node} (hupsert : change.deleted = false)
    (hcontent : (change.contentBase64.getD .empty).decode = .ok content)
    (hfirst : Hub.exec C (Push.postChanges env [change]) db = (.ok results, db₁))
    (hput : Couch.putParent (db.docs change.path) change.baseRev = .ok p) :
    Push.sendable change = true ∧
      db₁.docs change.path = db.docs change.path ++
        [Push.bodyNode C (db.docs change.path) p change] ++
        [Push.contentNode C (db.docs change.path) p change content] := by
  obtain ⟨rev, hrun⟩ := exec_apply_eq_ok hfirst
  rw [Push.apply, if_neg (by rw [hupsert]; exact Bool.false_ne_true),
    Push.exec_applyUpsert hcontent, hput] at hrun
  dsimp only at hrun
  split at hrun
  · rename_i hsend
    obtain ⟨-, rfl⟩ := Prod.mk.inj hrun
    rw [Db.write_docs_self, Db.write_docs_self]
    exact ⟨hsend, rfl⟩
  · cases (Prod.mk.inj hrun).1

theorem putParent_some {r : Rev} {p : Option Node} (hbase : change.baseRev = some r)
    (hput : Couch.putParent t change.baseRev = .ok p) : ∃ q, p = some q ∧ q.rev = r := by
  rw [hbase] at hput
  unfold Couch.putParent at hput
  dsimp only at hput
  split at hput
  · rename_i q hq
    exact ⟨q, (Except.ok.inj hput).symm, (Tree.leaf?_eq_some hq).2⟩
  · cases hput

/-- What an accepted change named is found again. -/
theorem exists_parentIn {before : Tree} {p : Option Node}
    (hput : Couch.putParent before change.baseRev = .ok p) (hmem : ∀ q, p = some q → q ∈ t) :
    ∃ parent, Push.parentIn t change = .ok parent := by
  unfold Push.parentIn
  cases hb : change.baseRev with
  | none => exact ⟨_, rfl⟩
  | some r =>
    obtain ⟨q, hq, rfl⟩ := putParent_some hb hput
    obtain ⟨m, hm⟩ := Tree.exists_find? (hmem q hq)
    exact ⟨m.revisions, by dsimp only; rw [hm]⟩

/-- **Sending an upsert again**, once a first call has applied it and nobody
else has written the path, is harmless exactly when the first call branched
it off already, or when it is the path's one live version and its branch is
there already or merged with it into the same bytes. -/
theorem harmless_iff_repeatable (C : Couch) (env env' : HubEnv) (db db₁ db₂ : Db)
    (change : PushChange) (content : Bytes) (results : List PushResult) (hreach : Reachable C db)
    (hupsert : change.deleted = false)
    (hcontent : (change.contentBase64.getD .empty).decode = .ok content)
    (hfirst : Hub.exec C (Push.postChanges env [change]) db = (.ok results, db₁))
    (hsame : db₂.docs change.path = db₁.docs change.path) :
    Harmless C env' db₂ change ↔
      Repeatable env' change content (db.docs change.path) (db₂.docs change.path) := by
  have hs : Tree.Sound (db.docs change.path) := hreach.sound change.path
  rcases stale_or (db.docs change.path) change with hstale | ⟨p, hput⟩
  · exact iff_of_true (harmless_of_stale hs hupsert hcontent hfirst hstale env' hsame) (.inl hstale)
  obtain ⟨hsend, hdocs⟩ := docs_of_accepted hupsert hcontent hfirst hput
  rw [← hsame] at hdocs
  set t := db.docs change.path with ht
  set b := Push.bodyNode C t p change with hb
  set n := Push.contentNode C t p change content with hn
  have hpmem : ∀ q, p = some q → q ∈ t := fun q hq =>
    Tree.mem_of_mem_leaves (Push.putParent_mem hput q hq)
  have hbmem : ∀ q, some b = some q → q ∈ t ++ [b] := by
    rintro q ⟨⟩
    exact List.mem_append_right _ (List.mem_singleton_self b)
  have hs₂ : Tree.Sound (db₂.docs change.path) := by
    rw [hdocs]
    exact Couch.sound_append_child (Couch.sound_append_child hs hpmem) hbmem
  have hnlive : n ∈ (db₂.docs change.path).liveLeaves := by
    rw [hdocs]
    exact Tree.mem_liveLeaves.2 ⟨(Tree.leaf?_eq_some (Push.leaf?_append_child hbmem)).1, rfl⟩
  -- the base is under the first revision written
  have hover : ∀ r, change.baseRev = some r → ∃ m ∈ db₂.docs change.path, r ∈ m.ancestors := by
    intro r hr
    obtain ⟨q, rfl, rfl⟩ := putParent_some hr hput
    refine ⟨b, ?_, ?_⟩
    · rw [hdocs]
      exact List.mem_append_left _ (hbmem b rfl)
    · rw [hb, Push.bodyNode, Couch.ancestors_child_some]
      exact List.mem_cons_self
  have hstale₂ : Stale (db₂.docs change.path) change := stale_of hover (List.ne_nil_of_mem hnlive)
  obtain ⟨parent, hparent⟩ := exists_parentIn (t := db₂.docs change.path) (p := p) hput fun q hq => by
    rw [hdocs]
    exact List.mem_append_left _ (List.mem_append_left _ (hpmem q hq))
  have hgen : parent.start + 1 < n.rev.gen := by
    have hngen : n.rev.gen = (p.elim 0 fun q => q.rev.gen) + 1 + 1 := rfl
    rcases Push.parentIn_eq_ok hparent with ⟨rfl, -⟩ | ⟨q, -, hbase, rfl⟩
    · show 0 + 1 < n.rev.gen
      omega
    · obtain ⟨r, rfl, hr⟩ := putParent_some hbase hput
      show q.rev.gen + 1 < n.rev.gen
      rw [hngen, Option.elim, hr]
      omega
  constructor
  · intro h
    have hone := h.live_le_one hupsert hcontent hs₂ hstale₂
    obtain ⟨m, hm⟩ := List.length_eq_one_iff.1
      (show (db₂.docs change.path).liveLeaves.length = 1 by
        have := List.length_pos_of_mem hnlive
        omega)
    obtain rfl : n = m := List.mem_singleton.1 (hm ▸ hnlive)
    refine .inr ⟨n, parent, hm, hparent, ?_⟩
    by_cases hnew : (db₂.docs change.path).find? (branch change content parent).rev = none
    · exact .inr ((harmless_iff_merged hupsert hcontent hstale₂ hparent hnew hm
        (beside_branch hs₂ hm hparent hover hnew hgen) hsend rfl rfl rfl).1 h)
    · exact .inl hnew
  · rintro (hstale | ⟨m, parent', hm, hparent', habsorbed⟩)
    · unfold Stale at hstale
      rw [hput] at hstale
      cases hstale
    · obtain rfl : n = m := List.mem_singleton.1 (hm ▸ hnlive)
      obtain rfl := Except.ok.inj (hparent.symm.trans hparent')
      by_cases hnew : (db₂.docs change.path).find? (branch change content parent).rev = none
      · exact (harmless_iff_merged hupsert hcontent hstale₂ hparent hnew hm
          (beside_branch hs₂ hm hparent hover hnew hgen) hsend rfl rfl rfl).2
          (habsorbed.resolve_left fun h => h hnew)
      · exact harmless_of_present hupsert hcontent hstale₂ hparent hm hnew

/-! ## What has no text -/

/-- The first version of a file. -/
def newFile (content : Bytes) : PushChange := ⟨"a", false, none, 1, none, some (.encode content)⟩

/-- An empty hub after it was sent once. -/
def sentOnce (content : Bytes) : Db :=
  (Hub.exec (.counting false) (Push.postChanges .takesFirst [newFile content]) Db.empty).2

/-- **A byte that begins no text**, sent again, leaves a conflict copy of the
file beside it. -/
theorem binary_resend_not_harmless :
    (Hub.exec (.counting false) (Push.postChanges .takesFirst [newFile [255]]) Db.empty).1 =
        .ok [⟨"a", some ⟨2, "xx"⟩⟩] ∧
      ¬ Harmless (.counting false) .takesFirst (sentOnce [255]) (newFile [255]) := by
  refine ⟨by decide +kernel, fun h => ?_⟩
  have hcopy : ((sentOnce [255]).docs "a.conflict-01.01.2026").visible.isSome = false ∧
      ((Hub.exec (.counting false) (Push.postChanges .takesFirst [newFile [255]])
        (sentOnce [255])).2.docs "a.conflict-01.01.2026").visible.isSome = true := by
    decide +kernel
  have hsame := h.documents "a.conflict-01.01.2026"
  rw [hcopy.1, hcopy.2] at hsame
  cases hsame

theorem text_resend_harmless :
    Harmless (.counting false) .takesFirst (sentOnce [104, 105]) (newFile [104, 105]) :=
  (harmless_iff_repeatable (.counting false) .takesFirst .takesFirst Db.empty (sentOnce [104, 105])
    (sentOnce [104, 105]) (newFile [104, 105]) [104, 105] [⟨"a", some ⟨2, "xx"⟩⟩] .empty rfl rfl
    (Prod.ext (by decide +kernel) rfl) rfl).2
    (.inr ⟨⟨⟨2, "xx"⟩, ["x"], false, ⟨some "a", some 1, some octetStream⟩,
      some ⟨octetStream, [104, 105]⟩⟩, ⟨0, []⟩, by decide +kernel, rfl, .inr (by decide +kernel)⟩)

end Resend

end FileSync
