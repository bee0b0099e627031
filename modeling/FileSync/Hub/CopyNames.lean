import FileSync.Hub.Resolution
import Mathlib.Data.Set.Card
/-!
# The names of copies

The candidates for a copy's name are all different, so fewer documents than
there are candidates leave one free, and the search ends at the first. A copy
is a document before the name of the next one is looked for, and so no two of
a plan's copies are put under one name.
-/

namespace FileSync

namespace Resolver

variable {C : Couch} {env : HubEnv} {db db' : Db} {path q : Path} {base today : String}

/-! ## The candidates -/

/-- **No two candidates are the same name.** -/
theorem conflictName_injective (base today : String) :
    Function.Injective (conflictName base today) := by
  have hnum : ∀ k, (conflictName base today (k + 1)).toList =
      (conflictName base today 0).toList ++ '.' :: Nat.toDigits 10 k := by
    intro k
    have hdot : (toString ".").toList = ['.'] := rfl
    simp [conflictName, hdot]
  intro j k h
  have hlist := congrArg String.toList h
  cases j with
  | zero =>
    cases k with
    | zero => rfl
    | succ k =>
      rw [hnum, List.self_eq_append_right] at hlist
      cases hlist
  | succ j =>
    cases k with
    | zero =>
      rw [hnum, List.append_right_eq_self] at hlist
      cases hlist
    | succ k =>
      rw [hnum, hnum] at hlist
      have hdigits : Nat.toDigits 10 j = Nat.toDigits 10 k :=
        (List.cons.inj (List.append_cancel_left hlist)).2
      have hback : ∀ n, Nat.ofDigitChars 10 (Nat.toDigits 10 n) 0 = n := fun n =>
        Nat.ofDigitChars_toDigits (by omega) (by omega)
      rw [← hback j, hdigits, hback k]

/-- Fewer documents are shown than a `u32` can count. -/
def Few (db : Db) : Prop := {p | (db.docs p).visible ≠ none}.encard < 2 ^ 32

/-- Among that many candidates one is free. -/
theorem Few.exists_free (h : Few db) (base today : String) :
    ∃ k < 2 ^ 32, (db.docs (conflictName base today k)).visible = none := by
  by_contra htaken
  push Not at htaken
  have hsub : conflictName base today '' Set.Iio (2 ^ 32) ⊆ {p | (db.docs p).visible ≠ none} := by
    rintro p ⟨k, hk, rfl⟩
    exact htaken k hk
  have hle := Set.encard_le_encard hsub
  rw [(conflictName_injective base today).encard_image] at hle
  have hcard : (Set.Iio (2 ^ 32) : Set ℕ).encard = 2 ^ 32 := Set.Nat.encard_range (2 ^ 32)
  rw [hcard] at hle
  exact absurd h hle.not_gt

/-- The first candidate that is no shown document. -/
structure FirstFree (env : HubEnv) (path : Path) (db : Db) (n : ℕ) : Prop where
  free : (db.docs (conflictName path env.today n)).visible = none
  least : ∀ k < n, (db.docs (conflictName path env.today k)).visible ≠ none

theorem exec_firstFree_of_free {n k fuel : ℕ} (hkn : k ≤ n) (hn : n < k + fuel)
    (hfree : (db.docs (conflictName base today n)).visible = none)
    (htaken : ∀ j, k ≤ j → j < n → (db.docs (conflictName base today j)).visible ≠ none) :
    Hub.exec C (firstFree base today k fuel) db = (.ok (conflictName base today n), db) := by
  induction fuel generalizing k with
  | zero => omega
  | succ fuel ih =>
    have hdoc : Hub.exec C (orCouch (CouchClient.getDoc (conflictName base today k))) db =
        (.ok (db.docs (conflictName base today k)).doc?, db) :=
      Hub.exec_adapt_of_ok CouchClient.exec_getDoc
    unfold firstFree
    rw [Hub.exec_bind_of_ok hdoc]
    rcases Nat.eq_or_lt_of_le hkn with rfl | hlt
    · rw [Tree.doc?_eq_none.2 hfree]
      rfl
    · cases hd : (db.docs (conflictName base today k)).doc? with
      | none => exact absurd (Tree.doc?_eq_none.1 hd) (htaken k (le_refl k) hlt)
      | some doc => exact ih (by omega) (by omega) fun j hkj hj => htaken j (by omega) hj

/-- What is found is one of the candidates that are tried. -/
theorem firstFree_eq_ok {k fuel : ℕ}
    (h : Hub.exec C (firstFree base today k fuel) db = (.ok q, db')) :
    ∃ n < k + fuel, q = conflictName base today n := by
  induction fuel generalizing k with
  | zero => exact (Hub.not_exec_throw_eq_ok h).elim
  | succ fuel ih =>
    unfold firstFree at h
    rw [Hub.exec_bind_of_ok (Hub.exec_adapt_of_ok CouchClient.exec_getDoc)] at h
    cases hd : (db.docs (conflictName base today k)).doc? with
    | none =>
      rw [hd] at h
      exact ⟨k, by omega, (Hub.exec_pure_eq_ok h).1.symm⟩
    | some doc =>
      rw [hd] at h
      obtain ⟨n, hn, rfl⟩ := ih h
      exact ⟨n, by omega, rfl⟩

/-- **The search for a name ends at the first free one.** -/
theorem exec_conflictCopyPath_of_few (C : Couch) (h : Few db) (env : HubEnv) (path : Path) :
    ∃ n, Hub.exec C (conflictCopyPath env path) db = (.ok (conflictName path env.today n), db) ∧
      FirstFree env path db n := by
  have hexists : ∃ k, (db.docs (conflictName path env.today k)).visible = none := by
    obtain ⟨k, -, hk⟩ := h.exists_free path env.today
    exact ⟨k, hk⟩
  have hleast : ∀ k < Nat.find hexists, (db.docs (conflictName path env.today k)).visible ≠ none :=
    fun k hk => Nat.find_min hexists hk
  have hbound : Nat.find hexists < 2 ^ 32 := by
    obtain ⟨k, hlt, hk⟩ := h.exists_free path env.today
    exact (Nat.find_min' hexists hk).trans_lt hlt
  refine ⟨Nat.find hexists, ?_, Nat.find_spec hexists, hleast⟩
  exact exec_firstFree_of_free (Nat.zero_le _) (by omega) (Nat.find_spec hexists)
    fun j _ hj => hleast j hj

/-! ## Room for copies -/

/-- Of the candidates for a copy's name, that many are free. -/
def Room (env : HubEnv) (path : Path) (db : Db) (copies : ℕ) : Prop :=
  ∃ names : Finset ℕ, names.card = copies ∧ ∀ k ∈ names,
    k < 2 ^ 32 ∧ (db.docs (conflictName path env.today k)).visible = none

theorem room_zero : Room env path db 0 :=
  ⟨∅, Finset.card_empty, fun _ hk => absurd hk (Finset.notMem_empty _)⟩

theorem not_room_of_crowded {m : ℕ} (h : Crowded env path db) : ¬ Room env path db (m + 1) := by
  rintro ⟨names, hcard, hfree⟩
  obtain ⟨k, hk⟩ := Finset.card_pos.1 (by omega : 0 < names.card)
  exact h k (hfree k hk).1 (hfree k hk).2

/-- A copy takes one free name, and no other. -/
theorem room_succ {k m : ℕ} (hk : k < 2 ^ 32)
    (hcopied : Copied path (conflictName path env.today k) db db') :
    Room env path db (m + 1) ↔ Room env path db' m := by
  have hsame : ∀ j, j ≠ k → db'.docs (conflictName path env.today j) =
      db.docs (conflictName path env.today j) := fun j hj =>
    hcopied.others _ fun heq => hj (conflictName_injective path env.today heq)
  constructor
  · rintro ⟨names, hcard, hfree⟩
    have hle : m ≤ (names.erase k).card := by
      have hpred := Finset.pred_card_le_card_erase (s := names) (a := k)
      omega
    obtain ⟨fewer, hsub, hfewer⟩ := Finset.exists_subset_card_eq hle
    refine ⟨fewer, hfewer, fun j hj => ?_⟩
    obtain ⟨hjk, hjmem⟩ := Finset.mem_erase.1 (hsub hj)
    rw [hsame j hjk]
    exact hfree j hjmem
  · rintro ⟨names, hcard, hfree⟩
    have hnot : k ∉ names := fun hmem => hcopied.after (hfree k hmem).2
    refine ⟨insert k names, by rw [Finset.card_insert_of_notMem hnot, hcard], fun j hj => ?_⟩
    rcases Finset.mem_insert.1 hj with rfl | hj
    · exact ⟨hk, hcopied.before⟩
    · rw [← hsame j (ne_of_mem_of_not_mem hj hnot)]
      exact hfree j hj

/-! ## The copies of a plan -/

/-- A candidate that is found writes nothing. -/
theorem exec_conflictCopyPath_db : (Hub.exec C (conflictCopyPath env path) db).2 = db := by
  rcases exec_firstFree C db path env.today 0 (2 ^ 32) with ⟨n, hrun, -⟩ | ⟨hrun, -⟩
  · exact congrArg Prod.snd hrun
  · exact congrArg Prod.snd hrun

/-- A copy goes to one of the candidates. -/
theorem writeCopy_eq_ok {copy : Copy}
    (h : Hub.exec C (writeCopy env path copy) db = (.ok q, db')) :
    ∃ n < 2 ^ 32, q = conflictName path env.today n := by
  unfold writeCopy at h
  obtain ⟨p, db₁, hname, hrest⟩ := Hub.exec_bind_eq_ok h
  obtain ⟨rev, db₂, -, hrest⟩ := Hub.exec_bind_eq_ok hrest
  obtain ⟨rev', db₃, -, hpure⟩ := Hub.exec_bind_eq_ok hrest
  obtain ⟨rfl, -⟩ := Hub.exec_pure_eq_ok hpure
  obtain ⟨n, hn, rfl⟩ := firstFree_eq_ok hname
  exact ⟨n, by omega, rfl⟩

/-- A copy is two writes to its document. -/
theorem log_writeCopy {copy : Copy}
    (h : Hub.exec C (writeCopy env path copy) db = (.ok q, db')) :
    db'.log = db.log ++ [q, q] := by
  unfold writeCopy at h
  obtain ⟨p, db₁, hname, hrest⟩ := Hub.exec_bind_eq_ok h
  obtain rfl : db = db₁ := by
    have hsame : (Hub.exec C (conflictCopyPath env path) db).2 = db := exec_conflictCopyPath_db
    rw [hname] at hsame
    exact hsame.symm
  obtain ⟨rev, db₂, hput, hrest⟩ := Hub.exec_bind_eq_ok hrest
  obtain ⟨rev', db₃, hattach, hpure⟩ := Hub.exec_bind_eq_ok hrest
  obtain ⟨rfl, rfl⟩ := Hub.exec_pure_eq_ok hpure
  have hbody : db₂.log = db.log ++ [p] := by
    have hrun := Hub.exec_adapt_eq_ok hput
    rw [CouchClient.exec_putDoc] at hrun
    simp only [Couch.answer] at hrun
    split at hrun
    · exact (congrArg Db.log (Prod.mk.inj hrun).2).symm
    · cases (Prod.mk.inj hrun).1
  obtain ⟨m, -, -, rfl⟩ := exec_putAttachment_eq_ok hattach
  rw [Db.write, hbody, List.append_assoc]
  rfl

/-- The documents some copies went to, in the order of the writes. -/
def writes (written : List Path) : List Path := written.flatMap fun q => [q, q]

/-- **However many copies there are**, and whether or not all find a name and
can be sent, no two are written to one document, and none to one that was
shown. Of the last one only the body may have been written. -/
theorem log_writeCopies (C : Couch) (env : HubEnv) (db : Db) (path : Path) (copies : List Copy) :
    ∃ (written : List Path) (half : Option Path) (db' : Db),
      (Hub.exec C (writeCopies env path copies) db).2 = db' ∧
      db'.log = db.log ++ writes written ++ half.toList ∧ (written ++ half.toList).Nodup ∧
      (∀ q ∈ written ++ half.toList, (db.docs q).visible = none) ∧
      ((Hub.exec C (writeCopies env path copies) db).1 = .ok written ∧ half = none ∧
          written.length = copies.length ∨
        ∃ e, (Hub.exec C (writeCopies env path copies) db).1 = .error e) := by
  induction copies generalizing db with
  | nil =>
    exact ⟨[], none, db, rfl, by simp [writes], List.nodup_nil, by simp, .inl ⟨rfl, rfl, rfl⟩⟩
  | cons copy copies ih =>
    unfold writeCopies
    -- by induction on the copies: once one fails no other is tried
    cases hsend : HeaderValue.accepts copy.contentType with
    | false =>
      obtain ⟨e, db', hrun, -, hwrote⟩ := exec_writeCopy_unsent C env db path copy hsend
      rw [Hub.exec_bind_of_error hrun]
      rcases hwrote with rfl | ⟨q, b, -, hnone, rfl⟩
      · exact ⟨[], none, db', rfl, by simp [writes], List.nodup_nil, by simp, .inr ⟨e, rfl⟩⟩
      · refine ⟨[], some q, db.write q b, rfl, by simp [writes, Db.write], by simp, ?_, .inr ⟨e, rfl⟩⟩
        simpa using hnone
    | true =>
      rcases exec_writeCopy_content C env db path copy hsend with
        ⟨q, db₁, hrun, hcopied, -⟩ | ⟨hrun, -⟩
      · obtain ⟨written, half, db', hdb, hlog, hnodup, hfree, hend⟩ := ih db₁
        have hapart : ∀ p ∈ written ++ half.toList, p ≠ q := by
          rintro p hp rfl
          exact hcopied.after (hfree p hp)
        rw [Hub.exec_bind_of_ok hrun]
        refine ⟨q :: written, half, db', ?_, ?_, ?_, ?_, ?_⟩
        · rcases hend with ⟨hok, -⟩ | ⟨e, herror⟩
          · rw [Hub.exec_bind_of_ok (Prod.ext hok hdb)]
            rfl
          · rw [Hub.exec_bind_of_error (Prod.ext herror hdb)]
        · rw [hlog, log_writeCopy hrun]
          simp [writes]
        · exact List.nodup_cons.2 ⟨fun hq => hapart q hq rfl, hnodup⟩
        · intro p hp
          rcases List.mem_cons.1 hp with rfl | hp
          · exact hcopied.before
          · rw [← hcopied.others p (hapart p hp)]
            exact hfree p hp
        · rcases hend with ⟨hok, hnone, hlen⟩ | ⟨e, herror⟩
          · refine .inl ⟨?_, hnone, by rw [List.length_cons, List.length_cons, hlen]⟩
            rw [Hub.exec_bind_of_ok (Prod.ext hok hdb)]
            rfl
          · rw [Hub.exec_bind_of_error (Prod.ext herror hdb)]
            exact .inr ⟨e, rfl⟩
      · rw [Hub.exec_bind_of_error hrun]
        exact ⟨[], none, db, rfl, by simp [writes], List.nodup_nil, by simp, .inr ⟨_, rfl⟩⟩

/-! ## The rest of the plan -/

/-- A request that writes to the path alone. -/
def AtPath (path : Path) ⦃β : Type⦄ : CouchReq β → Prop
  | .putDoc _ id _ _ => id = path
  | .putAttachment _ id _ _ => id = path
  | .deleteDoc _ id _ => id = path
  | .bulkDocs doc => doc.id = path
  | _ => True

/-- What such requests log is the path. -/
theorem log_of_atPath {ε α : Type} {x : Hub ε α} (hx : Fallible.All (AtPath path) x) :
    ∃ m, (Hub.exec C x db).2.log = db.log ++ List.replicate m path := by
  have hwrite : ∀ (db₁ : Db) (n : Node), (∃ m, db₁.log = db.log ++ List.replicate m path) →
      ∃ m, (db₁.write path n).log = db.log ++ List.replicate m path := by
    rintro db₁ n ⟨m, hm⟩
    refine ⟨m + 1, ?_⟩
    rw [Db.write, hm, List.append_assoc, List.replicate_succ']
  refine Prog.All.run_invariant (I := fun db₁ : Db => ∃ m, db₁.log = db.log ++ List.replicate m path)
    (fun β e he db₁ h => ?_) hx ⟨0, by simp⟩
  cases e with
  | getDoc | getDocAtRev | getAttachment | openRevs | changes => exact h
  | putDoc caller id rev body =>
    obtain rfl : id = path := he
    simp only [Couch.answer]
    split
    exacts [hwrite db₁ _ h, h]
  | putAttachment caller id rev a =>
    obtain rfl : id = path := he
    simp only [Couch.answer]
    split
    exacts [hwrite db₁ _ h, h]
  | deleteDoc caller id rev =>
    obtain rfl : id = path := he
    simp only [Couch.answer]
    split
    exacts [hwrite db₁ _ h, h]
  | bulkDocs doc =>
    obtain rfl : doc.id = path := he
    simp only [Couch.answer]
    split
    exacts [h, hwrite db₁ _ h]

theorem atPath_writeFinal (plan : Plan) : Fallible.All (AtPath path) (writeFinal path plan) := by
  unfold writeFinal
  split
  · exact Fallible.all_pure _
  · exact .bind (.adapt (all_call rfl _)) fun _ =>
      .bind (.adapt (CouchClient.all_putAttachment rfl)) fun _ => Fallible.all_pure _

theorem atPath_deleteLosers (revs : List Rev) :
    Fallible.All (AtPath path) (deleteLosers path revs) := by
  induction revs with
  | nil => exact Fallible.all_pure _
  | cons rev revs ih => exact .bind (.adapt (all_call rfl _)) fun _ => ih

/-- What writing a plan comes to, whichever way it ends: each of its copies
has a document of its own that was none before, also one whose content could
not be sent; and nothing else is written but the path. -/
structure OwnNames (C : Couch) (env : HubEnv) (path : Path) (plan : Plan) (db : Db)
    (written : List Path) (half : Option Path) (m : ℕ) : Prop where
  log : (Hub.exec C (applyPlan env path plan) db).2.log =
    db.log ++ writes written ++ half.toList ++ List.replicate m path
  nodup : (written ++ half.toList).Nodup
  free : ∀ q ∈ written ++ half.toList, (db.docs q).visible = none
  reported : ∀ r, (Hub.exec C (applyPlan env path plan) db).1 = .ok r →
    r = written ∧ half = none ∧ written.length = plan.copies.length

theorem exists_ownNames (C : Couch) (env : HubEnv) (path : Path) (plan : Plan) (db : Db) :
    ∃ written half m, OwnNames C env path plan db written half m := by
  obtain ⟨written, half, db₁, hdb, hlog, hnodup, hfree, ⟨hok, hnone, hlen⟩ | ⟨e, herror⟩⟩ :=
    log_writeCopies C env db path plan.copies
  · have hrun : Hub.exec C (applyPlan env path plan) db = Hub.exec C (do
        writeFinal path plan
        deleteLosers path plan.loserRevs
        return written) db₁ := by
      unfold applyPlan
      exact Hub.exec_bind_of_ok (Prod.ext hok hdb)
    have hrest : Fallible.All (AtPath path) (do
        writeFinal path plan
        deleteLosers path plan.loserRevs
        return written : Hub ResolveError (List Path)) :=
      .bind (atPath_writeFinal plan) fun _ =>
        .bind (atPath_deleteLosers _) fun _ => Fallible.all_pure _
    obtain ⟨m, hm⟩ : ∃ m, (Hub.exec C _ db₁).2.log = db₁.log ++ List.replicate m path :=
      log_of_atPath hrest
    refine ⟨written, half, m, ?_, hnodup, hfree, fun r hr => ⟨?_, hnone, hlen⟩⟩
    · rw [hrun, hm, hlog]
    · rw [hrun] at hr
      obtain ⟨_, db₂, -, hlosers⟩ := Hub.exec_bind_eq_ok (Prod.ext hr rfl)
      obtain ⟨_, db₃, -, hpure⟩ := Hub.exec_bind_eq_ok hlosers
      exact (Hub.exec_pure_eq_ok hpure).1.symm
  · have hrun : Hub.exec C (applyPlan env path plan) db = (.error e, db₁) := by
      unfold applyPlan
      exact Hub.exec_bind_of_error (Prod.ext herror hdb)
    refine ⟨written, half, 0, ?_, hnodup, hfree, fun r hr => ?_⟩
    · rw [hrun, hlog, List.replicate_zero, List.append_nil]
    · rw [hrun] at hr
      cases hr

/-! ## Names are fresh -/

/-- The names for a path's copies: all different, the search ends at the
first free one, and a plan's copies get one each. -/
structure FreshNames (C : Couch) (env : HubEnv) (path : Path) (db : Db) : Prop where
  found : ∃ n, Hub.exec C (conflictCopyPath env path) db =
    (.ok (conflictName path env.today n), db) ∧ FirstFree env path db n
  distinct : Function.Injective (conflictName path env.today)
  copies : ∀ plan, ∃ written half m, OwnNames C env path plan db written half m

/-- **The names of copies are fresh** in every database with fewer documents
than candidates. -/
theorem names_of_copies_fresh (C : Couch) (env : HubEnv) (path : Path) (db : Db) (h : Few db) :
    FreshNames C env path db :=
  ⟨exec_conflictCopyPath_of_few C h env path, conflictName_injective path env.today,
    fun plan => exists_ownNames C env path plan db⟩

/-- Two copies of `a.txt` were made the same day. -/
def twiceCopied : Db where
  docs p :=
    if p = "a.txt.conflict-01.01.2026" ∨ p = "a.txt.conflict-01.01.2026.0" then
      [⟨⟨1, "x"⟩, [], false, ⟨some p, some 1, none⟩, none⟩]
    else []
  log := []

/-- The first two names are taken then, and the third one is found. -/
theorem names_fresh_when_taken :
    (twiceCopied.docs (conflictName "a.txt" "01.01.2026" 0)).visible ≠ none ∧
      (twiceCopied.docs (conflictName "a.txt" "01.01.2026" 1)).visible ≠ none ∧
      FreshNames (.counting false) .plain "a.txt" twiceCopied := by
  refine ⟨by decide +kernel, by decide +kernel, names_of_copies_fresh _ _ _ _ ?_⟩
  have hsub : {p | (twiceCopied.docs p).visible ≠ none} ⊆
      {"a.txt.conflict-01.01.2026", "a.txt.conflict-01.01.2026.0"} := by
    intro p hp
    by_contra hnot
    have hdocs : twiceCopied.docs p = [] := if_neg hnot
    exact hp (by rw [hdocs]; rfl)
  have htwo : ({"a.txt.conflict-01.01.2026", "a.txt.conflict-01.01.2026.0"} : Set Path).encard = 2 :=
    Set.encard_pair (by decide)
  refine ((Set.encard_le_encard hsub).trans htwo.le).trans_lt ?_
  exact_mod_cast (by omega : 2 < 2 ^ 32)

end Resolver

end FileSync
