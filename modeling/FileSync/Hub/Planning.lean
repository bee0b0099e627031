import FileSync.Hub.Resolution
/-!
# Plans and the order of leaves

A plan is made from a list of leaves, and two hubs may list the same leaves
in two orders. Under a live winner the plan is the same: the winner is found
by its revision and the others are counted. Under a deleted one the last of
the latest edits and the last of the highest tombstones are taken, so the
plan is the same only where neither is tied in a way that shows.
-/

namespace FileSync

/-! ## The last greatest element -/

section MaxByKey

variable {α κ : Type} [LinearOrder κ] {key : α → κ} {l : List α} {a b : α}

open Resolver

theorem maxByKey_eq_none : maxByKey key l = none ↔ l = [] := by
  cases l with
  | nil => exact ⟨fun _ => rfl, fun _ => rfl⟩
  | cons a l => exact ⟨fun h => (by cases h), fun h => (by cases h)⟩

theorem foldl_greatest (l : List α) (a : α) :
    (l.foldl (fun best b => if key b < key best then best else b) a) ∈ a :: l ∧
      ∀ b ∈ a :: l, key b ≤ key (l.foldl (fun best b => if key b < key best then best else b) a) := by
  induction l generalizing a with
  | nil => exact ⟨List.mem_cons_self, fun b hb => by rw [List.mem_singleton.1 hb]; exact le_refl _⟩
  | cons c l ih =>
    rw [List.foldl_cons]
    split
    · rename_i hlt
      obtain ⟨hmem, hle⟩ := ih a
      refine ⟨?_, fun b hb => ?_⟩
      · rcases List.mem_cons.1 hmem with h | h
        · exact List.mem_cons.2 (.inl h)
        · exact List.mem_cons_of_mem _ (List.mem_cons_of_mem _ h)
      · rcases List.mem_cons.1 hb with rfl | hb
        · exact hle _ List.mem_cons_self
        rcases List.mem_cons.1 hb with rfl | hb
        · exact hlt.le.trans (hle _ List.mem_cons_self)
        · exact hle b (List.mem_cons_of_mem _ hb)
    · rename_i hlt
      obtain ⟨hmem, hle⟩ := ih c
      refine ⟨List.mem_cons_of_mem _ hmem, fun b hb => ?_⟩
      rcases List.mem_cons.1 hb with rfl | hb
      · exact (not_lt.1 hlt).trans (hle _ List.mem_cons_self)
      · exact hle b hb

theorem maxByKey_mem (h : maxByKey key l = some a) : a ∈ l := by
  cases l with
  | nil => cases h
  | cons c l =>
    obtain rfl := Option.some.inj h
    exact (foldl_greatest l c).1

theorem le_maxByKey (h : maxByKey key l = some a) (hb : b ∈ l) : key b ≤ key a := by
  cases l with
  | nil => cases h
  | cons c l =>
    obtain rfl := Option.some.inj h
    exact (foldl_greatest l c).2 b hb

/-- Of several greatest elements the last is taken. -/
theorem maxByKey_append (h : ∀ b ∈ l, key b ≤ key a) : maxByKey key (l ++ [a]) = some a := by
  cases l with
  | nil => rfl
  | cons c l =>
    rw [List.cons_append, maxByKey, List.foldl_append, List.foldl_cons, List.foldl_nil, if_neg]
    exact not_lt.2 (h _ (foldl_greatest l c).1)

end MaxByKey

/-! ## What a plan says -/

/-- Two plans come to the same: the same result on the same revision, the
same leaves to delete, and the same copies in some order. -/
structure Plan.Same (p q : Plan) : Prop where
  kind : p.kind = q.kind
  winnerRev : p.winnerRev = q.winnerRev
  finalContent : p.finalContent = q.finalContent
  finalMtime : p.finalMtime = q.finalMtime
  finalContentType : p.finalContentType = q.finalContentType
  copies : p.copies.Perm q.copies
  loserRevs : ∀ r, r ∈ p.loserRevs ↔ r ∈ q.loserRevs

namespace Resolver

variable {C : Couch} {env : HubEnv} {db : Db} {path : Path} {t : Tree}
variable {leaves l l' : List Leaf} {w : Leaf} {r : Rev}

/-! ## Under a live winner -/

/-- The other live leaves. -/
def rivals (leaves : List Leaf) (w : Leaf) : List Leaf :=
  (leaves.filter fun l => !l.deleted).filter fun l => l.rev ≠ w.rev

/-- The leaves to delete. -/
def losers (leaves : List Leaf) (w : Leaf) : List Rev :=
  (leaves.filter fun l => l.rev ≠ w.rev).map Leaf.rev

/-- What is planned for leaves of which a live one wins. -/
def planLive (env : HubEnv) (t : Tree) (leaves : List Leaf) (w : Leaf) : Plan :=
  match rivals leaves w with
  | [] => editWon w w.rev (losers leaves w)
  | [other] =>
    if leaves.length = 2 then editVsEdit env (mergeBaseIn t w other) w other (losers leaves w)
    else keepWinner leaves w (losers leaves w)
  | _ => keepWinner leaves w (losers leaves w)

theorem find?_rev_of_nodup (hnodup : (leaves.map Leaf.rev).Nodup) (hw : w ∈ leaves) :
    leaves.find? (fun l => decide (l.rev = w.rev)) = some w := by
  cases hf : leaves.find? (fun l => decide (l.rev = w.rev)) with
  | none =>
    have hne := List.find?_eq_none.1 hf w hw
    simp at hne
  | some v =>
    have hrev : v.rev = w.rev := by simpa using List.find?_some hf
    rw [List.inj_on_of_nodup_map hnodup (List.mem_of_find?_eq_some hf) hw hrev]

/-- A live winner is one of the live leaves, and the rest are its rivals. -/
theorem live_perm_cons (hnodup : (leaves.map Leaf.rev).Nodup) (hw : w ∈ leaves)
    (hlive : w.deleted = false) :
    (leaves.filter fun l => !l.deleted).Perm (w :: rivals leaves w) := by
  have hwlive : w ∈ leaves.filter fun l => !l.deleted := List.mem_filter.2 ⟨hw, by simp [hlive]⟩
  have hlnodup : (leaves.filter fun l => !l.deleted).Nodup := hnodup.of_map.filter _
  have herase : (leaves.filter fun l => !l.deleted).erase w = rivals leaves w := by
    rw [hlnodup.erase_eq_filter, rivals]
    refine List.filter_congr fun l hl => ?_
    have hiff : l ≠ w ↔ l.rev ≠ w.rev := by
      refine not_congr ⟨congrArg _, fun h => ?_⟩
      exact List.inj_on_of_nodup_map hnodup (List.mem_of_mem_filter hl) hw h
    rw [Bool.eq_iff_iff, bne_iff_ne, decide_eq_true_iff]
    exact hiff
  rw [← herase]
  exact List.perm_cons_erase hwlive

/-- **The plan under a live winner.** -/
theorem exec_planResolution_live (hnodup : (leaves.map Leaf.rev).Nodup) (hw : w ∈ leaves)
    (hlive : w.deleted = false) :
    Hub.exec C (planResolution env path leaves w.rev) db =
      (.ok (planLive env (db.docs path) leaves w), db) := by
  have hperm := live_perm_cons hnodup hw hlive
  have hlength := hperm.length_eq
  have hwinner : Hub.exec C (orMissingLeaf (leaves.find? fun l => decide (l.rev = w.rev))) db =
      (.ok w, db) := by
    rw [find?_rev_of_nodup hnodup hw]
    rfl
  have hother : (leaves.filter fun l => !l.deleted).find? (fun l => decide (l.rev ≠ w.rev)) =
      (rivals leaves w).head? := by
    rw [rivals, List.head?_filter]
  unfold planResolution
  rw [Hub.exec_bind_of_ok hwinner]
  dsimp only
  unfold planLive
  cases hr : rivals leaves w with
  | nil =>
    rw [hr] at hperm
    rw [List.perm_singleton.1 hperm, if_neg (by simp)]
    rfl
  | cons other rest =>
    rw [hr, List.length_cons, List.length_cons] at hlength
    cases rest with
    | nil =>
      rw [List.length_nil] at hlength
      dsimp only
      by_cases htwo : leaves.length = 2
      · have hsome : Hub.exec C (orMissingLeaf (some other)) db = (.ok other, db) := rfl
        rw [if_pos ⟨hlength, htwo⟩, if_pos htwo, hother, hr, List.head?_cons,
          Hub.exec_bind_of_ok hsome]
        exact exec_planEditVsEdit
      · rw [if_neg (fun h => htwo h.2), if_neg htwo]
        split
        · rename_i hone
          rw [hone] at hlength
          cases hlength
        · rfl
    | cons third rest =>
      rw [List.length_cons] at hlength
      rw [if_neg (fun h => by omega)]
      split
      · rename_i hone
        rw [hone, List.length_singleton] at hlength
        omega
      · rfl

/-- What every plan under a live winner does. -/
theorem planLive_revs (env : HubEnv) (t : Tree) (leaves : List Leaf) (w : Leaf)
    (hlive : w.deleted = false) :
    (planLive env t leaves w).winnerRev = w.rev ∧
      (planLive env t leaves w).loserRevs = losers leaves w ∧
      ∃ content, (planLive env t leaves w).finalContent = some content := by
  have hkeep : (keepWinner leaves w (losers leaves w)).finalContent = some w.content := by
    simp [keepWinner, hlive]
  unfold planLive
  split
  · exact ⟨rfl, rfl, _, rfl⟩
  · split
    · refine ⟨editVsEdit_revs.1, editVsEdit_revs.2, ?_⟩
      unfold editVsEdit keepNewer
      split
      · exact ⟨_, rfl⟩
      · exact ⟨_, rfl⟩
    · exact ⟨rfl, rfl, _, hkeep⟩
  · exact ⟨rfl, rfl, _, hkeep⟩

/-- Where a content goes under a plan: it is the result, an input of the clean
merge that is the result, or kept as a copy. -/
inductive Keeps (env : HubEnv) (t : Tree) (leaves : List Leaf) (w : Leaf) (plan : Plan)
    (bytes : Bytes) : Prop
  | result (h : plan.finalContent = some bytes)
  | merged (other : Leaf) (result : Bytes) (hother : rivals leaves w = [other])
      (hkind : plan.kind = .merged) (hmerge : Diff3.merge env.mergeStrings
        (mergeBaseIn t w other) w.content other.content = .ok result)
      (hresult : plan.finalContent = some result) (h : bytes = w.content ∨ bytes = other.content)
  | copy (copy : Copy) (hcopy : copy ∈ plan.copies) (h : copy.content = bytes)

theorem keeps_editVsEdit {other : Leaf} {revs : List Rev} {bytes : Bytes}
    (hother : rivals leaves w = [other]) (h : bytes = w.content ∨ bytes = other.content) :
    Keeps env t leaves w (editVsEdit env (mergeBaseIn t w other) w other revs) bytes := by
  unfold editVsEdit
  split
  · rename_i merged hmerge
    exact .merged other merged hother rfl hmerge rfl h
  · unfold keepNewer
    rcases h with rfl | rfl
    · by_cases hle : other.mtime ≤ w.mtime
      · rw [if_pos hle]
        exact .result rfl
      · rw [if_neg hle]
        exact .copy _ List.mem_cons_self rfl
    · by_cases hle : other.mtime ≤ w.mtime
      · rw [if_pos hle]
        exact .copy _ List.mem_cons_self rfl
      · rw [if_neg hle]
        exact .result rfl

theorem keeps_keepWinner {l : Leaf} (hw : w ∈ leaves) (hnodup : (leaves.map Leaf.rev).Nodup)
    (hlive : w.deleted = false) (hl : l ∈ leaves) (hld : l.deleted = false) :
    Keeps env t leaves w (keepWinner leaves w (losers leaves w)) l.content := by
  by_cases hrev : l.rev = w.rev
  · obtain rfl := List.inj_on_of_nodup_map hnodup hl hw hrev
    exact .result (by simp [keepWinner, hlive])
  · refine .copy ⟨l.content, l.mtime, l.contentType⟩ ?_ rfl
    simp only [keepWinner, hlive, Bool.not_false, if_true, Option.map_some, Option.getD_some]
    exact List.mem_map.2 ⟨l, List.mem_filter.2 ⟨hl, by simp [hld, hrev]⟩, rfl⟩

/-- **Nothing live is lost under a live winner.** -/
theorem keeps_planLive {l : Leaf} (hw : w ∈ leaves) (hnodup : (leaves.map Leaf.rev).Nodup)
    (hlive : w.deleted = false) (hl : l ∈ leaves) (hld : l.deleted = false) :
    Keeps env t leaves w (planLive env t leaves w) l.content := by
  have hmem : l = w ∨ l ∈ rivals leaves w := by
    have hlive' : l ∈ leaves.filter fun l => !l.deleted := List.mem_filter.2 ⟨hl, by simp [hld]⟩
    exact List.mem_cons.1 ((live_perm_cons hnodup hw hlive).mem_iff.1 hlive')
  unfold planLive
  cases hr : rivals leaves w with
  | nil =>
    rw [hr] at hmem
    obtain rfl := hmem.resolve_right List.not_mem_nil
    exact .result rfl
  | cons other rest =>
    cases rest with
    | nil =>
      rw [hr, List.mem_singleton] at hmem
      show Keeps env t leaves w (if leaves.length = 2 then _ else _) l.content
      by_cases htwo : leaves.length = 2
      · rw [if_pos htwo]
        exact keeps_editVsEdit hr (hmem.imp (congrArg _) (congrArg _))
      · rw [if_neg htwo]
        exact keeps_keepWinner hw hnodup hlive hl hld
    | cons third rest => exact keeps_keepWinner hw hnodup hlive hl hld

theorem rivals_perm (h : l.Perm l') (w : Leaf) : (rivals l w).Perm (rivals l' w) :=
  (h.filter _).filter _

theorem mem_losers_iff (h : l.Perm l') (w : Leaf) (r : Rev) : r ∈ losers l w ↔ r ∈ losers l' w :=
  ((h.filter _).map _).mem_iff

theorem keepWinner_same (h : l.Perm l') (hlive : w.deleted = false) :
    (keepWinner l w (losers l w)).Same (keepWinner l' w (losers l' w)) := by
  unfold keepWinner
  rw [hlive]
  exact ⟨rfl, rfl, rfl, rfl, rfl, (h.filter _).map _, mem_losers_iff h w⟩

theorem editVsEdit_same {base : Bytes} {other : Leaf} (h : l.Perm l') :
    (editVsEdit env base w other (losers l w)).Same
      (editVsEdit env base w other (losers l' w)) := by
  unfold editVsEdit keepNewer
  split
  · exact ⟨rfl, rfl, rfl, rfl, rfl, .refl _, mem_losers_iff h w⟩
  · exact ⟨rfl, rfl, rfl, rfl, rfl, .refl _, mem_losers_iff h w⟩

/-- **Under a live winner the order of the leaves does not matter.** -/
theorem planLive_same (h : l.Perm l') (hlive : w.deleted = false) :
    (planLive env t l w).Same (planLive env t l' w) := by
  have hrivals := rivals_perm h w
  unfold planLive
  cases hr : rivals l w with
  | nil =>
    rw [hr] at hrivals
    rw [List.nil_perm.1 hrivals]
    exact ⟨rfl, rfl, rfl, rfl, rfl, .refl _, mem_losers_iff h w⟩
  | cons other rest =>
    rw [hr] at hrivals
    cases rest with
    | nil =>
      rw [← List.singleton_perm.1 hrivals, ← h.length_eq]
      show Plan.Same (if l.length = 2 then _ else _) (if l.length = 2 then _ else _)
      by_cases htwo : l.length = 2
      · rw [if_pos htwo, if_pos htwo]
        exact editVsEdit_same h
      · rw [if_neg htwo, if_neg htwo]
        exact keepWinner_same h hlive
    | cons third rest =>
      have hlength := hrivals.length_eq
      match hr' : rivals l' w, hlength with
      | a :: b :: rest', _ => exact keepWinner_same h hlive

/-! ## Under a deleted winner -/

/-- The live leaves, and the tombstones. -/
def edits (leaves : List Leaf) : List Leaf := leaves.filter fun l => !l.deleted

def tombstones (leaves : List Leaf) : List Leaf := leaves.filter fun l => l.deleted

/-- No tie shows: one tombstone is the highest, and the latest edits have one
content and one content type. -/
structure Untied (leaves : List Leaf) : Prop where
  tombstone : ∀ a ∈ tombstones leaves, ∀ b ∈ tombstones leaves,
    (∀ c ∈ tombstones leaves, c.rev.gen ≤ a.rev.gen) →
      (∀ c ∈ tombstones leaves, c.rev.gen ≤ b.rev.gen) → a.rev = b.rev
  edit : ∀ a ∈ edits leaves, ∀ b ∈ edits leaves, (∀ c ∈ edits leaves, c.mtime ≤ a.mtime) →
    (∀ c ∈ edits leaves, c.mtime ≤ b.mtime) → a.content = b.content ∧ a.contentType = b.contentType

/-- What is planned is the plan, in any order of the leaves. -/
theorem planDeleteWinner_eq (leaves : List Leaf) : planDeleteWinner leaves =
    match maxByKey Leaf.mtime (edits leaves), maxByKey (fun l : Leaf => l.rev.gen) (tombstones leaves) with
    | some edit, some tombstone => some (editWon edit tombstone.rev (losers leaves tombstone))
    | _, _ => none := rfl

theorem losers_of_rev {a b : Leaf} (h : a.rev = b.rev) : losers leaves a = losers leaves b := by
  unfold losers
  rw [h]

/-- **Where no tie shows, the order of the leaves does not matter.** -/
theorem planDeleteWinner_same (h : Untied leaves) (hl : l.Perm leaves) (hl' : l'.Perm leaves) :
    Option.Rel Plan.Same (planDeleteWinner l) (planDeleteWinner l') := by
  have hedits : (edits l).Perm (edits l') := (hl.trans hl'.symm).filter _
  have htombs : (tombstones l).Perm (tombstones l') := (hl.trans hl'.symm).filter _
  have hedit : ∀ c, c ∈ edits leaves ↔ c ∈ edits l := fun c => (hl.symm.filter _).mem_iff
  have htomb : ∀ c, c ∈ tombstones leaves ↔ c ∈ tombstones l := fun c => (hl.symm.filter _).mem_iff
  rw [planDeleteWinner_eq, planDeleteWinner_eq]
  -- both orders have edits and tombstones, or neither has
  cases he : maxByKey Leaf.mtime (edits l) with
  | none =>
    rw [maxByKey_eq_none] at he
    rw [he, List.nil_perm] at hedits
    rw [maxByKey_eq_none.2 hedits]
    exact .none
  | some e =>
    cases he' : maxByKey Leaf.mtime (edits l') with
    | none =>
      rw [maxByKey_eq_none.1 he', List.perm_nil] at hedits
      rw [maxByKey_eq_none.2 hedits] at he
      cases he
    | some e' =>
      cases ht : maxByKey (fun l : Leaf => l.rev.gen) (tombstones l) with
      | none =>
        rw [maxByKey_eq_none] at ht
        rw [ht, List.nil_perm] at htombs
        rw [maxByKey_eq_none.2 htombs]
        exact .none
      | some a =>
        cases ht' : maxByKey (fun l : Leaf => l.rev.gen) (tombstones l') with
        | none =>
          rw [maxByKey_eq_none.1 ht', List.perm_nil] at htombs
          rw [maxByKey_eq_none.2 htombs] at ht
          cases ht
        | some b =>
          have hmem : e ∈ edits l ∧ e' ∈ edits l :=
            ⟨maxByKey_mem he, hedits.mem_iff.2 (maxByKey_mem he')⟩
          have hmax : ∀ c ∈ edits l, c.mtime ≤ e.mtime := fun c hc => le_maxByKey he hc
          have hmax' : ∀ c ∈ edits l, c.mtime ≤ e'.mtime := fun c hc =>
            le_maxByKey he' (hedits.mem_iff.1 hc)
          obtain ⟨hcontent, htype⟩ := h.edit e ((hedit e).2 hmem.1) e' ((hedit e').2 hmem.2)
            (fun c hc => hmax c ((hedit c).1 hc)) (fun c hc => hmax' c ((hedit c).1 hc))
          have hrev : a.rev = b.rev := by
            have hle := fun c (hc : c ∈ tombstones l) => le_maxByKey ht hc
            have hle' := fun c (hc : c ∈ tombstones l) => le_maxByKey ht' (htombs.mem_iff.1 hc)
            exact h.tombstone a ((htomb a).2 (maxByKey_mem ht)) b
              ((htomb b).2 (htombs.mem_iff.2 (maxByKey_mem ht')))
              (fun c hc => hle c ((htomb c).1 hc)) fun c hc => hle' c ((htomb c).1 hc)
          refine .some ⟨rfl, hrev, congrArg some hcontent, ?_, htype, .refl _, fun r => ?_⟩
          · exact le_antisymm (hmax' e hmem.1) (hmax e' hmem.2)
          · show r ∈ losers l a ↔ r ∈ losers l' b
            rw [losers_of_rev hrev]
            exact mem_losers_iff (hl.trans hl'.symm) b r

/-- A leaf can be listed last. -/
theorem exists_perm_last {a : Leaf} (h : a ∈ leaves) : ∃ rest, (rest ++ [a]).Perm leaves :=
  ⟨leaves.erase a, List.perm_append_singleton .. |>.trans (List.perm_cons_erase h).symm⟩

/-- The plan's tombstone can be any of the highest. -/
theorem exists_plan_on {a : Leaf} (ha : a ∈ tombstones leaves)
    (hmax : ∀ c ∈ tombstones leaves, c.rev.gen ≤ a.rev.gen) (hne : edits leaves ≠ []) :
    ∃ l p, l.Perm leaves ∧ planDeleteWinner l = some p ∧ p.winnerRev = a.rev := by
  obtain ⟨hmem, hdel⟩ := List.mem_filter.1 ha
  obtain ⟨rest, hperm⟩ := exists_perm_last hmem
  have htombs : tombstones (rest ++ [a]) = tombstones rest ++ [a] := by
    rw [tombstones, List.filter_append, List.filter_cons_of_pos hdel]
    rfl
  have hedits : (edits (rest ++ [a])).Perm (edits leaves) := hperm.filter _
  have hlast : maxByKey (fun l : Leaf => l.rev.gen) (tombstones (rest ++ [a])) = some a := by
    rw [htombs]
    refine maxByKey_append fun c hc => hmax c ((hperm.filter _).mem_iff.1 ?_)
    show c ∈ tombstones (rest ++ [a])
    exact htombs ▸ List.mem_append_left _ hc
  cases he : maxByKey Leaf.mtime (edits (rest ++ [a])) with
  | none =>
    rw [maxByKey_eq_none.1 he, List.nil_perm] at hedits
    exact absurd hedits hne
  | some e =>
    refine ⟨_, editWon e a.rev (losers (rest ++ [a]) a), hperm, ?_, rfl⟩
    rw [planDeleteWinner_eq, he, hlast]

/-- The plan's edit can be any of the latest. -/
theorem exists_plan_of {a : Leaf} (ha : a ∈ edits leaves)
    (hmax : ∀ c ∈ edits leaves, c.mtime ≤ a.mtime) (hne : tombstones leaves ≠ []) :
    ∃ l p, l.Perm leaves ∧ planDeleteWinner l = some p ∧ p.finalContent = some a.content ∧
      p.finalContentType = a.contentType := by
  obtain ⟨hmem, hlive⟩ := List.mem_filter.1 ha
  obtain ⟨rest, hperm⟩ := exists_perm_last hmem
  have hedits : edits (rest ++ [a]) = edits rest ++ [a] := by
    have hone : [a].filter (fun l => !l.deleted) = [a] := by simpa using hlive
    rw [edits, List.filter_append, hone]
    rfl
  have htombs : (tombstones (rest ++ [a])).Perm (tombstones leaves) := hperm.filter _
  have hlast : maxByKey Leaf.mtime (edits (rest ++ [a])) = some a := by
    rw [hedits]
    refine maxByKey_append fun c hc => hmax c ((hperm.filter _).mem_iff.1 ?_)
    show c ∈ edits (rest ++ [a])
    exact hedits ▸ List.mem_append_left _ hc
  cases ht : maxByKey (fun l : Leaf => l.rev.gen) (tombstones (rest ++ [a])) with
  | none =>
    rw [maxByKey_eq_none.1 ht, List.nil_perm] at htombs
    exact absurd htombs hne
  | some b =>
    refine ⟨_, editWon a b.rev (losers (rest ++ [a]) b), hperm, ?_, rfl, rfl⟩
    rw [planDeleteWinner_eq, hlast, ht]

/-- The plans for a set of leaves come to the same whatever order they are
listed in: under a live winner, and under a deleted one. -/
structure OrderFree (env : HubEnv) (path : Path) (leaves : List Leaf) : Prop where
  live : ∀ (C : Couch) (db : Db), ∀ w ∈ leaves, w.deleted = false → ∀ l l' : List Leaf,
    l.Perm leaves → l'.Perm leaves → ∃ p p',
      (Hub.exec C (planResolution env path l w.rev) db).1 = .ok p ∧
        (Hub.exec C (planResolution env path l' w.rev) db).1 = .ok p' ∧ p.Same p'
  deleted : ∀ l l' : List Leaf, l.Perm leaves → l'.Perm leaves →
    Option.Rel Plan.Same (planDeleteWinner l) (planDeleteWinner l')

/-- **Plans do not depend on the order of leaves exactly where no tie
shows**: with both edits and tombstones among the leaves, one tombstone must
be the highest, and the latest edits agree in content and content type. -/
theorem orderFree_iff (env : HubEnv) (path : Path) (leaves : List Leaf)
    (hnodup : (leaves.map Leaf.rev).Nodup) :
    OrderFree env path leaves ↔ edits leaves = [] ∨ tombstones leaves = [] ∨ Untied leaves := by
  -- among leaves that are tied the last listed is picked, so each of them is in some order
  constructor
  · intro h
    by_cases hedits : edits leaves = []
    · exact .inl hedits
    by_cases htombs : tombstones leaves = []
    · exact .inr (.inl htombs)
    refine .inr (.inr ⟨fun a ha b hb hmaxa hmaxb => ?_, fun a ha b hb hmaxa hmaxb => ?_⟩)
    · obtain ⟨l, p, hl, hp, hrev⟩ := exists_plan_on ha hmaxa hedits
      obtain ⟨l', p', hl', hp', hrev'⟩ := exists_plan_on hb hmaxb hedits
      have hrel := h.deleted l l' hl hl'
      rw [hp, hp'] at hrel
      obtain ⟨hsame⟩ := hrel
      rw [← hrev, ← hrev', hsame.winnerRev]
    · obtain ⟨l, p, hl, hp, hcontent, htype⟩ := exists_plan_of ha hmaxa htombs
      obtain ⟨l', p', hl', hp', hcontent', htype'⟩ := exists_plan_of hb hmaxb htombs
      have hrel := h.deleted l l' hl hl'
      rw [hp, hp'] at hrel
      obtain ⟨hsame⟩ := hrel
      have heq := hsame.finalContent
      rw [hcontent, hcontent'] at heq
      exact ⟨Option.some.inj heq, by rw [← htype, ← htype', hsame.finalContentType]⟩
  · intro h
    refine ⟨fun C db w hw hlive l l' hl hl' => ?_, fun l l' hl hl' => ?_⟩
    · have hplan : ∀ l : List Leaf, l.Perm leaves →
          (Hub.exec C (planResolution env path l w.rev) db).1 =
            .ok (planLive env (db.docs path) l w) := fun l hl =>
        congrArg Prod.fst (exec_planResolution_live ((hl.map _).nodup_iff.2 hnodup)
          (hl.mem_iff.2 hw) hlive)
      exact ⟨_, _, hplan l hl, hplan l' hl', planLive_same (hl.trans hl'.symm) hlive⟩
    · have hnone : ∀ l : List Leaf, l.Perm leaves → edits leaves = [] ∨ tombstones leaves = [] →
          planDeleteWinner l = none := by
        intro l hl hempty
        rw [planDeleteWinner_eq]
        rcases hempty with hedits | htombs
        · have hperm : (edits l).Perm (edits leaves) := hl.filter _
          rw [hedits, List.perm_nil] at hperm
          rw [maxByKey_eq_none.2 hperm]
        · have hperm : (tombstones l).Perm (tombstones leaves) := hl.filter _
          rw [htombs, List.perm_nil] at hperm
          rw [maxByKey_eq_none.2 hperm]
          cases maxByKey Leaf.mtime (edits l) <;> rfl
      rcases h with hedits | htombs | huntied
      · rw [hnone l hl (.inl hedits), hnone l' hl' (.inl hedits)]
        exact .none
      · rw [hnone l hl (.inr htombs), hnone l' hl' (.inr htombs)]
        exact .none
      · exact planDeleteWinner_same huntied hl hl'

/-! ## Two edits of one second -/

def deletedLeaf : Leaf := ⟨⟨2, "t"⟩, true, 0, octetStream, [], none⟩

/-- Saved in the same second as every other of these. -/
def editLeaf (hash : String) (content : Bytes) : Leaf :=
  ⟨⟨1, hash⟩, false, 5, octetStream, content, none⟩

/-- **Two edits of one second under a tombstone are resolved to the one that
is listed last.** -/
theorem tied_edits_not_orderFree :
    ¬ OrderFree .plain "a.txt"
      [deletedLeaf, editLeaf "a" [1], editLeaf "b" [2]] := by
  intro h
  have hsame := h.deleted [deletedLeaf, editLeaf "a" [1], editLeaf "b" [2]]
    [deletedLeaf, editLeaf "b" [2], editLeaf "a" [1]] (.refl _) (.cons _ (.swap _ _ _))
  have hplan : planDeleteWinner [deletedLeaf, editLeaf "a" [1], editLeaf "b" [2]] =
    some (editWon (editLeaf "b" [2]) ⟨2, "t"⟩ [⟨1, "a"⟩, ⟨1, "b"⟩]) := by decide
  have hplan' : planDeleteWinner [deletedLeaf, editLeaf "b" [2], editLeaf "a" [1]] =
    some (editWon (editLeaf "a" [1]) ⟨2, "t"⟩ [⟨1, "b"⟩, ⟨1, "a"⟩]) := by decide
  rw [hplan, hplan'] at hsame
  obtain ⟨hsame⟩ := hsame
  exact absurd hsame.finalContent (by decide)

/-- The same content twice is no tie that shows. -/
theorem same_edits_orderFree :
    OrderFree .plain "a.txt"
      [deletedLeaf, editLeaf "a" [1], editLeaf "b" [1]] := by
  refine (orderFree_iff _ _ _ (by decide)).2 (.inr (.inr ⟨?_, ?_⟩))
  · decide
  · decide

end Resolver

end FileSync
