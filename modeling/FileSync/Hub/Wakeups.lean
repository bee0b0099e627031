import FileSync.Common.Refinement
import FileSync.Hub.Updates
import FileSync.Hub.Watched
import FileSync.Model.Wakeups
/-!
# What the devices are woken for

From the first place it has moved on to, the watcher moves past an update of a
user's path once a wakeup has been asked for after it, and asks for one only
where there is such an update it has not moved past. The wakeups are beside
the rest of what it does, which is as it would be without them.
-/

namespace FileSync

open Routes (isSystemId)
open Watched (Written)

/-! ## Updates of users' paths -/

/-- How many of a list of paths are users'. -/
def news (log : List Path) : ℕ := log.countP fun p => !isSystemId p

/-- How many of the updates from `a` on and before `b` are of users' paths. -/
def newsBetween (log : List Path) (a b : ℕ) : ℕ := news ((log.drop a).take (b - a))

section News

variable {log log' : List Path} {a b c j : ℕ} {p : Path}

theorem newsBetween_add (hab : a ≤ b) (hbc : b ≤ c) :
    newsBetween log a c = newsBetween log a b + newsBetween log b c := by
  have hsplit : c - a = (b - a) + (c - b) := by omega
  rw [newsBetween, hsplit, List.take_add, List.drop_drop, news, List.countP_append,
    Nat.add_sub_cancel' hab]
  rfl

theorem newsBetween_mono (hab : a ≤ b) (hbc : b ≤ c) : newsBetween log a b ≤ newsBetween log a c := by
  rw [newsBetween_add hab hbc]
  omega

theorem newsBetween_pos (haj : a ≤ j) (hjb : j < b) (hj : log[j]? = some p)
    (hp : isSystemId p = false) : 0 < newsBetween log a b := by
  refine List.countP_pos_iff.2 ⟨p, ?_, by rw [hp]; rfl⟩
  refine List.mem_iff_getElem?.2 ⟨j - a, ?_⟩
  rw [List.getElem?_take_of_lt (by omega), List.getElem?_drop, Nat.add_sub_cancel' haj]
  exact hj

theorem newsBetween_of_grown (h : log <+: log') (hb : b ≤ log.length) :
    newsBetween log' a b = newsBetween log a b := by
  obtain ⟨more, rfl⟩ := h
  by_cases hab : a ≤ b
  · rw [newsBetween, List.drop_append_of_le_length (hab.trans hb),
      List.take_append_of_le_length (by rw [List.length_drop]; omega)]
    rfl
  · have hnone : b - a = 0 := by omega
    rw [newsBetween, newsBetween, hnone, List.take_zero, List.take_zero]

theorem newsBetween_length : newsBetween log a log.length = news (log.drop a) := by
  rw [newsBetween, ← List.length_drop, List.take_length]

theorem getElem?_of_grown (h : log <+: log') (hj : j < log.length) : log'[j]? = log[j]? := by
  obtain ⟨more, rfl⟩ := h
  exact List.getElem?_append_left hj

end News

namespace Waking

/-- The watcher's requests and its wakeups fare as they may, and between them
anything is written. -/
def semantics (C : Couch) : Semantics Unit WakingReq WakingFate Written Waking where
  exec _ _ e o s := exec C e o s
  env a s := { s with watched := { s.watched with db := s.watched.db.write a.path a.node } }

/-- What is written has a revision number. -/
def condition : StepCond Unit WakingReq WakingFate Written Waking where
  call _ _ _ _ _ := True
  env a _ := 0 < a.node.rev.gen

/-- The watcher as a process that has just started. -/
def start (env : HubEnv) (fcm : Option FcmClient) (tokens : List String) (rounds : ℕ) (db : Db) :
    Config Unit WakingReq Unit Waking :=
  ⟨fun _ => Watcher.wakingWatcher env fcm tokens rounds none, ⟨⟨db, none⟩, [], []⟩⟩

variable {C : Couch} {env : HubEnv} {fcm : FcmClient} {tokens : List String} {s s' : Waking}
  {first : ℕ} {since : Option Checkpoint} {resp : WatchedChanges}

/-- The log of updates. -/
abbrev log (s : Waking) : List Path := s.watched.db.log

/-- The place the watcher is at; `first` is where the log ended when it
started. -/
def place (first : ℕ) (s : Waking) : ℕ := s.moved.head?.getD first

/-- After every update of a user's path from `a` on and before `b`, a wakeup
was asked for. -/
def Told (s : Waking) (a b : ℕ) : Prop :=
  ∀ j p, a ≤ j → j < b → s.log[j]? = some p → isSystemId p = false → ∃ w ∈ s.wakeups, j < w.after

/-- The wakeup is for all the devices. -/
structure IsFor (fcm : FcmClient) (tokens : List String) (w : Wakeup) : Prop where
  endpoint : w.endpoint = fcm.endpoint
  authorization : w.authorization = fcm.authorization
  message : w.message = FcmClient.message tokens

/-- The invariant. -/
structure Sound (fcm : FcmClient) (tokens : List String) (first : ℕ) (s : Waking) :
    Prop where
  numbered : s.watched.db.Numbered
  moved : ∀ k ∈ s.moved, first ≤ k ∧ k ≤ s.place first
  first_le : first ≤ s.place first
  le_latest : s.place first ≤ s.latest
  told : ∀ k ∈ s.moved, s.Told k (s.place first)
  few : s.wakeups.length ≤ newsBetween s.log first s.latest
  sent : ∀ w ∈ s.wakeups, IsFor fcm tokens w

/-- What a step of anybody else leaves. -/
structure Beside (s s' : Waking) : Prop where
  moved : s'.moved = s.moved
  wakeups : s'.wakeups = s.wakeups
  log : s.log <+: s'.log
  numbered : s.watched.db.Numbered → s'.watched.db.Numbered

theorem Beside.refl (s : Waking) : Beside s s := ⟨rfl, rfl, List.prefix_rfl, fun h => h⟩

namespace Beside

variable (h : Beside s s')

include h

theorem latest_le : s.latest ≤ s'.latest := h.log.length_le

theorem place_eq : s'.place first = s.place first := by rw [place, place, h.moved]

theorem told {a b : ℕ} (hb : b ≤ s.latest) (ht : s.Told a b) : s'.Told a b := by
  intro j p haj hjb hj hp
  rw [getElem?_of_grown h.log (hjb.trans_le hb)] at hj
  rw [h.wakeups]
  exact ht j p haj hjb hj hp

theorem news_eq {a b : ℕ} (hb : b ≤ s.latest) :
    newsBetween s'.log a b = newsBetween s.log a b :=
  newsBetween_of_grown h.log hb

theorem sound (hs : Sound fcm tokens first s) : Sound fcm tokens first s' := by
  refine ⟨h.numbered hs.numbered, ?_, ?_, ?_, ?_, ?_, ?_⟩
  · rw [h.moved, h.place_eq]
    exact hs.moved
  · rw [h.place_eq]
    exact hs.first_le
  · rw [h.place_eq]
    exact hs.le_latest.trans h.latest_le
  · rw [h.moved, h.place_eq]
    exact fun k hk => h.told hs.le_latest (hs.told k hk)
  · have hfirst : first ≤ s.latest := hs.first_le.trans hs.le_latest
    have hmore : newsBetween s'.log first s.latest ≤ newsBetween s'.log first s'.latest :=
      newsBetween_mono hfirst h.latest_le
    have hfew := hs.few
    rw [h.wakeups]
    rw [h.news_eq (le_refl _)] at hmore
    omega
  · rw [h.wakeups]
    exact hs.sent

end Beside

/-! ## What the watcher does besides -/

/-- The watcher notes that it could not resolve a conflict. -/
def Notes ⦃β : Type⦄ : WatcherReq β → Prop
  | .resolutionFailed .. => True
  | _ => False

/-- A request that is made while a feed is gone through. -/
def Resolves ⦃β : Type⦄ : WatchReq β → Prop
  | .inl e => Notes e
  | .inr e => e.Numbered

theorem all_handleRows (k : Checkpoint) (rows : List WatchedRow) :
    (Watcher.handleRows env k rows).All Resolves := by
  have hresolver : ResolverCalls fun _ e => e.Numbered := CouchReq.numbered_calls.toResolverCalls
  induction rows with
  | nil => trivial
  | cons row rows ih =>
    refine Prog.All.bind ?_ fun _ => ih
    unfold Watcher.handleRow
    split
    · trivial
    split
    · trivial
    refine Prog.All.bind (Prog.All.expand (fun β e he => ⟨he, fun _ => trivial⟩)
      (Resolver.all_resolve hresolver)) fun r => ?_
    cases r with
    | ok _ => trivial
    | error e => exact ⟨trivial, fun _ => trivial⟩

/-- Such a request is anybody's step, whatever becomes of it. -/
theorem beside_exec {β : Type} {e : WatchReq β} (he : Resolves e) (o : WakingFate) (s : Waking) :
    Beside s (exec C (.inr e) o s).2 := by
  cases e with
  | inl e =>
    cases e with
    | resolutionFailed path error lastSeq => exact .refl s
    | changesWithDocs since => exact he.elim
    | setSince since => exact he.elim
  | inr e =>
    have hanswer : Beside s { s with watched := { s.watched with db :=
        (C.answer e s.watched.db).2 } } :=
      ⟨rfl, rfl, (Watched.others_answer e s.watched).log, Db.numbered_answer C he⟩
    obtain ⟨delivery, fcm⟩ := o
    cases delivery
    exacts [hanswer, .refl s, hanswer]

/-- The others step, and the watcher keeps the invariant. -/
def contract (fcm : FcmClient) (tokens : List String) (first : ℕ) : Contract Unit Waking :=
  ⟨fun _ => Beside, fun _ s s' => Sound fcm tokens first s → Sound fcm tokens first s'⟩

theorem beside_write {a : Written} (ha : 0 < a.node.rev.gen) (s : Waking) :
    Beside s ((semantics C).env a s) :=
  ⟨rfl, rfl, List.prefix_append _ _, fun h => h.write ha⟩

theorem fits : (contract fcm tokens first).Fits (semantics C) condition :=
  ⟨fun _ _ hne => absurd rfl hne, fun _ _ s ha => beside_write ha s⟩

/-- A program of the watcher, from `P` to `Q`. -/
abbrev WakingDoes (C : Couch) (fcm : FcmClient) (tokens : List String) (first : ℕ) {α : Type}
    (P : Waking → Prop) (x : Prog WakingReq α) (Q : α → Waking → Prop) : Prop :=
  Triple (semantics C) condition (contract fcm tokens first) () P x Q

/-- **A feed is gone through** as anybody's steps. -/
theorem does_handleRows {P : Waking → Prop} (hP : (contract fcm tokens first).Stable () P)
    (k : Checkpoint) (rows : List WatchedRow) :
    WakingDoes C fcm tokens first P (Watcher.watching (Watcher.handleRows env k rows))
      fun _ => P := by
  refine Triple.of_all (φ := fun _ e => ∃ e', e = .inr e' ∧ Resolves e') hP ?_
    (Prog.All.expand (fun β e he => ⟨⟨e, rfl, he⟩, fun _ => trivial⟩) (all_handleRows k rows))
  rintro β _ ⟨e, rfl, he⟩ o s hs -
  have hbeside : Beside s (exec C (.inr e) o s).2 := beside_exec he o s
  exact ⟨hbeside.sound, hP hs hbeside⟩

/-! ## A round -/

/-- The watcher is at the place, with no more wakeups than news before it. -/
structure At (fcm : FcmClient) (tokens : List String) (first : ℕ) (since : Option Checkpoint)
    (s : Waking) : Prop where
  sound : Sound fcm tokens first s
  moved_eq : s.moved.head? = since
  few : s.wakeups.length ≤ newsBetween s.log first (s.place first)

/-- The feed of a poll is what is new between the place and its end; there is
none before the first poll. -/
structure Fed (fcm : FcmClient) (tokens : List String) (first : ℕ) (since : Option Checkpoint)
    (resp : WatchedChanges) (s : Waking) : Prop where
  start : At fcm tokens first since s
  place_le : s.place first ≤ resp.lastSeq
  le_latest : resp.lastSeq ≤ s.latest
  listed : since.isSome = true → 0 < newsBetween s.log (s.place first) resp.lastSeq →
    Watcher.changedPaths resp ≠ []
  fresh : Watcher.changedPaths resp ≠ [] → 0 < newsBetween s.log (s.place first) resp.lastSeq

/-- The wakeup for a feed has been asked for, if it is to be. -/
structure Woken (fcm : FcmClient) (tokens : List String) (first : ℕ) (since : Option Checkpoint)
    (resp : WatchedChanges) (s : Waking) : Prop where
  sound : Sound fcm tokens first s
  moved_eq : s.moved.head? = since
  place_le : s.place first ≤ resp.lastSeq
  le_latest : resp.lastSeq ≤ s.latest
  told : since.isSome = true → s.Told (s.place first) resp.lastSeq
  few : s.wakeups.length ≤ newsBetween s.log first resp.lastSeq

theorem stable_at : (contract fcm tokens first).Stable () (At fcm tokens first since) := by
  intro s s' h (ho : Beside s s')
  refine ⟨ho.sound h.sound, by rw [ho.moved, h.moved_eq], ?_⟩
  rw [ho.wakeups, ho.place_eq, ho.news_eq h.sound.le_latest]
  exact h.few

theorem stable_fed : (contract fcm tokens first).Stable () (Fed fcm tokens first since resp) := by
  intro s s' h (ho : Beside s s')
  refine ⟨stable_at h.start ho, ?_, h.le_latest.trans ho.latest_le, ?_, ?_⟩
  · rw [ho.place_eq]
    exact h.place_le
  · rw [ho.place_eq, ho.news_eq h.le_latest]
    exact h.listed
  · rw [ho.place_eq, ho.news_eq h.le_latest]
    exact h.fresh

theorem stable_woken :
    (contract fcm tokens first).Stable () (Woken fcm tokens first since resp) := by
  intro s s' h (ho : Beside s s')
  refine ⟨ho.sound h.sound, by rw [ho.moved, h.moved_eq], ?_, h.le_latest.trans ho.latest_le,
    ?_, ?_⟩
  · rw [ho.place_eq]
    exact h.place_le
  · rw [ho.place_eq]
    exact fun hsince => ho.told h.le_latest (h.told hsince)
  · rw [ho.wakeups, ho.news_eq h.le_latest]
    exact h.few

theorem mem_changedPaths {db : Db} (hdb : db.Numbered) {k : Checkpoint} {p : Path} :
    p ∈ Watcher.changedPaths (Couch.watchedSince db (some k)) ↔
      p ∈ db.log.drop k ∧ isSystemId p = false := by
  unfold Watcher.changedPaths Couch.watchedSince
  simp only [List.mem_map, List.mem_filter, List.mem_filterMap, List.mem_dedup]
  constructor
  · rintro ⟨row, ⟨⟨q, hq, hrow⟩, huser⟩, rfl⟩
    obtain ⟨w, -, rfl⟩ := Option.map_eq_some_iff.1 hrow
    exact ⟨hq, by simpa using huser⟩
  · rintro ⟨hp, huser⟩
    -- what is in the log is a document, and that has a winner
    obtain ⟨w, hw⟩ := Tree.exists_winner (hdb.pos p) (hdb.logged p (List.mem_of_mem_drop hp))
    exact ⟨⟨p, (db.docs p).conflicts⟩, ⟨⟨p, hp, by rw [hw]; rfl⟩, by simp [huser]⟩, rfl⟩

/-- **A feed lists a user's path** if one was updated. -/
theorem changedPaths_ne_nil {db : Db} (hdb : db.Numbered) (k : Checkpoint) :
    Watcher.changedPaths (Couch.watchedSince db (some k)) ≠ [] ↔
      0 < newsBetween db.log k db.log.length := by
  rw [newsBetween_length, news, List.countP_pos_iff]
  constructor
  · intro h
    obtain ⟨p, hp⟩ := List.exists_mem_of_ne_nil _ h
    obtain ⟨hlater, huser⟩ := (mem_changedPaths hdb).1 hp
    exact ⟨p, hlater, by simp [huser]⟩
  · rintro ⟨p, hlater, huser⟩
    exact List.ne_nil_of_mem ((mem_changedPaths hdb).2 ⟨hlater, by simpa using huser⟩)

theorem changedPaths_now (db : Db) : Watcher.changedPaths (Couch.watchedSince db none) = [] := by
  simp [Watcher.changedPaths, Couch.watchedSince]

theorem place_of_moved {k : Checkpoint} (h : s.moved.head? = some k) : s.place first = k := by
  rw [place, h]
  rfl

/-- **A poll.** -/
theorem fed_of_at (h : At fcm tokens first since s) :
    Fed fcm tokens first since (Couch.watchedSince s.watched.db since) s := by
  refine ⟨h, h.sound.le_latest, le_refl _, ?_, ?_⟩
  · intro hsince hnews
    obtain ⟨k, rfl⟩ := Option.isSome_iff_exists.1 hsince
    rw [place_of_moved h.moved_eq] at hnews
    exact (changedPaths_ne_nil h.sound.numbered k).2 hnews
  · intro hpaths
    cases since with
    | none => exact absurd (changedPaths_now _) hpaths
    | some k =>
      rw [place_of_moved h.moved_eq]
      exact (changedPaths_ne_nil h.sound.numbered k).1 hpaths

/-- **No wakeup** is due. -/
theorem Fed.woken_of_nil (h : Fed fcm tokens first since resp s)
    (hpaths : Watcher.changedPaths resp = []) : Woken fcm tokens first since resp s := by
  refine ⟨h.start.sound, h.start.moved_eq, h.place_le, h.le_latest, ?_, ?_⟩
  · intro hsince j p hj hj' hp huser
    exact absurd hpaths (h.listed hsince (newsBetween_pos hj hj' hp huser))
  · exact h.start.few.trans (newsBetween_mono h.start.sound.first_le h.place_le)

/-- **A wakeup** is asked for. -/
theorem Fed.woken_of_post (h : Fed fcm tokens first since resp s)
    (hpaths : Watcher.changedPaths resp ≠ []) {w : Wakeup} (hw : IsFor fcm tokens w)
    (hafter : w.after = s.latest) :
    Woken fcm tokens first since resp { s with wakeups := w :: s.wakeups } := by
  have hs := h.start.sound
  have hfew := h.start.few
  have hnews := h.fresh hpaths
  have hadd : newsBetween s.log first resp.lastSeq = newsBetween s.log first (s.place first) +
      newsBetween s.log (s.place first) resp.lastSeq := newsBetween_add hs.first_le h.place_le
  have hmono : newsBetween s.log first resp.lastSeq ≤ newsBetween s.log first s.latest :=
    newsBetween_mono (hs.first_le.trans h.place_le) h.le_latest
  -- there is something new in the feed, which this wakeup is counted against
  have hmore : (w :: s.wakeups).length ≤ newsBetween s.log first resp.lastSeq := by
    rw [List.length_cons]
    omega
  refine ⟨⟨hs.numbered, hs.moved, hs.first_le, hs.le_latest, ?_, hmore.trans hmono, ?_⟩,
    h.start.moved_eq, h.place_le, h.le_latest, ?_, hmore⟩
  · intro k hk j p hj hj' hp huser
    obtain ⟨w', hw', hlater⟩ := hs.told k hk j p hj hj' hp huser
    exact ⟨w', List.mem_cons_of_mem _ hw', hlater⟩
  · exact List.forall_mem_cons.2 ⟨hw, hs.sent⟩
  · -- it comes after all there is, so after all the feed goes through
    intro _ j p _ hj' _ _
    exact ⟨w, List.mem_cons_self, by rw [hafter]; exact hj'.trans_le h.le_latest⟩

theorem does_wakeDevices (htokens : tokens ≠ [])
    (hkey : HeaderValue.accepts fcm.authorization = true) :
    WakingDoes C fcm tokens first (Fed fcm tokens first since resp)
      ((Watcher.wakeDevices (some fcm) tokens resp).expand fun _ e => .perform (.inl e))
      fun _ => Woken fcm tokens first since resp := by
  unfold Watcher.wakeDevices
  split
  · rename_i hempty
    exact Triple.done stable_woken fun s hs => hs.woken_of_nil (by simpa using hempty)
  · rename_i hpaths
    have hpaths : Watcher.changedPaths resp ≠ [] := by simpa using hpaths
    have hnone : ¬ tokens.isEmpty = true := by simpa using htokens
    simp only [FcmClient.sendWakeup, if_neg hnone, if_pos hkey]
    refine Triple.call (fun _ => Woken fcm tokens first since resp) (fun _ => stable_woken)
      (fun o s hs _ => ?_) fun resp' => ?_
    · have hwoken := hs.woken_of_post hpaths (w := ⟨fcm.endpoint, fcm.authorization,
        FcmClient.message tokens, s.latest⟩) ⟨rfl, rfl, rfl⟩ rfl
      exact ⟨fun _ => hwoken.sound, hwoken⟩
    · -- however it is answered
      cases hread : FcmClient.readResponse resp' with
      | ok _ =>
        simp only [Prog.bind, pure, hread]
        exact Triple.done stable_woken fun _ hs => hs
      | error _ =>
        simp only [Prog.bind, pure, hread]
        exact Triple.done stable_woken fun _ hs => hs

/-- **Moving on** to the end of the feed. -/
theorem Woken.at_moved (h : Woken fcm tokens first since resp s) (watched : Watched)
    (hdb : watched.db = s.watched.db) :
    At fcm tokens first (some resp.lastSeq)
      { s with watched := watched, moved := resp.lastSeq :: s.moved } := by
  have hs := h.sound
  have hfirst : first ≤ resp.lastSeq := hs.first_le.trans h.place_le
  have hlatest : resp.lastSeq ≤ watched.db.log.length := hdb ▸ h.le_latest
  have hfew : s.wakeups.length ≤ newsBetween watched.db.log first resp.lastSeq := hdb ▸ h.few
  refine ⟨⟨hdb ▸ hs.numbered, ?_, hfirst, hlatest, ?_,
    hfew.trans (newsBetween_mono hfirst hlatest), hs.sent⟩, rfl, hfew⟩
  · intro k hk
    rcases List.mem_cons.1 hk with rfl | hk
    · exact ⟨hfirst, le_refl _⟩
    · exact ⟨(hs.moved k hk).1, (hs.moved k hk).2.trans h.place_le⟩
  · intro k hk j p hj hj' hp huser
    have hj' : j < resp.lastSeq := hj'
    have hp : s.log[j]? = some p := by
      rw [log, ← hdb]
      exact hp
    rcases List.mem_cons.1 hk with rfl | hk
    · omega
    · -- before the old place it was told already, and after it just now
      have hsince : since.isSome = true := by
        rw [← h.moved_eq, List.isSome_head?]
        simpa using List.ne_nil_of_mem hk
      by_cases hold : j < s.place first
      · exact hs.told k hk j p hj hold hp huser
      · exact h.told hsince j p (Nat.le_of_not_lt hold) hj' hp huser

/-- What holds once the feed has answered, or has not. -/
def Heard (fcm : FcmClient) (tokens : List String) (first : ℕ) (since : Option Checkpoint) :
    Except HttpFailure WatchedChanges → Waking → Prop
  | .ok resp => Fed fcm tokens first since resp
  | .error _ => At fcm tokens first since

/-- **The loop.** -/
theorem does_wakingWatcher (htokens : tokens ≠ [])
    (hkey : HeaderValue.accepts fcm.authorization = true) (rounds : ℕ)
    (since : Option Checkpoint) :
    WakingDoes C fcm tokens first (At fcm tokens first since)
      (Watcher.wakingWatcher env (some fcm) tokens rounds since) fun _ _ => True := by
  induction rounds generalizing since with
  | zero => exact Triple.done (fun _ _ _ _ => trivial) fun _ _ => trivial
  | succ rounds ih =>
    refine Triple.bind (Heard fcm tokens first since) (Triple.perform ?_ fun o s hs _ => ?_)
      fun r => ?_
    · rintro (e | resp)
      exacts [stable_at, stable_fed]
    · refine ⟨fun h => h, ?_⟩
      show Heard fcm tokens first since (if o.delivery = .delivered then
        Except.ok (Couch.watchedSince s.watched.db since) else .error HttpFailure.transport) s
      by_cases ho : o.delivery = .delivered
      · rw [if_pos ho]
        exact fed_of_at hs
      · rw [if_neg ho]
        exact hs
    cases r with
    | error e =>
      -- the poll is made again from the same place
      exact ih since
    | ok resp =>
      refine Triple.bind _ (does_handleRows stable_fed _ _) fun _ => ?_
      refine Triple.bind _ (does_wakeDevices htokens hkey) fun _ => ?_
      refine Triple.bind (fun _ => At fcm tokens first (some resp.lastSeq))
        (Triple.perform (fun _ => stable_at) fun o s hs _ => ?_) fun _ => ih _
      have hmoved := hs.at_moved { s.watched with since := some resp.lastSeq } rfl
      exact ⟨fun _ => hmoved.sound, hmoved⟩

/-! ## Every run -/

/-- **Devices are woken for what is new to them**: in every run of the watcher,
whatever fails in it and whoever writes beside it, a wakeup of all devices has
been asked for after every update of a user's path between a place the watcher
has moved on to and a later one; and there were no more wakeups than such
updates since it started. There are devices to wake, and the key can be sent. -/
theorem wakeups_follow_updates (C : Couch) (env : HubEnv) (fcm : FcmClient) (tokens : List String)
    (rounds : ℕ) (db : Db) (ms : List (Move Unit WakingFate Written)) (htokens : tokens ≠ [])
    (hkey : HeaderValue.accepts fcm.authorization = true) (hdb : db.Numbered)
    (hms : (start env (some fcm) tokens rounds db).Meets (semantics C) condition ms) :
    let s := ((start env (some fcm) tokens rounds db).runs (semantics C) ms).state
    (∀ k ∈ s.moved, ∀ k' ∈ s.moved, s.Told k k') ∧
      s.wakeups.length ≤ news (s.log.drop db.log.length) ∧
        ∀ w ∈ s.wakeups, IsFor fcm tokens w := by
  intro s
  have hstart : At fcm tokens db.log.length none ⟨⟨db, none⟩, [], []⟩ := by
    refine ⟨⟨hdb, ?_, le_refl _, le_refl _, ?_, Nat.zero_le _, ?_⟩, rfl, Nat.zero_le _⟩ <;>
      exact fun _ h => absurd h List.not_mem_nil
  have hsound : Sound fcm tokens db.log.length s :=
    (PoolSafe.init (Q := fun _ _ _ => True) (P := fun _ => At fcm tokens db.log.length none)
      (fun _ => stable_at) (fun _ => hstart) fun _ => does_wakingWatcher htokens hkey rounds none).invariant
      fits (fun _ _ _ hg => hg) (fun a s' ha hs => (beside_write ha s').sound hs) hms hstart.sound
  refine ⟨fun k hk k' hk' j p hj hj' hp huser => ?_, ?_, hsound.sent⟩
  · exact hsound.told k hk j p hj (hj'.trans_le (hsound.moved k' hk').2) hp huser
  · rw [← newsBetween_length]
    exact hsound.few

/-- A file is written once the watcher is there, and the wakeup for it is
refused. -/
def refusedWakeup : List (Move Unit WakingFate Written) :=
  let answered : Move Unit WakingFate Written := .run () ⟨.delivered, some (200, "")⟩
  [answered, answered, .env ⟨"a", Watched.root "x"⟩, answered, .run () ⟨.delivered, some (500, "")⟩,
    answered]

def fcmOf (key : String) : FcmClient := .new key

/-- What it leaves. -/
abbrev refusedOnce : Waking :=
  ((start .plain (some (fcmOf "k")) ["phone"] 2 Db.empty).runs
    (semantics (Couch.counting false)) refusedWakeup).state

theorem refusedOnce_woken : refusedOnce.moved = [1, 0] ∧ refusedOnce.Told 0 1 ∧
    refusedOnce.wakeups.length ≤ 1 := by
  obtain ⟨htold, hfew, -⟩ := wakeups_follow_updates (Couch.counting false) .plain
    (fcmOf "k") ["phone"] 2 Db.empty refusedWakeup (by decide) (by decide) .empty
    ⟨trivial, trivial, Nat.one_pos, trivial, trivial, trivial, trivial⟩
  have hmoved : refusedOnce.moved = [1, 0] := by decide +kernel
  refine ⟨hmoved, htold 0 (by rw [hmoved]; decide) 1 (by rw [hmoved]; decide), hfew.trans ?_⟩
  decide +kernel

/-! ## Without them -/

/-- **Without its wakeups** the watcher is the one that resolves conflicts. -/
theorem erases_wakingWatcher (fcm : Option FcmClient) (rounds : ℕ) (since : Option Checkpoint) :
    Prog.Erases (Watcher.wakingWatcher env fcm tokens rounds since)
      (Watcher.changeWatcher env rounds since) := by
  induction rounds generalizing since with
  | zero => exact .done ()
  | succ rounds ih =>
    refine (Prog.erases_expand _).bind fun r => ?_
    cases r with
    | error e => exact ih since
    | ok resp =>
      refine (Prog.erases_expand _).bind fun _ => ?_
      -- the wakeups come to nothing
      exact (Prog.erases_unit _).bind fun _ =>
        (Prog.erases_expand (Watcher.act (.setSince resp.lastSeq))).bind fun _ => ih _

/-- **Wakeups are beside the rest**: whatever becomes of them, the database and
the watcher's place are at every moment what they are in a run of the watcher
that wakes nobody, with the same fates for its requests. -/
theorem wakeups_beside (C : Couch) (env : HubEnv) (fcm : Option FcmClient) (tokens : List String)
    (rounds : ℕ) (db : Db) (ms : List (Move Unit WakingFate Written)) :
    ∃ ms', ms'.Sublist (ms.map (Move.map WakingFate.delivery)) ∧
      ((start env fcm tokens rounds db).runs (semantics C) ms).state.watched =
        ((Watched.start env rounds db).runs (Watched.semantics C) ms').state := by
  have hdropped : ∀ (i : Unit) ⦃β : Type⦄ (f : FcmReq β) (o : WakingFate) (s : Waking),
      ((semantics C).exec i (.inl f) o s).2.watched = s.watched := by
    rintro i β ⟨⟩ o s
    rfl
  obtain ⟨ms', hsub, hstate, -⟩ := Config.runs_of_erases (S := semantics C)
    (T := Watched.semantics C) (c := start env fcm tokens rounds db)
    (d := Watched.start env rounds db) hdropped
    (fun _ _ _ _ _ => ⟨rfl, rfl⟩) (fun _ _ => rfl) ms rfl
    (fun _ => erases_wakingWatcher fcm rounds none)
  exact ⟨ms', hsub, hstate⟩

end Waking

end FileSync
