import FileSync.Model.Inotify
/-!
# Watching a tree that changes

A directory that is not watched yet, or not under the path it has now, is
under one that is still to be visited: because it is on the list, or because
the event of its appearing is queued at a directory that is watched under its
present path. A rename leaves what is under the directory known by paths that
are no longer theirs, and all of it under the directory that has appeared.
-/

namespace FileSync

namespace Inotify

variable {s s' : Inotify} {path above : Place} {d p : DirId} {n : String} {e : InotifyEvent}
  {m : InotifyMove} {ms : List InotifyMove}

/-! ## What is watched and what is still to be -/

/-- The directory is watched, under this path. -/
def Known (s : Inotify) (path : Place) (d : DirId) : Prop :=
  s.watches d = true ∧ s.dirs d = some path

/-- The directory at the path is visited when the thing is done. -/
def Reaches (path : Place) : WatchTask → Prop
  | .add path' | .check path' => path = path'
  | .list path' => ∃ n, path = path' ++ [n]

/-- A directory has appeared under that name. -/
structure Appears (p : DirId) (n : String) (e : InotifyEvent) : Prop where
  wd : e.wd = p
  name : e.name = some n
  mask : e.mask.ignored = false ∧ (e.mask.isDir && (e.mask.create || e.mask.movedTo)) = true

/-- The directory at the path is still to be visited. -/
def ToVisit (s : Inotify) (path : Place) : Prop :=
  (∃ t ∈ s.phase.todo, Reaches path t) ∨
    ∃ above n p, path = above ++ [n] ∧ s.folders.resolve above = some p ∧ s.Known above p ∧
      ∃ e ∈ s.phase.events ++ s.queue, Appears p n e

/-- **Each directory** is watched under its path, or is under one that is
still to be visited. -/
def Covered (s : Inotify) : Prop :=
  ∀ path d, s.folders.resolve path = some d →
    s.Known path d ∨ ∃ above, above <+: path ∧ s.ToVisit above

/-- What is to be visited stays so where no more is known than that. -/
theorem ToVisit.mono (h : s.ToVisit path)
    (hfolders : ∀ above p, above <+: path → s.folders.resolve above = some p →
      s'.folders.resolve above = some p)
    (hknown : ∀ above p, s.folders.resolve above = some p → s.Known above p → s'.Known above p)
    (htodo : ∀ t ∈ s.phase.todo, t ∈ s'.phase.todo)
    (hevents : ∀ e ∈ s.phase.events ++ s.queue, e ∈ s'.phase.events ++ s'.queue) :
    s'.ToVisit path := by
  rcases h with ⟨t, ht, hreaches⟩ | ⟨above, n, p, rfl, hp, hk, e, he, happears⟩
  · exact .inl ⟨t, htodo t ht, hreaches⟩
  · exact .inr ⟨above, n, p, rfl, hfolders above p (List.prefix_append _ _) hp, hknown above p hp hk,
      e, hevents e he, happears⟩

theorem Covered.mono (h : s.Covered) (hfolders : s'.folders = s.folders)
    (hknown : ∀ above p, s.folders.resolve above = some p → s.Known above p → s'.Known above p)
    (htodo : ∀ t ∈ s.phase.todo, t ∈ s'.phase.todo)
    (hevents : ∀ e ∈ s.phase.events ++ s.queue, e ∈ s'.phase.events ++ s'.queue) : s'.Covered := by
  intro path d hpath
  rw [hfolders] at hpath
  refine (h path d hpath).imp (hknown path d hpath) ?_
  rintro ⟨above, habove, hvisit⟩
  exact ⟨above, habove, hvisit.mono (fun _ _ _ hp => hfolders ▸ hp) hknown htodo hevents⟩

/-! ## The user's moves -/

section Emit

variable {dir : DirId} {mask : EventMask} {name : Option String}

theorem emit_cases (s : Inotify) (dir : DirId) (mask : EventMask) (name : Option String) :
    s.emit dir mask name = s ∨
      s.emit dir mask name = { s with queue := s.queue ++ [⟨dir, mask, name⟩] } ∨
      s.emit dir mask name = { s with missed := true } := by
  unfold emit
  split
  · split
    · exact .inl rfl
    split
    · exact .inr (.inl rfl)
    · exact .inr (.inr rfl)
  · exact .inl rfl

@[simp] theorem folders_emit : (s.emit dir mask name).folders = s.folders := by
  rcases emit_cases s dir mask name with h | h | h <;> rw [h]

@[simp] theorem watches_emit : (s.emit dir mask name).watches = s.watches := by
  rcases emit_cases s dir mask name with h | h | h <;> rw [h]

@[simp] theorem dirs_emit : (s.emit dir mask name).dirs = s.dirs := by
  rcases emit_cases s dir mask name with h | h | h <;> rw [h]

@[simp] theorem phase_emit : (s.emit dir mask name).phase = s.phase := by
  rcases emit_cases s dir mask name with h | h | h <;> rw [h]

@[simp] theorem sent_emit : (s.emit dir mask name).sent = s.sent := by
  rcases emit_cases s dir mask name with h | h | h <;> rw [h]

theorem missed_emit (h : s.missed = true) : (s.emit dir mask name).missed = true := by
  rcases emit_cases s dir mask name with hs | hs | hs <;> rw [hs]
  exacts [h, h]

theorem mem_queue_emit (h : e ∈ s.queue) : e ∈ (s.emit dir mask name).queue := by
  rcases emit_cases s dir mask name with hs | hs | hs <;> rw [hs]
  exacts [h, List.mem_append_left _ h, h]

/-- A watched directory's event is queued, or something has been missed. -/
theorem emitted (h : s.watches dir = true) (hkept : (s.emit dir mask name).missed = false) :
    ⟨dir, mask, name⟩ ∈ (s.emit dir mask name).queue := by
  unfold emit at hkept ⊢
  rw [if_pos h] at hkept ⊢
  split at hkept
  · rename_i hlast
    rw [if_pos hlast]
    exact List.mem_of_getLast? hlast
  rename_i hlast
  rw [if_neg hlast]
  split at hkept
  · rename_i hroom
    rw [if_pos hroom]
    exact List.mem_append_right _ (List.mem_singleton_self _)
  · cases hkept

theorem known_emit : (s.emit dir mask name).Known path d ↔ s.Known path d := by
  unfold Known
  rw [watches_emit, dirs_emit]

theorem covered_emit (h : s.Covered) (dir : DirId) (mask : EventMask) (name : Option String) :
    (s.emit dir mask name).Covered := by
  refine h.mono folders_emit (fun _ _ _ hk => known_emit.2 hk) (fun t ht => ?_) fun e he => ?_
  · rwa [phase_emit]
  · rw [phase_emit]
    exact (List.mem_append.1 he).elim (List.mem_append_left _)
      fun he => List.mem_append_right _ (mem_queue_emit he)

end Emit

/-- **A directory appears**: whatever is under it comes after it. -/
theorem covered_appear (h : s.Covered) (hangs : s.folders.Hangs p n d) (moved : Bool)
    (hkept : (emit { s with folders := s.folders.link p n d } p ⟨!moved, moved, true, false⟩
      (some n)).missed = false) :
    (emit { s with folders := s.folders.link p n d } p ⟨!moved, moved, true, false⟩
      (some n)).Covered := by
  set s' := emit { s with folders := s.folders.link p n d } p ⟨!moved, moved, true, false⟩ (some n)
  have hfolders : s'.folders = s.folders.link p n d := folders_emit
  have hphase : s'.phase = s.phase := phase_emit
  have hknown : ∀ {path q}, s.Known path q → s'.Known path q := fun hk => known_emit.2 hk
  have hvisit : ∀ {above}, s.ToVisit above → s'.ToVisit above := fun hv =>
    hv.mono (fun _ _ _ hp => by rw [hfolders]; exact s.folders.resolve_link_of_resolve hangs hp)
      (fun _ _ _ => hknown) (fun t ht => by rwa [hphase]) fun e he => by
        rw [hphase]
        exact (List.mem_append.1 he).elim (List.mem_append_left _)
          fun he => List.mem_append_right _ (mem_queue_emit he)
  intro path q hpath
  rw [hfolders] at hpath
  rcases s.folders.resolve_of_link hangs hpath with hold | ⟨above, habove, hp⟩
  · exact (h path q hold).imp hknown fun ⟨above, habove, hv⟩ => ⟨above, habove, hvisit hv⟩
  · right
    rcases h above p hp with hk | ⟨higher, hhigher, hv⟩
    · -- the directory it has appeared in is known, so its event comes
      refine ⟨above ++ [n], habove, .inr ⟨above, n, p, rfl, ?_, hknown hk, _,
        List.mem_append_right _ (emitted hk.1 hkept), rfl, rfl, rfl, ?_⟩⟩
      · rw [hfolders]
        exact s.folders.resolve_link_of_resolve hangs hp
      · cases moved <;> rfl
    · exact ⟨higher, hhigher.trans ((List.prefix_append _ _).trans habove), hvisit hv⟩

/-- **A directory goes away**, and with it what is under it. -/
theorem covered_unlink (h : s.Covered) (p : DirId) (n : String) :
    Covered { s with folders := s.folders.unlink p n } := by
  intro path q hpath
  have hold := s.folders.resolve_of_unlink hpath
  refine (h path q hold).imp id ?_
  rintro ⟨above, habove, hv⟩
  refine ⟨above, habove, hv.mono (fun higher r hhigher hr => ?_) (fun _ _ _ hk => hk)
    (fun t ht => ht) fun e he => he⟩
  obtain ⟨r', hr'⟩ := Links.resolve_of_above _ hpath (hhigher.trans habove)
  obtain rfl := Option.some.inj ((s.folders.resolve_of_unlink hr').symm.trans hr)
  exact hr'

/-- A watch goes with a directory that is nowhere under the root. -/
theorem covered_unwatch (h : s.Covered) (hd : ∀ path, s.folders.resolve path ≠ some d) :
    Covered { s with watches := Function.update s.watches d false } := by
  refine h.mono rfl (fun above q hq hk => ⟨?_, hk.2⟩) (fun t ht => ht) fun e he => he
  have hne : q ≠ d := fun heq => hd above (heq ▸ hq)
  show Function.update s.watches d false q = true
  rw [Function.update_of_ne hne]
  exact hk.1

/-! ## The thread's moves -/

/-- **One thing is taken from the list**: where it was to reach is known then
and all below is on the list, or it is on the list itself. -/
theorem Covered.visit {t : WatchTask} {rest : List WatchTask} (h : s.Covered)
    (htodo : s.phase.todo = t :: rest) (hfolders : s'.folders = s.folders)
    (hknown : ∀ path d, s.folders.resolve path = some d → s.Known path d → s'.Known path d)
    (hrest : ∀ t' ∈ rest, t' ∈ s'.phase.todo)
    (hevents : ∀ e ∈ s.phase.events ++ s.queue, e ∈ s'.phase.events ++ s'.queue)
    (hdone : ∀ above q, s.folders.resolve above = some q → Reaches above t →
      (s'.Known above q ∧ ∀ n, ∃ t' ∈ s'.phase.todo, Reaches (above ++ [n]) t') ∨
        ∃ t' ∈ s'.phase.todo, Reaches above t') : s'.Covered := by
  intro path d hpath
  rw [hfolders] at hpath
  rcases h path d hpath with hk | ⟨above, habove, ⟨t', ht', hreaches⟩ | hqueued⟩
  · exact .inl (hknown path d hpath hk)
  · rw [htodo] at ht'
    rcases List.mem_cons.1 ht' with rfl | ht'
    · obtain ⟨q, hq⟩ := Links.resolve_of_above _ hpath habove
      rcases hdone above q hq hreaches with ⟨hk, hbelow⟩ | hlisted
      · obtain ⟨more, rfl⟩ := habove
        cases more with
        | nil =>
          rw [List.append_nil] at hpath ⊢
          obtain rfl := Option.some.inj (hq.symm.trans hpath)
          exact .inl hk
        | cons n more => exact .inr ⟨above ++ [n], ⟨more, by simp⟩, .inl (hbelow n)⟩
      · exact .inr ⟨above, habove, .inl hlisted⟩
    · exact .inr ⟨above, habove, .inl ⟨t', hrest t' ht', hreaches⟩⟩
  · obtain ⟨higher, n, p, rfl, hp, hk, e, he, happears⟩ := hqueued
    exact .inr ⟨_, habove, .inr ⟨higher, n, p, rfl, by rwa [hfolders], hknown _ _ hp hk, e,
      hevents e he, happears⟩⟩

/-- **One thing is taken from the list for others** that reach as far. -/
theorem Covered.replace {t : WatchTask} {rest : List WatchTask} (new : List WatchTask)
    (h : s.Covered) (htodo : s.phase.todo = t :: rest) {phase : WatchPhase}
    (hphase : phase.todo = new ++ rest) (hevents : phase.events = s.phase.events)
    (hnew : ∀ above q, s.folders.resolve above = some q → Reaches above t →
      ∃ t' ∈ new, Reaches above t') :
    Covered { s with phase := phase } := by
  refine h.visit htodo rfl (fun _ _ _ hk => hk) (fun t' ht' => ?_) (fun e he => ?_)
    fun above q hq hreaches => .inr ?_
  · exact hphase ▸ List.mem_append_right _ ht'
  · exact hevents ▸ he
  · obtain ⟨t', ht', hreaches'⟩ := hnew above q hq hreaches
    exact ⟨t', hphase ▸ List.mem_append_left _ ht', hreaches'⟩

/-- The directory just watched is known, and so is what was known before. -/
theorem known_watched {a : DirId} (hpath : s.folders.resolve path = some a) {phase : WatchPhase}
    {above : Place} {q : DirId} (hq : s.folders.resolve above = some q)
    (hk : s.Known above q ∨ above = path) :
    Known { s with
      watches := Function.update s.watches a true
      dirs := Function.update s.dirs a (some path), phase := phase } above q := by
  unfold Known
  dsimp only
  rcases eq_or_ne q a with rfl | hne
  · rw [Function.update_self, Function.update_self, s.folders.resolve_inj hq hpath]
    exact ⟨rfl, rfl⟩
  · rw [Function.update_of_ne hne, Function.update_of_ne hne]
    refine hk.resolve_right fun heq => hne ?_
    subst heq
    exact Option.some.inj (hq.symm.trans hpath)

/-- **What a `watch_tree` does** leaves each directory covered. -/
theorem covered_perform {t : WatchTask} {rest : List WatchTask} (h : s.Covered)
    (htodo : s.phase.todo = t :: rest) {phase : WatchPhase}
    (hphase : phase.todo = (s.perform rest t).2) (hevents : phase.events = s.phase.events) :
    Covered { (s.perform rest t).1 with phase := phase } := by
  cases t with
  | add path =>
    cases hpath : s.folders.resolve path with
    | some a =>
      simp only [perform, hpath] at hphase ⊢
      refine h.visit htodo rfl (fun above q hq hk => known_watched hpath hq (.inl hk))
        (fun t' ht' => ?_) (fun e he => ?_) fun above q hq hreaches => .inl ⟨?_, fun n => ?_⟩
      · exact hphase ▸ List.mem_cons_of_mem _ ht'
      · exact hevents ▸ he
      · exact known_watched hpath hq (.inr hreaches)
      · -- all below it is reached by its listing
        obtain rfl : above = path := hreaches
        exact ⟨.list above, hphase ▸ List.mem_cons_self, n, rfl⟩
    | none =>
      simp only [perform, hpath] at hphase ⊢
      refine h.replace [.list path] htodo hphase hevents fun above q hq hreaches => ?_
      obtain rfl : above = path := hreaches
      rw [hpath] at hq
      cases hq
  | list path =>
    cases hpath : s.folders.resolve path with
    | some a =>
      simp only [perform, hpath] at hphase ⊢
      refine h.replace _ htodo hphase hevents fun above q hq hreaches => ?_
      -- an entry that is there now has been listed
      obtain ⟨n, rfl⟩ := hreaches
      obtain ⟨a', ha', hchild⟩ := s.folders.resolve_concat_eq_some.1 hq
      obtain rfl := Option.some.inj (hpath.symm.trans ha')
      exact ⟨.check (path ++ [n]),
        List.mem_map.2 ⟨n, s.folders.mem_names_of_child? hchild, rfl⟩, rfl⟩
    | none =>
      simp only [perform, hpath] at hphase ⊢
      refine h.replace [] htodo hphase hevents fun above q hq hreaches => ?_
      obtain ⟨n, rfl⟩ := hreaches
      obtain ⟨a', ha', -⟩ := s.folders.resolve_concat_eq_some.1 hq
      rw [hpath] at ha'
      cases ha'
  | check path =>
    cases hpath : s.folders.resolve path with
    | some a =>
      simp only [perform, hpath] at hphase ⊢
      exact h.replace [.add path] htodo hphase hevents
        fun above q _ hreaches => ⟨.add path, List.mem_singleton_self _, hreaches⟩
    | none =>
      simp only [perform, hpath] at hphase ⊢
      refine h.replace [] htodo hphase hevents fun above q hq hreaches => ?_
      obtain rfl : above = path := hreaches
      rw [hpath] at hq
      cases hq

/-- **An event is taken from the buffer**: where a directory has appeared that
is known, what has appeared is put on the list. -/
theorem Covered.take {rest : List InotifyEvent} (h : s.Covered)
    (hphase : s.phase = .handling (e :: rest)) (hfolders : s'.folders = s.folders)
    (hwatches : s'.watches = s.watches) (hdirs : s'.dirs = s.dirs) (hqueue : s'.queue = s.queue)
    (hevents : s'.phase.events = rest)
    (hdone : ∀ above n p, s.Known above p → Appears p n e →
      ∃ t ∈ s'.phase.todo, Reaches (above ++ [n]) t) : s'.Covered := by
  have hknown : ∀ {path d}, s.Known path d → s'.Known path d := by
    intro path d hk
    unfold Known
    rwa [hwatches, hdirs]
  intro path d hpath
  rw [hfolders] at hpath
  refine (h path d hpath).imp hknown ?_
  rintro ⟨above, habove, ⟨t, ht, -⟩ | ⟨higher, n, p, rfl, hp, hk, e', he', happears⟩⟩
  · rw [hphase] at ht
    exact absurd ht List.not_mem_nil
  · refine ⟨_, habove, ?_⟩
    rw [hphase] at he'
    rcases List.mem_cons.1 he' with rfl | he'
    · exact .inl (hdone higher n p hk happears)
    · refine .inr ⟨higher, n, p, rfl, by rwa [hfolders], hknown hk, e', ?_, happears⟩
      rwa [hevents, hqueue]

/-- **What the thread does about an event.** -/
theorem covered_handle {rest : List InotifyEvent} (h : s.Covered)
    (hphase : s.phase = .handling (e :: rest)) : (s.handle e rest).Covered := by
  unfold handle
  split
  · rename_i hignored
    refine h.take hphase rfl rfl rfl rfl rfl fun above n p _ ha => ?_
    rw [ha.mask.1] at hignored
    cases hignored
  split
  · rename_i hdirs
    refine h.take hphase rfl rfl rfl rfl rfl fun above n p hk ha => ?_
    rw [ha.wd, hk.2] at hdirs
    cases hdirs
  rename_i dir hdirs
  split
  · rename_i hname
    refine h.take hphase rfl rfl rfl rfl rfl fun above n p _ ha => ?_
    rw [ha.name] at hname
    cases hname
  rename_i name hname
  split
  · refine h.take hphase rfl rfl rfl rfl rfl fun above n p hk ha => ?_
    rw [ha.wd, hk.2] at hdirs
    rw [ha.name] at hname
    obtain rfl := Option.some.inj hdirs
    obtain rfl := Option.some.inj hname
    exact ⟨_, List.mem_singleton_self _, rfl⟩
  · rename_i hmask
    exact h.take hphase rfl rfl rfl rfl rfl fun above n p _ ha => absurd ha.mask.2 hmask

/-- The thread goes on with nothing changed but where it is. -/
theorem Covered.goto (h : s.Covered) {phase : WatchPhase} {sent : ℕ}
    (htodo : s.phase.todo = []) (hevents : phase.events = s.phase.events) :
    Covered { s with phase := phase, sent := sent } :=
  h.mono rfl (fun _ _ _ hk => hk) (fun _ ht => absurd (htodo ▸ ht) List.not_mem_nil)
    fun _ he => hevents ▸ he

/-- How a thing of a `watch_tree` is done. -/
abbrev Doing := Inotify → List WatchTask → WatchTask → Inotify × List WatchTask

/-- **The thread's next step**, where doing a thing leaves each directory
covered or misses something. -/
theorem covered_workStep {f : Doing} (h : s.Covered)
    (hf : ∀ t rest phase, s.phase.todo = t :: rest → WatchPhase.todo phase = (f s rest t).2 →
      phase.events = s.phase.events →
        (f s rest t).1.missed = true ∨ Covered { (f s rest t).1 with phase := phase }) :
    (s.workStep f).missed = true ∨ (s.workStep f).Covered := by
  unfold workStep
  split <;> rename_i hphase
  · exact .inr h
  · exact .inr (h.goto (by rw [hphase]; rfl) (by rw [hphase]; rfl))
  · exact hf _ _ _ (by rw [hphase]; rfl) rfl (by rw [hphase]; rfl)
  · exact .inr h
  · exact .inr (h.goto (by rw [hphase]; rfl) (by rw [hphase]; rfl))
  · exact .inr (covered_handle h hphase)
  · exact .inr (h.goto (by rw [hphase]; rfl) (by rw [hphase]; rfl))
  · exact hf _ _ _ (by rw [hphase]; rfl) rfl (by rw [hphase]; rfl)

theorem missed_skip (t : WatchTask) (rest : List WatchTask) : (s.skip rest t).1.missed = true := by
  cases t <;> rfl

theorem missed_perform (t : WatchTask) (rest : List WatchTask) :
    (s.perform rest t).1.missed = s.missed := by
  cases t <;> simp only [perform] <;> split <;> rfl

theorem missed_handle (rest : List InotifyEvent) : (s.handle e rest).missed = s.missed := by
  unfold handle
  split
  · rfl
  split
  · rfl
  split
  · rfl
  split <;> rfl

theorem missed_workStep {f : Doing} (hf : ∀ t rest, (f s rest t).1.missed = true)
    (h : s.missed = true) : (s.workStep f).missed = true := by
  unfold workStep
  split
  exacts [h, h, hf _ _, h, h, (missed_handle _).trans h, h, hf _ _]

/-- Events are read, the first of them first. -/
theorem covered_read (h : s.Covered) (hphase : s.phase = .waiting) (k : ℕ) :
    Covered { s with phase := .handling (s.queue.take k), queue := s.queue.drop k } := by
  refine h.mono rfl (fun _ _ _ hk => hk) (fun t ht => ?_) fun e he => ?_
  · rw [hphase] at ht
    exact absurd ht List.not_mem_nil
  · rw [hphase] at he
    show e ∈ s.queue.take k ++ s.queue.drop k
    rwa [List.take_append_drop]

/-- Where there is a watch, each directory is covered unless something has
been missed. -/
def Kept (s : Inotify) : Prop := s.phase = .down ∨ s.missed = true ∨ s.Covered

/-- The thread's step, whatever comes of its call. -/
theorem kept_workStep {f : Doing} (h : s.Kept) (hmissed : s.missed = true →
      ∀ t rest, (f s rest t).1.missed = true)
    (hf : s.Covered → ∀ t rest phase, s.phase.todo = t :: rest →
      WatchPhase.todo phase = (f s rest t).2 → phase.events = s.phase.events →
        (f s rest t).1.missed = true ∨ Covered { (f s rest t).1 with phase := phase }) :
    (s.workStep f).Kept := by
  rcases h with h | h | h
  · refine .inl ?_
    simp only [workStep, h]
  · exact .inr (.inl (missed_workStep (hmissed h) h))
  · exact .inr (covered_workStep h (hf h))

/-- **Every move**, where there is a watch. -/
theorem kept_step (h : s.Kept) (m : InotifyMove) : (s.step m).Kept := by
  -- a watch that is down stays down, and what is missed stays missed, until it is set up anew
  have hdown : ∀ {s' : Inotify}, s'.phase = s.phase → (s.missed = true → s'.missed = true) →
      (s.Covered → s'.missed = false → s'.Covered) → s'.Kept := by
    intro s' hphase hmissed hcovered
    rcases h with h | h | h
    · exact .inl (hphase.trans h)
    · exact .inr (.inl (hmissed h))
    · cases hs' : s'.missed with
      | true => exact .inr (.inl hs')
      | false => exact .inr (.inr (hcovered h hs'))
  cases m with
  | appear p n d moved =>
    simp only [step]
    split
    · rename_i hangs
      exact hdown phase_emit (fun h => missed_emit h) fun h => covered_appear h hangs moved
    · exact h
  | moveAway p n =>
    simp only [step]
    split
    · exact hdown phase_emit (fun h => missed_emit h) fun h _ => covered_emit (covered_unlink h p n) _ _ _
    · exact h
  | rmdir p n =>
    simp only [step]
    split
    · rename_i d hd
      split
      · refine hdown (phase_emit.trans phase_emit) (fun h => missed_emit (missed_emit h))
          fun h _ => covered_unwatch
            (covered_emit (covered_emit (covered_unlink h p n) _ _ _) _ _ _) fun path => ?_
        rw [folders_emit, folders_emit]
        exact s.folders.resolve_unlink_ne hd
      · exact h
    · exact h
  | touch d name create movedTo isDir =>
    exact hdown phase_emit missed_emit fun h _ => covered_emit h _ _ _
  | setUp ok =>
    simp only [step]
    split
    · split
      · exact .inr (.inr fun path d _ =>
          .inr ⟨[], List.nil_prefix, .inl ⟨_, List.mem_singleton_self _, rfl⟩⟩)
      · exact .inl rfl
    · exact h
  | read more =>
    simp only [step]
    split
    · rename_i hphase
      split
      · exact h
      · exact .inr ((h.resolve_left (by rw [hphase]; nofun)).imp_right
          fun h => covered_read h hphase _)
    · exact h
  | fail =>
    simp only [step]
    split
    · exact .inl rfl
    · exact h
  | work =>
    exact kept_workStep h (fun hs t rest => (missed_perform t rest).trans hs)
      fun hs t rest phase htodo hphase hevents => .inr (covered_perform hs htodo hphase hevents)
  | workFailing =>
    exact kept_workStep h (fun _ t rest => missed_skip t rest)
      fun _ t rest _ _ _ _ => .inl (missed_skip t rest)

theorem kept_runs (h : s.Kept) (ms : List InotifyMove) : (s.runs ms).Kept := by
  induction ms generalizing s with
  | nil => exact h
  | cons m ms ih => exact ih (kept_step h m)

/-- **At rest every directory is watched**: however directories are made,
moved and removed while the thread is at work, whenever it waits, no event is
queued and nothing has been missed, every directory of the tree is watched,
and the thread knows it by the path it has. -/
theorem all_watched_at_rest (folders : Folders) (limit : ℕ) (ms : List InotifyMove)
    (hwaiting : ((start folders limit).runs ms).phase = .waiting)
    (hqueue : ((start folders limit).runs ms).queue = [])
    (hkept : ((start folders limit).runs ms).missed = false) (path : Place) (d : DirId)
    (hpath : ((start folders limit).runs ms).folders.resolve path = some d) :
    ((start folders limit).runs ms).watches d = true ∧
      ((start folders limit).runs ms).dirs d = some path := by
  have hrun : ((start folders limit).runs ms).Kept := kept_runs (.inl rfl) ms
  generalize (start folders limit).runs ms = s at *
  have hcovered : s.Covered := by
    rcases hrun with hs | hs | hs
    · rw [hwaiting] at hs
      cases hs
    · rw [hkept] at hs
      cases hs
    · exact hs
  refine (hcovered path d hpath).resolve_right ?_
  rintro ⟨above, -, ⟨t, ht, -⟩ | ⟨-, -, -, -, -, -, e, he, -⟩⟩
  · rw [hwaiting] at ht
    exact absurd ht List.not_mem_nil
  · rw [hwaiting, hqueue] at he
    exact absurd he List.not_mem_nil

/-- A rename while the event of its making is still queued, and a directory
that is made inside before there is a watch. -/
def renamed : List InotifyMove :=
  [.setUp true, .work, .work, .work, .appear 0 "a" 1 false, .read 0, .work, .work,
    .moveAway 0 "a", .appear 1 "b" 2 false, .appear 0 "c" 1 true, .work, .work, .work, .read 5] ++
    List.replicate 20 .work ++ [.read 5] ++ List.replicate 20 .work

theorem renamed_watched :
    ((start .empty 16).runs renamed).watches 2 = true ∧
      ((start .empty 16).runs renamed).dirs 2 = some ["c", "b"] :=
  all_watched_at_rest .empty 16 renamed (by decide +kernel) (by decide +kernel) (by decide +kernel)
    ["c", "b"] 2 (by decide +kernel)

/-! ## Signals -/

/-- The first `watch_tree` is done. -/
def Looping (s : Inotify) : Prop :=
  match s.phase with
  | .waiting | .handling _ | .watching _ _ => True
  | .down | .starting _ => False

instance (s : Inotify) : Decidable s.Looping := by
  unfold Looping
  split <;> infer_instance

/-- A signal is to come: the thread is about to send one, or has an event to
come to of a directory it knows. -/
def Due (s : Inotify) : Prop :=
  s.phase ≠ .down ∧ ((∃ todo events, s.phase = .watching todo events) ∨
    ∃ e ∈ s.phase.events ++ s.queue, e.mask.ignored = false ∧ (s.dirs e.wd).isSome = true)

/-- The move changes something in the tree. -/
def Changes (s : Inotify) : InotifyMove → Prop
  | .appear p n d _ => (∃ path, s.folders.resolve path = some p) ∧ s.folders.Hangs p n d
  | .moveAway p n => (∃ path, s.folders.resolve path = some p) ∧ ∃ d, s.folders.child? p n = some d
  | .rmdir p n => (∃ path, s.folders.resolve path = some p) ∧
      ∃ d, s.folders.child? p n = some d ∧ s.folders.names d = []
  | .touch d _ _ _ _ => ∃ path, s.folders.resolve path = some d
  | _ => False

theorem Due.mono (h : s.Due) (hphase : s'.phase = s.phase) (hdirs : s'.dirs = s.dirs)
    (hqueue : ∀ e ∈ s.queue, e ∈ s'.queue) : s'.Due := by
  unfold Due
  rw [hphase, hdirs]
  refine ⟨h.1, h.2.imp_right ?_⟩
  rintro ⟨e, he, hknown⟩
  exact ⟨e, (List.mem_append.1 he).elim (List.mem_append_left _)
    fun he => List.mem_append_right _ (hqueue e he), hknown⟩

/-- **An event of a directory of the tree** is of one that is known, or there
is another directory that is still to be visited. -/
theorem due_emit (h : s.Covered) (hloop : s.Looping) (hp : s.folders.resolve path = some p)
    (folders : Folders) (mask : EventMask) (hmask : mask.ignored = false) (name : Option String)
    (hkept : (emit { s with folders := folders } p mask name).missed = false) :
    (emit { s with folders := folders } p mask name).Due := by
  have hup : s.phase ≠ .down := fun hdown => by
    unfold Looping at hloop
    rw [hdown] at hloop
    exact hloop
  have hgrows : ∀ e ∈ s.queue, e ∈ (emit { s with folders := folders } p mask name).queue :=
    fun e he => mem_queue_emit he
  rcases h path p hp with hk | ⟨above, -, ⟨t, ht, -⟩ | ⟨higher, n, q, -, -, hk, e, he, happears⟩⟩
  · -- the directory is known, and its own event is queued
    refine ⟨by rwa [phase_emit], .inr ⟨_, List.mem_append_right _ (emitted hk.1 hkept), hmask, ?_⟩⟩
    rw [dirs_emit, hk.2]
    rfl
  · -- one is being watched on the way to it, and is signalled after that
    refine Due.mono (s := s) ⟨hup, .inl ?_⟩ phase_emit dirs_emit hgrows
    unfold Looping at hloop
    cases hs : s.phase with
    | watching todo events => exact ⟨todo, events, rfl⟩
    | starting todo =>
      rw [hs] at hloop
      exact hloop.elim
    | _ =>
      rw [hs] at ht
      exact absurd ht List.not_mem_nil
  · -- one on the way to it has appeared, and that event is still to come
    refine Due.mono (s := s) ⟨hup, .inr ⟨e, he, happears.mask.1, ?_⟩⟩ phase_emit dirs_emit hgrows
    rw [happears.wd, hk.2]
    rfl

/-- **A change in the tree** makes a signal due. -/
theorem due_of_changes (h : s.Covered) (hloop : s.Looping) (hm : s.Changes m)
    (hkept : (s.step m).missed = false) : (s.step m).Due := by
  cases m with
  | appear p n d moved =>
    obtain ⟨⟨path, hp⟩, hangs⟩ := hm
    simp only [step, if_pos hangs] at hkept ⊢
    exact due_emit h hloop hp _ _ rfl _ hkept
  | moveAway p n =>
    obtain ⟨⟨path, hp⟩, d, hd⟩ := hm
    simp only [step, hd] at hkept ⊢
    exact due_emit h hloop hp _ _ rfl _ hkept
  | rmdir p n =>
    obtain ⟨⟨path, hp⟩, d, hd, hempty⟩ := hm
    simp only [step, hd, if_pos hempty] at hkept ⊢
    have hfirst : (emit { s with folders := s.folders.unlink p n } p ⟨false, false, true, false⟩
        (some n)).missed = false := by
      rw [← Bool.not_eq_true]
      intro hmissed
      rw [missed_emit hmissed] at hkept
      cases hkept
    have hdue : (emit { s with folders := s.folders.unlink p n } p ⟨false, false, true, false⟩
      (some n)).Due := due_emit h hloop hp _ _ rfl _ hfirst
    exact hdue.mono phase_emit dirs_emit fun e he => mem_queue_emit he
  | touch d name create movedTo isDir =>
    obtain ⟨path, hp⟩ := hm
    exact due_emit h hloop hp s.folders _ rfl _ hkept
  | _ => exact hm.elim

/-- A `watch_tree` sends nothing, and forgets no directory. -/
def Quiet (f : Doing) : Prop :=
  ∀ s t rest, (f s rest t).1.sent = s.sent ∧ (f s rest t).1.queue = s.queue ∧
    ∀ d, (s.dirs d).isSome = true → ((f s rest t).1.dirs d).isSome = true

theorem quiet_skip : Quiet skip := by
  intro s t rest
  cases t <;> exact ⟨rfl, rfl, fun _ h => h⟩

theorem quiet_perform : Quiet perform := by
  intro s t rest
  have hsame : ∀ d, (s.dirs d).isSome = true → (s.dirs d).isSome = true := fun _ h => h
  cases t with
  | add path =>
    simp only [perform]
    split
    · rename_i a _
      refine ⟨rfl, rfl, fun d hd => ?_⟩
      show (Function.update s.dirs a (some path) d).isSome = true
      rcases eq_or_ne d a with rfl | hne
      · rw [Function.update_self]
        rfl
      · rwa [Function.update_of_ne hne]
    · exact ⟨rfl, rfl, hsame⟩
  | list path =>
    simp only [perform]
    split <;> exact ⟨rfl, rfl, hsame⟩
  | check path =>
    simp only [perform]
    split <;> exact ⟨rfl, rfl, hsame⟩

/-- **An event of a known directory** is signalled, or will be when what has
appeared is watched. -/
theorem due_handle {rest : List InotifyEvent} (hphase : s.phase = .handling (e :: rest))
    (h : s.Due) : s.sent < (s.handle e rest).sent ∨ (s.handle e rest).Due := by
  obtain ⟨todo, events, hwatching⟩ | ⟨e', he', hmask, hknown⟩ := h.2
  · rw [hphase] at hwatching
    cases hwatching
  rw [hphase] at he'
  -- where the event is passed over it was not the one that makes the signal due
  have hlater : ∀ {s' : Inotify}, s'.phase = .handling rest → s'.dirs = s.dirs →
      s'.queue = s.queue → e' ≠ e → s'.Due := by
    intro s' hphase' hdirs' hqueue' hne
    refine ⟨by rw [hphase']; nofun, .inr ⟨e', ?_, hmask, by rwa [hdirs']⟩⟩
    rw [hphase', hqueue']
    exact (List.mem_cons.1 he').resolve_left hne
  unfold handle
  split
  · rename_i hignored
    refine .inr (hlater rfl rfl rfl ?_)
    rintro rfl
    rw [hmask] at hignored
    cases hignored
  split
  · rename_i hdirs
    refine .inr (hlater rfl rfl rfl ?_)
    rintro rfl
    rw [hdirs] at hknown
    cases hknown
  split
  · exact .inl (Nat.lt_succ_self _)
  split
  · exact .inr ⟨nofun, .inl ⟨_, _, rfl⟩⟩
  · exact .inl (Nat.lt_succ_self _)

theorem due_workStep {f : Doing} (hf : Quiet f) (h : s.Due) :
    s.sent < (s.workStep f).sent ∨ (s.workStep f).Due := by
  -- outside the loop over events it can only be one that is still queued
  have hqueued : ∀ {s' : Inotify}, s.phase.events = [] → (∀ todo events, s.phase ≠ .watching todo events) →
      s'.phase ≠ .down → s'.queue = s.queue →
      (∀ d, (s.dirs d).isSome = true → (s'.dirs d).isSome = true) → s'.Due := by
    intro s' hevents hphase hup hqueue hdirs
    obtain ⟨todo, events, hwatching⟩ | ⟨e, he, hmask, hknown⟩ := h.2
    · exact absurd hwatching (hphase todo events)
    · rw [hevents] at he
      refine ⟨hup, .inr ⟨e, List.mem_append_right _ ?_, hmask, hdirs _ hknown⟩⟩
      rwa [hqueue]
  unfold workStep
  split <;> rename_i hphase
  · exact .inr h
  · exact .inr (hqueued (by rw [hphase]; rfl) (by rw [hphase]; nofun) nofun rfl fun _ hd => hd)
  · obtain ⟨-, hqueue, hdirs⟩ := hf s ‹_› ‹_›
    exact .inr (hqueued (by rw [hphase]; rfl) (by rw [hphase]; nofun) nofun hqueue hdirs)
  · exact .inr h
  · exact .inr (hqueued (by rw [hphase]; rfl) (by rw [hphase]; nofun) nofun rfl fun _ hd => hd)
  · exact due_handle hphase h
  · exact .inl (Nat.lt_succ_self _)
  · exact .inr ⟨nofun, .inl ⟨_, _, rfl⟩⟩

/-- Events are read, and none is dropped. -/
theorem due_read (h : s.Due) (hphase : s.phase = .waiting) (k : ℕ) :
    Due { s with phase := .handling (s.queue.take k), queue := s.queue.drop k } := by
  obtain ⟨todo, events, hwatching⟩ | ⟨e, he, hknown⟩ := h.2
  · rw [hphase] at hwatching
    cases hwatching
  · rw [hphase] at he
    refine ⟨nofun, .inr ⟨e, ?_, hknown⟩⟩
    show e ∈ s.queue.take k ++ s.queue.drop k
    rwa [List.take_append_drop]

/-- **A signal that is due** is sent or stays due. -/
theorem due_step (h : s.Due) (m : InotifyMove) (hm : m ≠ .fail) :
    s.sent < (s.step m).sent ∨ (s.step m).Due := by
  -- an event stays in the queue until it is read, and what is read is handled
  cases m with
  | appear p n d moved =>
    simp only [step]
    split
    · exact .inr (h.mono phase_emit dirs_emit fun e he => mem_queue_emit he)
    · exact .inr h
  | moveAway p n =>
    simp only [step]
    split
    · exact .inr (h.mono phase_emit dirs_emit fun e he => mem_queue_emit he)
    · exact .inr h
  | rmdir p n =>
    simp only [step]
    split
    · split
      · refine .inr (h.mono (phase_emit.trans phase_emit) (dirs_emit.trans dirs_emit) fun e he => ?_)
        exact mem_queue_emit (mem_queue_emit he)
      · exact .inr h
    · exact .inr h
  | touch d name create movedTo isDir =>
    exact .inr (h.mono phase_emit dirs_emit fun e he => mem_queue_emit he)
  | setUp ok =>
    simp only [step]
    split
    · exact absurd ‹_› h.1
    · exact .inr h
  | read more =>
    simp only [step]
    split
    · rename_i hphase
      split
      · exact .inr h
      · exact .inr (due_read h hphase _)
    · exact .inr h
  | fail => exact absurd rfl hm
  | work => exact due_workStep quiet_perform h
  | workFailing => exact due_workStep quiet_skip h

theorem sent_le_workStep {f : Doing} (hf : Quiet f) : s.sent ≤ (s.workStep f).sent := by
  unfold workStep
  split
  · exact le_refl _
  · exact le_refl _
  · exact (hf _ _ _).1.ge
  · exact le_refl _
  · exact le_refl _
  · unfold handle
    split
    · exact le_refl _
    split
    · exact le_refl _
    split
    · exact Nat.le_succ _
    split <;> [exact le_refl _; exact Nat.le_succ _]
  · exact Nat.le_succ _
  · exact (hf _ _ _).1.ge

/-- A signal that has been sent stays so. -/
theorem sent_le_step (m : InotifyMove) : s.sent ≤ (s.step m).sent := by
  have hemit : ∀ {t : Inotify} {d mask name}, t.sent = s.sent → s.sent ≤ (t.emit d mask name).sent :=
    fun h => (sent_emit.trans h).ge
  cases m with
  | appear p n d moved =>
    simp only [step]
    split <;> [exact hemit rfl; exact le_refl _]
  | moveAway p n =>
    simp only [step]
    split <;> [exact hemit rfl; exact le_refl _]
  | rmdir p n =>
    simp only [step]
    split
    · split <;> [exact hemit sent_emit; exact le_refl _]
    · exact le_refl _
  | touch d name create movedTo isDir => exact hemit rfl
  | setUp ok =>
    simp only [step]
    split
    · split <;> exact le_refl _
    · exact le_refl _
  | read more =>
    simp only [step]
    split
    · split <;> exact le_refl _
    · exact le_refl _
  | fail =>
    simp only [step]
    split <;> exact le_refl _
  | work => exact sent_le_workStep quiet_perform
  | workFailing => exact sent_le_workStep quiet_skip

theorem sent_le_runs (ms : List InotifyMove) : s.sent ≤ (s.runs ms).sent := by
  induction ms generalizing s with
  | nil => exact le_refl _
  | cons m ms ih => exact (sent_le_step m).trans ih

/-- **A signal that is due** is sent before the thread comes to rest. -/
theorem sent_of_due (h : s.Due) (hfail : .fail ∉ ms) (hwaiting : (s.runs ms).phase = .waiting)
    (hqueue : (s.runs ms).queue = []) : s.sent < (s.runs ms).sent := by
  induction ms generalizing s with
  | nil =>
    have hwaiting' : s.phase = .waiting := hwaiting
    have hqueue' : s.queue = [] := hqueue
    obtain ⟨todo, events, hwatching⟩ | ⟨e, he, -⟩ := h.2
    · rw [hwaiting'] at hwatching
      cases hwatching
    · rw [hwaiting', hqueue'] at he
      exact absurd he List.not_mem_nil
  | cons m ms ih =>
    have hm : m ≠ .fail := fun heq => hfail (heq ▸ List.mem_cons_self)
    have hms : InotifyMove.fail ∉ ms := fun hmem => hfail (List.mem_cons_of_mem _ hmem)
    rcases due_step h m hm with hsent | hdue
    · exact hsent.trans_le (sent_le_runs ms)
    · exact (sent_le_step m).trans_lt (ih hdue hms hwaiting hqueue)

/-- What has been missed before a change in the tree has been missed after
it. -/
theorem missed_of_changes (hm : s.Changes m) (h : s.missed = true) : (s.step m).missed = true := by
  cases m with
  | appear p n d moved =>
    simp only [step, if_pos hm.2]
    exact missed_emit h
  | moveAway p n =>
    obtain ⟨-, d, hd⟩ := hm
    simp only [step, hd]
    exact missed_emit h
  | rmdir p n =>
    obtain ⟨-, d, hd, hempty⟩ := hm
    simp only [step, hd, if_pos hempty]
    exact missed_emit (missed_emit h)
  | touch d name create movedTo isDir => exact missed_emit h
  | _ => exact hm.elim

/-- **No change goes unsignalled**: whatever is changed in the tree once the
first `watch_tree` is done, also in a directory that is not watched yet, a
signal is sent after it before the thread comes to rest, unless something had
been missed by then or the watch fails. -/
theorem change_signalled (folders : Folders) (limit : ℕ) (before after : List InotifyMove)
    (m : InotifyMove) (hloop : ((start folders limit).runs before).Looping)
    (hm : ((start folders limit).runs before).Changes m)
    (hkept : ((start folders limit).runs (before ++ [m])).missed = false) (hfail : .fail ∉ after)
    (hwaiting : ((start folders limit).runs (before ++ m :: after)).phase = .waiting)
    (hqueue : ((start folders limit).runs (before ++ m :: after)).queue = []) :
    ((start folders limit).runs (before ++ [m])).sent <
      ((start folders limit).runs (before ++ m :: after)).sent := by
  have hruns : ∀ ms, (start folders limit).runs (before ++ ms) =
      ((start folders limit).runs before).runs ms := fun ms => List.foldl_append
  rw [hruns] at hkept hwaiting hqueue ⊢
  rw [hruns]
  have hbefore : ((start folders limit).runs before).Kept := kept_runs (.inl rfl) before
  have hcovered : ((start folders limit).runs before).Covered := by
    rcases hbefore with hs | hs | hs
    · unfold Looping at hloop
      rw [hs] at hloop
      exact hloop.elim
    · have hmissed := missed_of_changes hm hs
      exact absurd (hmissed.symm.trans hkept) (by decide)
    · exact hs
  exact sent_of_due (due_of_changes hcovered hloop hm hkept) hfail hwaiting hqueue

/-- A directory is made, -/
def made : List InotifyMove := [.setUp true, .work, .work, .work, .appear 0 "a" 1 false]

/-- and a file is written in it before the thread comes to it. -/
def madeAndWritten : InotifyMove := .touch 1 (some "f") true false false

def thenWatched : List InotifyMove := .read 0 :: List.replicate 8 .work

theorem madeAndWritten_signalled :
    ((start .empty 16).runs (made ++ [madeAndWritten])).sent <
      ((start .empty 16).runs (made ++ madeAndWritten :: thenWatched)).sent := by
  have hchanges : ((start .empty 16).runs made).Changes madeAndWritten := ⟨["a"], by decide +kernel⟩
  exact change_signalled .empty 16 made thenWatched madeAndWritten (by decide +kernel) hchanges
    (by decide +kernel) (by decide +kernel) (by decide +kernel) (by decide +kernel)

end Inotify

end FileSync
