import FileSync.Client.Calls
/-!
# The base revision of a queued change

Local changes to one path are coalesced: the queue holds the last of them.
Its base revision is read from the path's metadata when it is recorded, and
recording a delete removes that metadata. So a change recorded after a
delete has no base, whatever revision the path was synced at.
-/

namespace FileSync

namespace LocalCall

/-- The call records a deletion. -/
def isDelete : LocalCall → Bool
  | upsert .. => false
  | delete .. => true

end LocalCall

namespace MemStore

/-- The revision a path was last synced at. -/
def syncedRev (s : MemStore) (path : Path) : Option Rev := (s.fileMeta? path).bind FileMeta.rev

/-- What the queue holds for a path. -/
def queuedFor (s : MemStore) (path : Path) : List PendingChange :=
  s.pending.filter fun p => p.path = path

end MemStore

namespace BaseRevision

variable {eng : SyncEngine} {s : MemStore} {call last : LocalCall} {calls : List LocalCall}
  {path : Path}

/-- Store operations that do not fail. -/
def alone : Prog.Handler EngineReq MemStore := fun _ e s => MemStore.exec e .unreachable s

/-- Record one change after another; `none` if one of them fails. -/
def recordAll (eng : SyncEngine) : List LocalCall → MemStore → Option MemStore
  | [], s => some s
  | call :: calls, s =>
    match Fallible.exec alone (call.record eng) s with
    | (.ok _, s') => recordAll eng calls s'
    | (.error _, _) => none

/-! ## One call -/

/-- What the call leaves under the path's keys. -/
def applied (s : MemStore) : LocalCall → MemStore
  | .upsert path mtime contentType content =>
    ⟨s.blobs.insert (fileKey path) (.fileMeta ⟨s.syncedRev path, mtime, contentType⟩),
      s.files.insert path content⟩
  | .delete path _ => ⟨s.blobs.erase (fileKey path), s.files.erase path⟩

/-- The stores after a change was recorded. -/
def recorded (s : MemStore) (call : LocalCall) : MemStore :=
  { applied s call with
    blobs := (applied s call).blobs.insert keyPending
      (.queue (SyncEngine.enqueue s.pending (call.change (s.syncedRev call.path)))) }

theorem exec_report {α : Type} {x : Engine α} {a : α} {s' : MemStore}
    (hx : Fallible.exec alone x s = (.ok a, s')) :
    Fallible.exec alone (eng.report x) s = (.ok a, s') := by
  unfold SyncEngine.report
  rw [Fallible.exec_bind_of_ok (Fallible.exec_attempt_of hx)]
  rfl

theorem exec_loadPending : Fallible.exec alone SyncEngine.loadPending s = (.ok s.pending, s) := by
  unfold SyncEngine.loadPending
  rw [Fallible.exec_bind_of_ok (a := s.blobs.lookup keyPending) (t := s) rfl]
  cases h : s.blobs.lookup keyPending <;> simp [MemStore.pending, h]

theorem exec_apply (baseRev : Option Rev) (hbase : baseRev = s.syncedRev call.path) :
    Fallible.exec alone (call.apply baseRev) s = (.ok (), applied s call) := by
  subst hbase
  cases call <;> rfl

/-- Only the path's own key is written before the queue. -/
theorem pending_applied : (applied s call).pending = s.pending := by
  cases call <;> simp [applied, MemStore.pending]

/-- **Recording a change does not fail.** -/
theorem exec_record : Fallible.exec alone (call.record eng) s = (.ok (), recorded s call) := by
  have hknown : Fallible.exec alone (SyncEngine.knownRev call.path) s =
      (.ok (s.syncedRev call.path), s) := rfl
  rw [LocalCall.record_eq]
  refine exec_report ?_
  rw [Fallible.exec_bind_of_ok hknown, Fallible.exec_bind_of_ok (exec_apply _ rfl)]
  unfold SyncEngine.upsertPending
  rw [Fallible.exec_bind_of_ok exec_loadPending, pending_applied]
  rfl

theorem pending_recorded : (recorded s call).pending =
    SyncEngine.enqueue s.pending (call.change (s.syncedRev call.path)) := by
  simp [recorded, MemStore.pending, Blob.toQueue?]

/-- **What a call leaves of the synced revision**: an upsert keeps it, a
delete forgets it, and other paths' are not touched. -/
theorem syncedRev_recorded : (recorded s call).syncedRev path =
    if call.path = path ∧ call.isDelete then none else s.syncedRev path := by
  cases call with
  | upsert p mtime contentType content =>
    by_cases hp : p = path
    · subst hp
      simp [recorded, applied, MemStore.syncedRev, MemStore.fileMeta?, LocalCall.isDelete,
        Blob.toFileMeta?]
    · have hkey : fileKey path ≠ fileKey p := by simpa using Ne.symm hp
      simp [recorded, applied, MemStore.syncedRev, MemStore.fileMeta?, LocalCall.isDelete,
        AList.lookup_insert_ne hkey]
  | delete p mtime =>
    by_cases hp : p = path
    · subst hp
      simp [recorded, applied, MemStore.syncedRev, MemStore.fileMeta?, LocalCall.isDelete,
        LocalCall.path]
    · have hkey : fileKey path ≠ fileKey p := by simpa using Ne.symm hp
      simp [recorded, applied, MemStore.syncedRev, MemStore.fileMeta?, LocalCall.isDelete,
        LocalCall.path, hp, AList.lookup_erase_ne hkey]

/-- A call replaces what was queued for its path and nothing else. -/
theorem queuedFor_recorded : (recorded s call).queuedFor path =
    if call.path = path then [call.change (s.syncedRev path)] else s.queuedFor path := by
  simp only [MemStore.queuedFor, pending_recorded, SyncEngine.enqueue, List.filter_append,
    List.filter_filter, LocalCall.change_path]
  by_cases hp : call.path = path
  · subst hp
    have hnone : (s.pending.filter fun p =>
        decide (p.path = call.path) && decide (p.path ≠ call.path)) = [] := by
      rw [List.filter_eq_nil_iff]
      intro p _
      simp
    rw [hnone, if_pos rfl]
    simp
  · have hsame : (s.pending.filter fun p =>
        decide (p.path = path) && decide (p.path ≠ call.path)) =
          s.pending.filter fun p => p.path = path := by
      refine List.filter_congr fun p _ => ?_
      by_cases hpp : p.path = path
      · simp [hpp, Ne.symm hp]
      · simp [hpp]
    rw [hsame, if_neg hp]
    simp [hp]

/-! ## A sequence of them -/

/-- A sequence of calls runs to its end. -/
theorem recordAll_eq : recordAll eng calls s = some (calls.foldl recorded s) := by
  induction calls generalizing s with
  | nil => rfl
  | cons call calls ih =>
    rw [recordAll, exec_record]
    exact ih

/-- **The synced revision is kept until a delete of the path is recorded.** -/
theorem syncedRev_foldl : (calls.foldl recorded s).syncedRev path =
    if ∃ c ∈ calls, c.path = path ∧ c.isDelete then none else s.syncedRev path := by
  induction calls generalizing s with
  | nil => simp
  | cons call calls ih =>
    rw [List.foldl_cons, ih, syncedRev_recorded]
    by_cases hrest : ∃ c ∈ calls, c.path = path ∧ c.isDelete
    · rw [if_pos hrest, if_pos]
      obtain ⟨c, hc, h⟩ := hrest
      exact ⟨c, List.mem_cons_of_mem _ hc, h⟩
    · rw [if_neg hrest]
      refine if_congr ⟨fun h => ⟨call, List.mem_cons_self, h⟩, fun ⟨c, hc, h⟩ => ?_⟩ rfl rfl
      rcases List.mem_cons.1 hc with rfl | hc
      exacts [h, absurd ⟨c, hc, h⟩ hrest]

theorem queuedFor_foldl (hother : ∀ c ∈ calls, c.path ≠ path) :
    (calls.foldl recorded s).queuedFor path = s.queuedFor path := by
  induction calls generalizing s with
  | nil => rfl
  | cons call calls ih =>
    rw [List.foldl_cons, ih fun c hc => hother c (List.mem_cons_of_mem _ hc), queuedFor_recorded,
      if_neg (hother call List.mem_cons_self)]

/-- **The queued base revision survives coalescing exactly when the path was
not synced or none of its changes but the last is a delete.** The calls may
be for any paths; `last` is the path's last one. -/
theorem base_rev_survives_iff (eng : SyncEngine) (s : MemStore) (before : List LocalCall)
    (last : LocalCall) (after : List LocalCall) (hafter : ∀ c ∈ after, c.path ≠ last.path) :
    (∃ s', recordAll eng (before ++ last :: after) s = some s' ∧
      s'.queuedFor last.path = [last.change (s.syncedRev last.path)]) ↔
    (s.syncedRev last.path = none ∨
      ∀ c ∈ before, c.path = last.path → c.isDelete = false) := by
  have hqueued : ((before ++ last :: after).foldl recorded s).queuedFor last.path =
      [last.change ((before.foldl recorded s).syncedRev last.path)] := by
    rw [List.foldl_append, List.foldl_cons, queuedFor_foldl hafter, queuedFor_recorded, if_pos rfl]
  have hinj : ∀ r r' : Option Rev, last.change r = last.change r' ↔ r = r' := by
    intro r r'
    cases last <;> simp [LocalCall.change]
  rw [recordAll_eq]
  simp only [Option.some.injEq, exists_eq_left', hqueued, List.cons.injEq, and_true, hinj,
    syncedRev_foldl]
  by_cases hdel : ∃ c ∈ before, c.path = last.path ∧ c.isDelete
  · rw [if_pos hdel]
    obtain ⟨c, hc, hp, hd⟩ := hdel
    refine ⟨fun h => .inl h.symm, fun h => ?_⟩
    rcases h with h | h
    · exact h.symm
    · rw [h c hc hp] at hd
      cases hd
  · rw [if_neg hdel]
    refine ⟨fun _ => .inr fun c hc hp => ?_, fun _ => rfl⟩
    by_contra hd
    exact hdel ⟨c, hc, hp, by simpa using hd⟩

/-! ## A file deleted and written again -/

/-- The path `a`, synced at `2-x`. -/
def synced : MemStore :=
  ⟨(∅ : MetaMap).insert (fileKey "a") (.fileMeta ⟨some ⟨2, "x"⟩, 5, octetStream⟩),
    (∅ : AList fun _ : Path => Bytes).insert "a" [1]⟩

/-- **A file deleted and written again is queued with no base**, although it
was synced at a revision. -/
theorem base_lost_by_delete :
    synced.syncedRev "a" = some ⟨2, "x"⟩ ∧
      ((recordAll (oneHub true) [.delete "a" 6, .upsert "a" 7 octetStream [2]] synced).map
        fun s => s.queuedFor "a") = some [⟨"a", false, none, 7, some octetStream⟩] := by
  decide +kernel

/-- Two edits keep it. -/
theorem base_kept_by_upserts :
    ∃ s', recordAll (oneHub true)
        ([.upsert "a" 6 octetStream [2]] ++ .upsert "a" 7 octetStream [3] :: []) synced = some s' ∧
      s'.queuedFor "a" = [⟨"a", false, some ⟨2, "x"⟩, 7, some octetStream⟩] :=
  (base_rev_survives_iff (oneHub true) synced [.upsert "a" 6 octetStream [2]]
    (.upsert "a" 7 octetStream [3]) [] (by simp)).2 (.inr (by decide))

end BaseRevision

end FileSync
