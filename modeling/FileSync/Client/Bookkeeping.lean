import FileSync.Model.MetaDir
/-!
# The metadata directory is a map

Encoded keys and temporary files share one directory. No key of the
engine's is encoded to a temporary file's name, so every key is read and
written as in memory, whatever a killed process has left. Listing skips
every name that ends as a temporary file's does, and so it also skips keys
that end so: it is right as long as no such key is to be listed.
-/

namespace FileSync

namespace Bookkeeping

open FsMetaStore MetaOp Percent

variable {E : UrlEncoding} {d : FsMetaStore} {s : MemStore} {key key' start : String}

/-! ## Names -/

/-- The keys the engine uses. -/
def IsKey (key : String) : Prop :=
  key = keyPending ∨ (∃ hub, key = checkpointKey hub) ∨ ∃ path, key = fileKey path

/-- Files that are no key's. -/
def IsTmp (name : String) : Prop := endsInTmp name = true ∧ name.toList.head? = some '.'

theorem isTmp_tmpName (d : FsMetaStore) : IsTmp d.tmpName := by
  have hname : d.tmpName = "." ++ toString d.pid ++ "-" ++ toString d.counter ++ ".tmp" := rfl
  rw [IsTmp, hname]
  refine ⟨List.isSuffixOf_iff_suffix.2 ?_, ?_⟩
  · rw [String.toList_append]
    exact List.suffix_append _ _
  · simp only [String.toList_append]
    rfl

theorem IsKey.head (h : IsKey key) : ∃ c cs, key.toList = c :: cs ∧ isUnreserved c = true ∧
    c ≠ '.' := by
  rcases h with rfl | ⟨hub, rfl⟩ | ⟨path, rfl⟩
  · exact ⟨'p', _, rfl, by decide, by decide⟩
  · exact ⟨'c', _, String.toList_append, by decide, by decide⟩
  · exact ⟨'f', _, String.toList_append, by decide, by decide⟩

/-- **No key's file is a temporary one.** -/
theorem IsKey.not_isTmp (h : IsKey key) : ¬ IsTmp (E.encode key) := by
  rintro ⟨-, hhead⟩
  obtain ⟨c, cs, hkey, hc, hne⟩ := h.head
  rw [E.toList_encode, hkey, ← List.singleton_append, E.chars_append, E.chars_singleton,
    E.encode_unreserved c hc, String.toList_singleton, List.singleton_append, List.head?_cons]
    at hhead
  exact hne (Option.some.inj hhead)

theorem IsKey.ne_tmpName (h : IsKey key) (d : FsMetaStore) : E.encode key ≠ d.tmpName := by
  intro heq
  exact h.not_isTmp (heq ▸ isTmp_tmpName d)

/-- A key and its file end alike. -/
theorem endsInTmp_encode (key : String) : endsInTmp (E.encode key) = endsInTmp key := by
  have hplain : ∀ c ∈ ['.', 't', 'm', 'p'], isUnreserved c = true ∧ isEscape c = false := by
    simp only [List.forall_mem_cons, List.not_mem_nil, false_implies, implies_true, and_true]
    decide
  have hsuffix : ".tmp".toList <:+ E.chars key.toList ↔ ".tmp".toList <:+ key.toList :=
    E.suffix_encode hplain key.toList
  rw [Bool.eq_iff_iff, endsInTmp, endsInTmp, List.isSuffixOf_iff_suffix,
    List.isSuffixOf_iff_suffix, E.toList_encode]
  exact hsuffix

/-! ## What the directory holds -/

/-- The directory holds what the memory does, and files that are no key's. -/
structure Mirrors (E : UrlEncoding) (d : FsMetaStore) (s : MemStore) : Prop where
  isKey : ∀ key ∈ s.blobs.keys, IsKey key
  lookup : ∀ key, IsKey key → d.files.lookup (E.encode key) = s.blobs.lookup key
  named : ∀ name ∈ d.files.keys, (∃ key ∈ s.blobs.keys, E.encode key = name) ∨ IsTmp name

theorem mirrors_opened (E : UrlEncoding) (pid : ℕ) : Mirrors E (opened pid) .empty :=
  ⟨fun _ h => absurd h List.not_mem_nil, fun _ _ => rfl, fun _ h => absurd h List.not_mem_nil⟩

theorem Mirrors.put (h : Mirrors E d s) (hkey : IsKey key) (value : Blob) :
    Mirrors E (d.put E key value).2 { s with blobs := s.blobs.insert key value } := by
  refine ⟨fun k hk => ?_, fun k hk => ?_, fun name hname => ?_⟩
  · rcases AList.mem_insert _ |>.1 hk with rfl | hk
    · exact hkey
    · exact h.isKey k hk
  · simp only [FsMetaStore.put, writeTmp, pathFor]
    by_cases hne : k = key
    · subst hne
      rw [AList.lookup_insert, AList.lookup_insert]
    · have hfile : E.encode k ≠ E.encode key := fun heq => hne (E.encode_injective heq)
      rw [AList.lookup_insert_ne hne, AList.lookup_insert_ne hfile,
        AList.lookup_erase_ne (hk.ne_tmpName d), AList.lookup_insert_ne (hk.ne_tmpName d)]
      exact h.lookup k hk
  · simp only [FsMetaStore.put, writeTmp, pathFor] at hname
    rcases AList.mem_insert _ |>.1 hname with rfl | hname
    · exact .inl ⟨key, AList.mem_insert _ |>.2 (.inl rfl), rfl⟩
    · obtain ⟨hne, hname⟩ := AList.mem_erase.1 hname
      rcases AList.mem_insert _ |>.1 hname with rfl | hname
      · exact absurd rfl hne
      rcases h.named name hname with ⟨k, hk, rfl⟩ | htmp
      · exact .inl ⟨k, AList.mem_insert _ |>.2 (.inr hk), rfl⟩
      · exact .inr htmp

theorem Mirrors.delete (h : Mirrors E d s) (key : String) (hkey : IsKey key) :
    Mirrors E (d.delete E key).2 { s with blobs := s.blobs.erase key } := by
  refine ⟨fun k hk => h.isKey k (AList.mem_erase.1 hk).2, fun k hk => ?_, fun name hname => ?_⟩
  · simp only [FsMetaStore.delete, pathFor]
    by_cases hne : k = key
    · subst hne
      rw [AList.lookup_erase, AList.lookup_erase]
    · have hfile : E.encode k ≠ E.encode key := fun heq => hne (E.encode_injective heq)
      rw [AList.lookup_erase_ne hne, AList.lookup_erase_ne hfile]
      exact h.lookup k hk
  · obtain ⟨hne, hname⟩ := AList.mem_erase.1 hname
    rcases h.named name hname with ⟨k, hk, rfl⟩ | htmp
    · refine .inl ⟨k, AList.mem_erase.2 ⟨?_, hk⟩, rfl⟩
      rintro rfl
      exact hne rfl
    · exact .inr htmp

/-- A temporary file more, and another process. -/
theorem Mirrors.killed (h : Mirrors E d s) (left : Option Blob) (pid : ℕ) :
    Mirrors E (d.killed left pid) s := by
  cases left with
  | none => exact ⟨h.isKey, h.lookup, h.named⟩
  | some content =>
    refine ⟨h.isKey, fun k hk => ?_, fun name hname => ?_⟩
    · exact (AList.lookup_insert_ne (hk.ne_tmpName d)).trans (h.lookup k hk)
    · rcases AList.mem_insert _ |>.1 hname with rfl | hname
      · exact .inr (isTmp_tmpName d)
      · exact h.named name hname

/-! ## Listing -/

/-- No key that is to be listed ends as a temporary file does. -/
def NoneHidden (s : MemStore) (start : String) : Prop :=
  ∀ key ∈ s.blobs.keys, startsWith start key = true → endsInTmp key = false

instance : Decidable (NoneHidden s start) := List.decidableBAll ..

/-- **What is listed**: the keys that do not end as a temporary file does. -/
theorem Mirrors.mem_listKeys (h : Mirrors E d s) (start key : String) :
    (∃ name ∈ d.files.keys, (if endsInTmp name then none
        else (E.decode name).filter (startsWith start)) = some key) ↔
      key ∈ s.blobs.keys ∧ startsWith start key = true ∧ endsInTmp key = false := by
  constructor
  · rintro ⟨name, hname, hkey⟩
    split at hkey
    · cases hkey
    rename_i htmp
    obtain ⟨hdecode, hstart⟩ := Option.filter_eq_some_iff.1 hkey
    rcases h.named name hname with ⟨k, hk, rfl⟩ | hname
    · rw [E.decode_encode] at hdecode
      obtain rfl := Option.some.inj hdecode
      rw [endsInTmp_encode] at htmp
      exact ⟨hk, hstart, by simpa using htmp⟩
    · exact absurd hname.1 htmp
  · rintro ⟨hkey, hstart, htmp⟩
    have hfile : E.encode key ∈ d.files.keys := by
      rw [← AList.mem_keys, ← AList.lookup_isSome, h.lookup key (h.isKey key hkey),
        AList.lookup_isSome, AList.mem_keys]
      exact hkey
    refine ⟨_, hfile, ?_⟩
    rw [endsInTmp_encode, htmp, if_neg (by decide), E.decode_encode]
    simp [hstart]

/-! ## One call -/

/-- What a call needs of the keys in memory for its answer to be right. -/
def Right (s : MemStore) : MetaOp → Prop
  | .listKeys start => NoneHidden s start
  | _ => True

/-- **A listing is right** exactly when it hides nothing. -/
theorem Mirrors.same_listKeys_iff (h : Mirrors E d s) (start : String) :
    (MetaOp.onDisk E (.listKeys start) d).1.Same (MetaOp.inMemory (.listKeys start) s).1 ↔
      NoneHidden s start := by
  have hmem : ∀ key, key ∈ s.blobs.keys.filter (startsWith start) ↔
      key ∈ s.blobs.keys ∧ startsWith start key = true := fun key => List.mem_filter
  simp only [MetaOp.onDisk, MetaOp.inMemory, MemStore.exec, FsMetaStore.listKeys, MetaReply.Same,
    Except.map, Except.ok.injEq, Finset.ext_iff, List.mem_toFinset, List.mem_filterMap,
    h.mem_listKeys, hmem]
  constructor
  · intro hsame key hkey hstart
    exact ((hsame key).2 ⟨hkey, hstart⟩).2.2
  · intro hnone key
    exact ⟨fun hk => ⟨hk.1, hk.2.1⟩, fun hk => ⟨hk.1, hk.2, hnone key hk.1 hk.2⟩⟩

/-- **One call** is answered as in memory, unless it is a listing that hides
something; either way the directory goes on holding what the memory does. -/
theorem Mirrors.step (h : Mirrors E d s) (op : MetaOp) (hop : ∀ key ∈ op.key?, IsKey key) :
    ((op.onDisk E d).1.Same (op.inMemory s).1 ↔ Right s op) ∧
      Mirrors E (op.onDisk E d).2 (op.inMemory s).2 := by
  cases op with
  | get key => exact ⟨iff_of_true (congrArg _ (h.lookup key (hop key rfl))) trivial, h⟩
  | put key value => exact ⟨iff_of_true rfl trivial, h.put (hop key rfl) value⟩
  | delete key => exact ⟨iff_of_true rfl trivial, h.delete key (hop key rfl)⟩
  | listKeys start => exact ⟨h.same_listKeys_iff start, h⟩
  | crash left pid => exact ⟨iff_of_true trivial trivial, h.killed left pid⟩

/-! ## Every run -/

/-- **Every run.** -/
theorem Mirrors.run (ops : List MetaOp) (hops : ∀ op ∈ ops, ∀ key ∈ op.key?, IsKey key)
    (h : Mirrors E d s) :
    List.Forall₂ MetaReply.Same (MetaOp.run (MetaOp.onDisk E) ops d).1
        (MetaOp.run MetaOp.inMemory ops s).1 ↔
      ∀ before op after, ops = before ++ op :: after →
        Right (MetaOp.run MetaOp.inMemory before s).2 op := by
  induction ops generalizing d s with
  | nil =>
    refine iff_of_true .nil fun before op after heq => ?_
    exact absurd heq.symm (List.append_ne_nil_of_right_ne_nil _ (List.cons_ne_nil _ _))
  | cons op ops ih =>
    obtain ⟨hsame, hnext⟩ := h.step op (hops op List.mem_cons_self)
    have hrest := ih (fun op' hop => hops op' (List.mem_cons_of_mem _ hop)) hnext
    rw [MetaOp.run, MetaOp.run, List.forall₂_cons, hsame, hrest]
    constructor
    · rintro ⟨hright, hall⟩ before op' after heq
      rcases before with - | ⟨first, before⟩
      · obtain ⟨rfl, -⟩ := List.cons.inj heq
        exact hright
      · obtain ⟨rfl, hops'⟩ := List.cons.inj heq
        exact hall before op' after hops'
    · intro hall
      exact ⟨hall [] op ops rfl, fun before op' after heq =>
        hall (op :: before) op' after (congrArg _ heq)⟩

/-- **The metadata directory is a map exactly as long as no listing has a key
to list that ends as a temporary file does**: for every sequence of calls
with keys of the engine's, and with crashes anywhere, every answer is the
memory's if and only if no listing is made when it would hide a key. -/
theorem answers_same_iff (E : UrlEncoding) (pid : ℕ) (ops : List MetaOp)
    (hops : ∀ op ∈ ops, ∀ key ∈ op.key?, IsKey key) :
    List.Forall₂ MetaReply.Same (MetaOp.run (MetaOp.onDisk E) ops (opened pid)).1
        (MetaOp.run MetaOp.inMemory ops .empty).1 ↔
      ∀ before start after, ops = before ++ .listKeys start :: after →
        NoneHidden (MetaOp.run MetaOp.inMemory before .empty).2 start := by
  rw [(mirrors_opened E pid).run ops hops]
  constructor
  · intro hall before start after heq
    exact hall before (.listKeys start) after heq
  · intro hall before op after heq
    cases op with
    | listKeys start => exact hall before start after heq
    | get _ | put _ _ | delete _ | crash _ _ => trivial

/-- Metadata for `b.tmp` and `a.txt` is stored, one put is cut short, and the
keys are listed. -/
def tmpListed : List MetaOp :=
  [.put (fileKey "b.tmp") (.checkpoint 0), .put (fileKey "a.txt") (.checkpoint 0),
    .crash (some (.checkpoint 1)) 7, .listKeys "file/"]

/-- **The metadata of `b.tmp` is there but not listed.** -/
theorem tmp_key_not_listed :
    (∀ op ∈ tmpListed, ∀ key ∈ op.key?, key ∈ [fileKey "b.tmp", fileKey "a.txt"]) ∧
      ((MetaOp.run (MetaOp.onDisk .percent) tmpListed (opened 1)).2.get .percent
        (fileKey "b.tmp")).toOption = some (some (.checkpoint 0)) ∧
      ¬ List.Forall₂ MetaReply.Same
        (MetaOp.run (MetaOp.onDisk .percent) tmpListed (opened 1)).1
        (MetaOp.run MetaOp.inMemory tmpListed .empty).1 := by
  decide +kernel

/-- The metadata of a nested file is stored twice, once in vain, and listed. -/
def nestedListed : List MetaOp :=
  [.put keyPending (.queue []), .put (fileKey "notes/a b.txt") (.checkpoint 0),
    .crash (some (.checkpoint 1)) 7, .put (fileKey "notes/a b.txt") (.checkpoint 2),
    .listKeys "file/", .delete (fileKey "notes/a b.txt"), .get (fileKey "notes/a b.txt")]

theorem nested_key_listed :
    List.Forall₂ MetaReply.Same (MetaOp.run (MetaOp.onDisk .percent) nestedListed (opened 1)).1
        (MetaOp.run MetaOp.inMemory nestedListed .empty).1 ↔
      ∀ before start after, nestedListed = before ++ .listKeys start :: after →
        NoneHidden (MetaOp.run MetaOp.inMemory before .empty).2 start := by
  refine answers_same_iff .percent 1 nestedListed fun op hop key hkey => ?_
  have hkeys : key = keyPending ∨ key = fileKey "notes/a b.txt" := by
    revert op key
    decide
  rcases hkeys with rfl | rfl
  exacts [.inl rfl, .inr (.inr ⟨_, rfl⟩)]

end Bookkeeping

end FileSync
