import FileSync.Client.Device
import FileSync.Hub.Updates
/-!
# What an accepted upsert overwrites

An upsert is queued with the revision its path was last synced at, and the
hub writes it on top of that revision if it is current. What the revision
shows is gone then, so the device should have had it. It has if the
revision is one its own push made, or one it pulled. But a push that was
stale is answered the revision the hub's resolution ended in, and this is
the base of the next edit whether or not a pull has brought its content.

The state carries what each path has held on each device. The devices share
one hub, where others may write too.
-/

namespace FileSync

/-- The call fetches a file. -/
def EngineReq.fetches ⦃β : Type⦄ : EngineReq β → Bool
  | .hubGetFile .. => true
  | _ => false

namespace HeldContent

/-- A request made for a device, and whether a file is being fetched. -/
structure Req (β : Type) where
  fetching : Bool
  req : NetReq β

/-- What an engine's call comes to. -/
def opened (env : HubEnv) (origin : Origin) ⦃β : Type⦄ (e : EngineReq β) : Prog Req β :=
  (NetReq.opened env origin e).expand fun _ req => .perform ⟨e.fetches, req⟩

/-- One operation of the device after another, whatever became of the last. -/
def script (env : HubEnv) (eng : SyncEngine) : List DeviceCall → Prog Req Unit
  | [] => .done ()
  | c :: calls => (c.run eng).run.expand (opened env c.origin) >>= fun _ => script env eng calls

/-- An upsert accepted on top of the current revision: what that revision
shows, and what the path had held on the device before the upsert was
recorded. -/
structure Overwrite where
  path : Path
  base : Rev
  shown : Option Bytes
  held : List Bytes
deriving DecidableEq, Repr

structure State (ι : Type) where
  net : Net ι
  /-- Every content a path has held on a device. -/
  had : ι → Path → List Bytes
  /-- Those it had held when its last change was recorded. -/
  before : ι → Path → List Bytes
  /-- The revision the last file that was fetched was said to be. -/
  looked : ι → Option Rev
  /-- Revisions named to a device without what they show: read back after a
  stale push, or fetched with the content of another one. -/
  named : ι → List (Path × Rev)
  overwrites : List Overwrite

namespace State

variable {ι : Type} (s : State ι) (i : ι)

/-- The device's stores. -/
abbrev store : MemStore := s.net.stores i

/-- A document at a hub. -/
abbrev tree (hub : HubId) (path : Path) : Tree := (s.net.hubs hub).docs path

def hadAfter : ∀ ⦃β : Type⦄, NetReq β → Path → List Bytes
  | _, .store _ (.filePut path data _) => Function.update (s.had i) path (data :: s.had i path)
  | _, _ => s.had i

def beforeAfter : ∀ ⦃β : Type⦄, NetReq β → Path → List Bytes
  | _, .store .record (.filePut path _ _) => Function.update (s.before i) path (s.had i path)
  | _, _ => s.before i

def lookedAfter : ∀ ⦃β : Type⦄, Req β → Delivery → Option Rev
  | _, ⟨true, .couch hub (.getDoc path)⟩, .delivered => (s.tree hub path).visible.map Node.rev
  | _, _, _ => s.looked i

/-- What is named to the device. -/
def names : ∀ ⦃β : Type⦄, Req β → Delivery → List (Path × Rev)
  | _, ⟨false, .couch hub (.getDoc path)⟩, .delivered =>
    ((s.tree hub path).visible.map fun w => (path, w.rev)).toList
  | _, ⟨true, .couch hub (.getAttachment path none)⟩, .delivered =>
    ((s.looked i).toList.filter fun r =>
      (s.tree hub path).content? (some r) ≠ (s.tree hub path).content? none).map (path, ·)
  | _, _, _ => []

/-- What is overwritten for the device. -/
def overwritten : ∀ ⦃β : Type⦄, NetReq β → Delivery → List Overwrite
  | _, .couch hub (.putDoc .push path (some base) _), o =>
    if o ≠ .unsent ∧ ((s.tree hub path).leaf? base).isSome then
      [⟨path, base, (s.tree hub path).content? (some base), s.before i path⟩]
    else []
  | _, _, _ => []

end State

/-- A revision that others write at a hub. -/
structure Arrival where
  hub : HubId
  path : Path
  node : Node

variable {ι : Type}

/-- **What was overwritten had been held.** -/
def OverwritesHeld (s : State ι) : Prop :=
  ∀ w ∈ s.overwrites, ∀ bytes ∈ w.shown, bytes ∈ w.held

instance (s : State ι) : Decidable (OverwritesHeld s) :=
  inferInstanceAs (Decidable (∀ w ∈ _, _))

/-- The hub has the revision, and what it shows, if anything, is one of
these. -/
def Shows (hub : HubId) (path : Path) (rev : Rev) (contents : List Bytes) (s : State ι) : Prop :=
  ((s.tree hub path).find? rev).isSome ∧
    ∀ bytes ∈ (s.tree hub path).content? (some rev), bytes ∈ contents

instance (hub : HubId) (path : Path) (rev : Rev) (contents : List Bytes) (s : State ι) :
    Decidable (Shows hub path rev contents s) :=
  inferInstanceAs (Decidable (_ ∧ _))

/-- Where a path's revision was only named to the device, the path has held
what it shows. -/
def BaseHeld (i : ι) (hub : HubId) (path : Path) (s : State ι) : Prop :=
  ∀ m ∈ (s.store i).fileMeta? path, ∀ rev ∈ m.rev,
    (path, rev) ∈ s.named i → Shows hub path rev (s.had i path) s

instance (i : ι) (hub : HubId) (path : Path) (s : State ι) :
    Decidable (BaseHeld i hub path s) :=
  inferInstanceAs (Decidable (∀ m ∈ _, _))

/-- The path an upsert is being recorded for. -/
def upserts : ∀ ⦃β : Type⦄, NetReq β → Option Path
  | _, .store .record (.filePut path _ _) => some path
  | _, _ => none

/-- No upsert is recorded on a revision that was only named. -/
def RecordsOnHeld (hub : HubId) : StepCond ι Req Delivery Arrival (State ι) where
  call i _ e _ s := ∀ path ∈ upserts e.req, BaseHeld i hub path s
  env _ _ := True

instance {hub : HubId} {β : Type} {e : Req β} {i : ι} {o : Delivery} {s : State ι} :
    Decidable ((RecordsOnHeld hub).call i e o s) :=
  inferInstanceAs (Decidable (∀ path ∈ upserts e.req, _))

instance {hub : HubId} {a : Arrival} {s : State ι} : Decidable ((RecordsOnHeld hub).env a s) :=
  inferInstanceAs (Decidable True)

variable [DecidableEq ι]

/-- The devices and the hub together, with what each path has held. -/
def semantics (C : Couch) : Semantics ι Req Delivery Arrival (State ι) where
  exec i _ e o s :=
    let r := Net.exec C i e.req o s.net
    (r.1, { net := r.2
            had := Function.update s.had i (s.hadAfter i e.req)
            before := Function.update s.before i (s.beforeAfter i e.req)
            looked := Function.update s.looked i (s.lookedAfter i e o)
            named := Function.update s.named i (s.named i ++ s.names i e o)
            overwrites := s.overwrites ++ s.overwritten i e.req o })
  env a s := { s with
    net.hubs := Function.update s.net.hubs a.hub ((s.net.hubs a.hub).write a.path a.node) }

/-! ## What a device keeps -/

variable {C : Couch} {env : HubEnv} {eng : SyncEngine} {origin : Origin} {i j : ι} {hub : HubId}
  {s s' : State ι} {path : Path} {rev : Rev} {l l' : List Bytes} {but : Path → Prop}
  {α β ε ε' : Type} {P Q B : State ι → Prop} {M : α → State ι → Prop}

/-- The revision was only named to the device, or the path has held what it
shows. -/
def Accounted (i : ι) (hub : HubId) (path : Path) (rev : Option Rev) (s : State ι) : Prop :=
  ∀ r ∈ rev, (path, r) ∈ s.named i ∨ Shows hub path r (s.had i path) s

/-- **Every revision a device could write on is accounted for**, and every
upsert it has queued has its file, some paths excepted. -/
structure Keeps (i : ι) (hub : HubId) (but : Path → Prop) (s : State ι) : Prop where
  files : ∀ p, ∀ bytes ∈ (s.store i).files.lookup p, bytes ∈ s.had i p
  before : ∀ p, s.before i p ⊆ s.had i p
  synced : ∀ p, ∀ m ∈ (s.store i).fileMeta? p, Accounted i hub p m.rev s
  queued : ∀ c ∈ (s.store i).pending, c.deleted = false → ∀ r ∈ c.baseRev,
    Shows hub c.path r (s.before i c.path) s
  present : ∀ c ∈ (s.store i).pending, c.deleted = false → ¬ but c.path →
    ((s.store i).files.lookup c.path).isSome

/-- The hub goes on, and the device is told no less. -/
structure Forward (i : ι) (hub : HubId) (s s' : State ι) : Prop where
  had : s'.had i = s.had i
  before : s'.before i = s.before i
  named : s.named i ⊆ s'.named i
  docs : ∀ p, s.tree hub p <+: s'.tree hub p

/-- And the device's own state is the same in all that `Keeps` is about. -/
structure Onward (i : ι) (hub : HubId) (s s' : State ι) : Prop extends Forward i hub s s' where
  files : (s'.store i).files = (s.store i).files
  pending : (s'.store i).pending = (s.store i).pending
  fileMeta : ∀ p, (s'.store i).fileMeta? p = (s.store i).fileMeta? p

/-- What holds on. -/
def Lasts (i : ι) (hub : HubId) (P : State ι → Prop) : Prop :=
  ∀ ⦃s s'⦄, P s → Onward i hub s s' → P s'

omit [DecidableEq ι] in
theorem Lasts.and (hP : Lasts i hub P) (hQ : Lasts i hub Q) : Lasts i hub fun s => P s ∧ Q s :=
  fun _ _ hs h => ⟨hP hs.1 h, hQ hs.2 h⟩

omit [DecidableEq ι] in
/-- What a revision shows, it goes on showing. -/
theorem Shows.onward (h : Shows hub path rev l s) (hdocs : s.tree hub path <+: s'.tree hub path)
    (hl : l ⊆ l') : Shows hub path rev l' s' := by
  obtain ⟨hsome, hshows⟩ := h
  obtain ⟨n, hn⟩ := Option.isSome_iff_exists.1 hsome
  have hn' : (s'.tree hub path).find? rev = some n := Tree.find?_of_grown hdocs hn
  refine ⟨by rw [hn']; rfl, fun bytes hbytes => hl (hshows bytes ?_)⟩
  simp only [Tree.content?, Option.elim_some, hn, hn'] at hbytes ⊢
  exact hbytes

omit [DecidableEq ι] in
theorem Accounted.forward {rev : Option Rev} (hs : Accounted i hub path rev s)
    (h : Forward i hub s s') : Accounted i hub path rev s' := by
  intro r hr
  rcases hs r hr with hn | hshows
  · exact .inl (h.named hn)
  · rw [h.had]
    exact .inr (hshows.onward (h.docs path) (List.Subset.refl _))

omit [DecidableEq ι] in
/-- New metadata is kept if its revision is accounted for. -/
theorem Keeps.forward (hs : Keeps i hub but s) (h : Forward i hub s s')
    (hfiles : (s'.store i).files = (s.store i).files)
    (hpending : (s'.store i).pending = (s.store i).pending)
    (hmeta : ∀ p, ∀ m ∈ (s'.store i).fileMeta? p,
      m ∈ (s.store i).fileMeta? p ∨ Accounted i hub p m.rev s) : Keeps i hub but s' := by
  refine ⟨fun p => ?_, fun p => ?_, fun p m hm => ?_, ?_, ?_⟩
  · rw [hfiles, h.had]
    exact hs.files p
  · rw [h.before, h.had]
    exact hs.before p
  · rcases hmeta p m hm with hold | hnew
    · exact (hs.synced p m hold).forward h
    · exact hnew.forward h
  · rw [hpending, h.before]
    exact fun c hc hd r hr => (hs.queued c hc hd r hr).onward (h.docs _) (List.Subset.refl _)
  · rw [hpending, hfiles]
    exact hs.present

omit [DecidableEq ι] in
theorem lasts_keeps : Lasts i hub (Keeps i hub but) := fun _ _ hs h =>
  hs.forward h.toForward h.files h.pending fun p m hm => .inl (by rwa [h.fileMeta] at hm)

omit [DecidableEq ι] in
theorem Keeps.mono {but' : Path → Prop} (hs : Keeps i hub but s) (h : ∀ p, but p → but' p) :
    Keeps i hub but' s :=
  { hs with present := fun c hc hd hb => hs.present c hc hd fun hp => hb (h _ hp) }

/-- What the others tolerate: they go on, and keep their word about what is
overwritten. -/
def contract (hub : HubId) : Contract ι (State ι) where
  rely i s s' := Onward i hub s s' ∧ s'.looked i = s.looked i
  guar i s s' := (∀ j, j ≠ i → Onward j hub s s' ∧ s'.looked j = s.looked j) ∧
    (OverwritesHeld s → OverwritesHeld s')

omit [DecidableEq ι] in
theorem Lasts.stable (h : Lasts i hub P) : (contract hub).Stable i P :=
  fun _ _ hs hrely => h hs hrely.1

/-! ## What the steps do -/

theorem docs_exec {e : Req β} (o : Delivery) (s : State ι) (p : Path) :
    s.tree hub p <+: ((semantics C).exec i e o s).2.tree hub p := by
  obtain ⟨fetching, e⟩ := e
  cases e with
  | store origin e => exact List.prefix_rfl
  | link e => exact List.prefix_rfl
  | couch k e =>
    have hanswer : s.tree hub p <+:
        (Function.update s.net.hubs k (C.answer e (s.net.hubs k)).2 hub).docs p := by
      by_cases hk : hub = k
      · subst hk
        rw [Function.update_self]
        exact C.docs_answer e _ p
      · rw [Function.update_of_ne hk]
    cases o with
    | delivered => exact hanswer
    | unsent => exact List.prefix_rfl
    | unanswered => exact hanswer

theorem store_exec {e : Req β} (o : Delivery) (s : State ι) (h : j ≠ i) :
    ((semantics C).exec i e o s).2.store j = s.store j := by
  obtain ⟨fetching, e⟩ := e
  cases e with
  | store origin e => exact Function.update_of_ne h ..
  | link e => rfl
  | couch k e => cases o <;> rfl

/-- **The others go on**, whatever is done. -/
theorem onward_other {e : Req β} (o : Delivery) (s : State ι) (h : j ≠ i) :
    Onward j hub s ((semantics C).exec i e o s).2 ∧
      ((semantics C).exec i e o s).2.looked j = s.looked j := by
  have hstore := store_exec (C := C) (e := e) o s h
  refine ⟨⟨⟨Function.update_of_ne h .., Function.update_of_ne h .., ?_, docs_exec o s⟩,
    by rw [hstore], by rw [hstore], fun p => by rw [hstore]⟩, Function.update_of_ne h ..⟩
  have hnamed : ((semantics C).exec i e o s).2.named j = s.named j := Function.update_of_ne h ..
  rw [hnamed]
  exact List.Subset.refl _

theorem fits {D : StepCond ι Req Delivery Arrival (State ι)} :
    (contract hub).Fits (semantics C) D where
  guar_rely i j hne s s' h := h.1 j hne.symm
  env_rely i a s _ := by
    refine ⟨⟨⟨rfl, rfl, List.Subset.refl _, fun p => ?_⟩, rfl, rfl, fun _ => rfl⟩, rfl⟩
    show s.tree hub p <+: (Function.update s.net.hubs a.hub _ hub).docs p
    by_cases hk : hub = a.hub
    · subst hk
      rw [Function.update_self]
      by_cases hp : p = a.path
      · rw [hp, Db.write_docs_self]
        exact List.prefix_append _ _
      · rw [Db.write_docs_of_ne hp]
    · rw [Function.update_of_ne hk]

/-- The request is no conditional write of a push. -/
def Plain : ∀ ⦃β : Type⦄, NetReq β → Prop
  | _, .couch _ (.putDoc .push ..) => False
  | _, _ => True

omit [DecidableEq ι] in
theorem overwritten_of_plain {e : NetReq β} (he : Plain e) (o : Delivery) (s : State ι) :
    s.overwritten i e o = [] := by
  cases e with
  | store origin e => rfl
  | link e => rfl
  | couch k e =>
    cases e with
    | putDoc caller id rev body =>
      cases caller with
      | push => exact he.elim
      | resolver => rfl
    | _ => rfl

/-- **What is overwritten** had been held, if it is at this request. -/
theorem guar_exec {b : Bool} {e : NetReq β} (o : Delivery) (s : State ι)
    (h : ∀ w ∈ s.overwritten i e o, ∀ bytes ∈ w.shown, bytes ∈ w.held) :
    (contract hub).guar i s ((semantics C).exec i ⟨b, e⟩ o s).2 := by
  refine ⟨fun j hne => onward_other o s hne, fun hs w hw => ?_⟩
  rcases List.mem_append.1 hw with hw | hw
  exacts [hs w hw, h w hw]

theorem guar_plain {b : Bool} {e : NetReq β} (he : Plain e) (o : Delivery) (s : State ι) :
    (contract hub).guar i s ((semantics C).exec i ⟨b, e⟩ o s).2 := by
  refine guar_exec o s fun w hw => ?_
  rw [overwritten_of_plain he] at hw
  exact absurd hw List.not_mem_nil

theorem named_exec {e : Req β} (o : Delivery) (s : State ι) :
    ((semantics C).exec i e o s).2.named i = s.named i ++ s.names i e o :=
  Function.update_self ..

/-- A request that writes no file leaves what the paths have held. -/
theorem forward_exec {b : Bool} {e : NetReq β} (o : Delivery) (s : State ι)
    (hhad : s.hadAfter i e = s.had i) (hbefore : s.beforeAfter i e = s.before i) :
    Forward i hub s ((semantics C).exec i ⟨b, e⟩ o s).2 := by
  refine ⟨?_, ?_, ?_, docs_exec o s⟩
  · show Function.update s.had i (s.hadAfter i e) i = s.had i
    rw [Function.update_self, hhad]
  · show Function.update s.before i (s.beforeAfter i e) i = s.before i
    rw [Function.update_self, hbefore]
  · rw [named_exec]
    exact List.subset_append_left _ _

theorem onward_couch {b : Bool} {e : CouchReq β} (k : HubId) (o : Delivery) (s : State ι) :
    Onward i hub s ((semantics C).exec i ⟨b, .couch k e⟩ o s).2 := by
  have hstore : ((semantics C).exec i ⟨b, .couch k e⟩ o s).2.store i = s.store i := by
    cases o <;> rfl
  exact ⟨forward_exec o s rfl rfl, by rw [hstore], by rw [hstore], fun p => by rw [hstore]⟩

theorem onward_message {b : Bool} (k : HubId) (o : Delivery) (s : State ι) :
    Onward i hub s ((semantics C).exec i ⟨b, .link (.message k)⟩ o s).2 :=
  ⟨forward_exec o s rfl rfl, rfl, rfl, fun _ => rfl⟩

/-- The operation writes no file, no metadata of one and not the queue, and
asks no hub. -/
def Quiet ⦃β : Type⦄ : EngineReq β → Prop
  | .metaPut key _ => key ≠ keyPending ∧ ∀ path, key ≠ fileKey path
  | .metaDelete key => key ≠ keyPending ∧ ∀ path, key ≠ fileKey path
  | .filePut .. => False
  | .fileDelete _ => False
  | .hubChanges .. => False
  | .hubGetFile .. => False
  | .hubPush .. => False
  | _ => True

theorem opened_quiet {e : EngineReq β} (he : Quiet e) :
    opened env origin e = .perform ⟨false, .store origin e⟩ := by
  cases e with
  | filePut | fileDelete | hubChanges | hubGetFile | hubPush => exact he.elim
  | _ => rfl

theorem onward_quiet {e : EngineReq β} (he : Quiet e) (o : Delivery) (s : State ι) :
    Onward i hub s ((semantics C).exec i ⟨false, .store origin e⟩ o s).2 := by
  have hstore : ((semantics C).exec i ⟨false, .store origin e⟩ o s).2.store i =
      (MemStore.exec e .unreachable (s.store i)).2 := Function.update_self ..
  have hblobs : ∀ key, (key = keyPending ∨ ∃ p, key = fileKey p) →
      (MemStore.exec e .unreachable (s.store i)).2.blobs.lookup key =
        (s.store i).blobs.lookup key := by
    intro key hkey
    have hne : ∀ key', (key' ≠ keyPending ∧ ∀ p, key' ≠ fileKey p) → key ≠ key' := by
      rintro key' ⟨h, h'⟩ rfl
      rcases hkey with rfl | ⟨p, rfl⟩
      exacts [h rfl, h' p rfl]
    cases e with
    | metaPut key' value => exact AList.lookup_insert_ne (hne key' he)
    | metaDelete key' => exact AList.lookup_erase_ne (hne key' he)
    | _ => rfl
  refine ⟨forward_exec o s ?_ ?_, ?_, ?_, fun p => ?_⟩
  · cases e with
    | filePut => exact he.elim
    | _ => rfl
  · cases e with
    | filePut => exact he.elim
    | _ => cases origin <;> rfl
  · rw [hstore]
    cases e with
    | filePut | fileDelete => exact he.elim
    | _ => rfl
  · rw [hstore]
    unfold MemStore.pending
    rw [hblobs _ (.inl rfl)]
  · rw [hstore]
    unfold MemStore.fileMeta?
    rw [hblobs _ (.inr ⟨p, rfl⟩)]

/-! ## Programs, step by step -/

/-- What an engine's program does as part of an operation of the device. -/
abbrev EngineDoes (C : Couch) (env : HubEnv) (hub : HubId) (origin : Origin) (i : ι)
    (P : State ι → Prop) (x : Engine α) (B : State ι → Prop) (M : α → State ι → Prop) : Prop :=
  Does (semantics C) (RecordsOnHeld hub) (contract hub) i (opened env origin) P x (Post B M)

/-- What the hub's program does for a device. -/
abbrev HubDoes (C : Couch) (hub : HubId) (fetching : Bool) (i : ι) (P : State ι → Prop)
    (x : Hub ε α) (B : State ι → Prop) (M : α → State ι → Prop) : Prop :=
  Does (semantics C) (RecordsOnHeld hub) (contract hub) i
    (fun _ e => .perform ⟨fetching, .couch hub e⟩) P x (Post B M)

/-- An operation on one's own stores does not fail. -/
theorem does_store {e : EngineReq (Except StoreError α)} {g : StoreError → SyncError}
    (hopen : opened env origin e = .perform ⟨false, .store origin e⟩)
    (hok : ∀ t, ∃ a, (MemStore.exec e .unreachable t).1 = .ok a) (hB : Lasts i hub B)
    (hM : ∀ a, Lasts i hub (M a)) (hstep : ∀ o s, P s →
      (RecordsOnHeld hub).call i ⟨false, .store origin e⟩ o s → ∀ a,
        (MemStore.exec e .unreachable (s.store i)).1 = .ok a →
          M a ((semantics C).exec i ⟨false, .store origin e⟩ o s).2) :
    EngineDoes C env hub origin i P (.ask g e) B M := by
  refine Does.ask_perform hopen hB.stable (fun a => (hM a).stable) fun o s hs ho =>
    ⟨guar_plain (e := .store origin e) trivial o s, fun a ha => hstep o s hs ho a ha, fun x hx => ?_⟩
  obtain ⟨a, ha⟩ := hok (s.store i)
  have hanswer : (MemStore.exec e .unreachable (s.store i)).1 = .error x := hx
  rw [ha] at hanswer
  cases hanswer

/-- A quiet one, and what it answers. -/
theorem does_quiet {e : EngineReq (Except StoreError α)} {g : StoreError → SyncError}
    (he : Quiet e) (hok : ∀ t, ∃ a, (MemStore.exec e .unreachable t).1 = .ok a)
    (hB : Lasts i hub B) (hM : ∀ a, Lasts i hub (M a)) (hstep : ∀ s, P s → ∀ a,
      (MemStore.exec e .unreachable (s.store i)).1 = .ok a → M a s) :
    EngineDoes C env hub origin i P (.ask g e) B M :=
  does_store (opened_quiet he) hok hB hM fun o s hs _ a ha =>
    hM a (hstep s hs a ha) (onward_quiet he o s)

theorem triple_quiet {e : EngineReq β} (he : Quiet e) (hP : Lasts i hub P) :
    Triple (semantics C) (RecordsOnHeld hub) (contract hub) i P (opened env origin e)
      fun _ => P := by
  rw [opened_quiet he]
  exact Triple.perform (fun _ => hP.stable) fun o s hs _ =>
    ⟨guar_plain (e := .store origin e) trivial o s, hP hs (onward_quiet he o s)⟩

theorem does_pure {a : α} (hM : Lasts i hub (M a)) (hP : ∀ s, P s → M a s) :
    EngineDoes C env hub origin i P (pure a : Engine α) B M :=
  Does.pure hM.stable hP

/-- Loading the queue. -/
theorem does_loadPending (hP : Lasts i hub P) (hB : Lasts i hub B) :
    EngineDoes C env hub origin i P SyncEngine.loadPending B fun l s =>
      P s ∧ (s.store i).pending = l := by
  have hM : ∀ l, Lasts i hub fun s => P s ∧ (s.store i).pending = l := fun l =>
    hP.and fun _ _ hs h => h.pending.trans hs
  unfold SyncEngine.loadPending
  refine Does.bind (fun v s => P s ∧ (s.store i).pending = (v.bind Blob.toQueue?).getD [])
    hB.stable (does_quiet trivial (fun _ => ⟨_, rfl⟩) hB (fun _ => hM _) ?_) fun v => ?_
  · rintro s hs v ⟨⟩
    exact ⟨hs, rfl⟩
  · cases v with
    | none => exact does_pure (hM _) fun _ h => h
    | some bytes => exact does_pure (hM _) fun _ h => h

/-- **A request that is no conditional write**: whether it is answered or
not, what holds on holds on. -/
theorem triple_couch {e : CouchReq β} {b : Bool} {M : β → State ι → Prop}
    (he : Plain (.couch hub e)) (hM : ∀ a, (contract hub).Stable i (M a))
    (hlost : ∀ o s, P s → M e.lost ((semantics C).exec i ⟨b, .couch hub e⟩ o s).2)
    (hstep : ∀ s, P s → M (C.answer e (s.net.hubs hub)).1
      ((semantics C).exec i ⟨b, .couch hub e⟩ .delivered s).2) :
    Triple (semantics C) (RecordsOnHeld hub) (contract hub) i P
      (.perform ⟨b, .couch hub e⟩) M := by
  refine Triple.perform hM fun o s hs _ => ⟨guar_plain he o s, ?_⟩
  cases o with
  | delivered => exact hstep s hs
  | unsent => exact hlost .unsent s hs
  | unanswered => exact hlost .unanswered s hs

/-- A hub's program without such writes keeps what holds on. -/
theorem does_plainly {b : Bool} {x : Hub ε α} (hP : Lasts i hub P)
    (hx : Fallible.All (fun _ e => Plain (.couch hub e)) x) :
    HubDoes C hub b i P x P fun _ => P :=
  Does.of_all hP.stable (fun _ _ he => Triple.perform (fun _ => hP.stable) fun o s hs _ =>
    ⟨guar_plain he o s, hP hs (onward_couch hub o s)⟩) hx

/-- Reading a document: what holds of the visible revision then holds of the
one that is answered. -/
theorem does_getDoc {b : Bool} {N : Rev → State ι → Prop} (hP : Lasts i hub P)
    (hN : ∀ r, (contract hub).Stable i (N r))
    (hfound : ∀ s, P s → ∀ w, (s.tree hub path).visible = some w →
      N w.rev ((semantics C).exec i ⟨b, .couch hub (.getDoc path)⟩ .delivered s).2) :
    HubDoes C hub b i P (CouchClient.getDoc path) P fun doc s =>
      P s ∧ ∀ d ∈ doc, N d.rev s := by
  have hM : ∀ doc : Option Doc, (contract hub).Stable i fun s => P s ∧ ∀ d ∈ doc, N d.rev s :=
    fun doc s s' hs h => ⟨hP.stable hs.1 h, fun d hd => hN _ (hs.2 d hd) h⟩
  have hread : Triple (semantics C) (RecordsOnHeld hub) (contract hub) i P
      (.perform ⟨b, .couch hub (.getDoc path)⟩) fun r s =>
        P s ∧ ∀ doc, r = .ok doc → N doc.rev s := by
    refine triple_couch trivial (fun r s s' hs h => ⟨hP.stable hs.1 h, fun doc hr =>
      hN _ (hs.2 doc hr) h⟩) (fun o s hs => ⟨hP hs (onward_couch hub o s),
        fun doc h => by cases h⟩) fun s hs => ⟨hP hs (onward_couch hub .delivered s),
          fun doc hdoc => ?_⟩
    simp only [Couch.answer, Tree.doc?] at hdoc
    cases hvis : (s.tree hub path).visible with
    | none =>
      rw [hvis] at hdoc
      cases hdoc
    | some w =>
      rw [hvis] at hdoc
      obtain rfl := Except.ok.inj hdoc
      exact hfound s hs w hvis
  refine Triple.bind _ hread fun r => ?_
  show Triple _ _ _ _ _ (.done (CouchClient.orMissing none (r.map some))) _
  cases hr : CouchClient.orMissing none (r.map some) with
  | error x => exact Triple.done (Q := Post P _) hP.stable fun s hs => hs.1
  | ok doc =>
    refine Triple.done (Q := Post P _) (hM doc) fun s hs => ⟨hs.1, fun d hd => ?_⟩
    obtain rfl := Option.mem_def.1 hd
    exact hs.2 d (CouchClient.orMissing_eq_ok_some hr)

/-- **A request to the hub, there and back.** -/
theorem triple_overLink {p : Prog CouchReq (Except HubError α)} {b : Bool} (hP : Lasts i hub P)
    (hB : Lasts i hub B) (hM : ∀ a, Lasts i hub (M a)) (hPB : ∀ s, P s → B s)
    (hMB : ∀ a s, M a s → B s) (hp : HubDoes C hub b i P (.mk p) B M) :
    Triple (semantics C) (RecordsOnHeld hub) (contract hub) i P
      ((NetReq.overLink hub p).expand fun _ req => .perform ⟨b, req⟩)
      (Post B M : Except HubError α → State ι → Prop) := by
  have hmessage : ∀ {Q : State ι → Prop}, Lasts i hub Q →
      Triple (semantics C) (RecordsOnHeld hub) (contract hub) i Q
        (.perform ⟨b, .link (.message hub)⟩) fun _ => Q := fun hQ =>
    Triple.perform (fun _ => hQ.stable) fun o s hs _ =>
      ⟨guar_plain (e := .link (.message hub)) trivial o s, hQ hs (onward_message hub o s)⟩
  have hfailed : ∀ {Q : State ι → Prop}, (∀ s, Q s → B s) → ∀ x,
      Triple (semantics C) (RecordsOnHeld hub) (contract hub) i Q (.done (.error x))
        (Post B M : Except HubError α → State ι → Prop) :=
    fun h x => Triple.done (Q := Post B M) hB.stable h
  unfold NetReq.overLink
  rw [Prog.expand_bind]
  refine Triple.bind _ (hmessage hP) fun sent => ?_
  split
  · rw [Prog.expand_bind, NetReq.onHub, Prog.expand_expand]
    refine Triple.bind (Post B M) hp fun r => ?_
    rw [Prog.expand_bind]
    cases r with
    | error x =>
      refine Triple.bind _ (hmessage hB) fun answered => ?_
      split
      · exact hfailed (fun _ h => h) x
      · exact hfailed (fun _ h => h) _
    | ok a =>
      refine Triple.bind _ (hmessage (hM a)) fun answered => ?_
      split
      · exact Triple.done (Q := Post B M) (hM a).stable fun _ h => h
      · exact hfailed (hMB a) _
  · exact hfailed hPB _

end HeldContent

end FileSync
