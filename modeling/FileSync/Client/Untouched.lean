import FileSync.Client.WebPage
/-!
# Files nobody names

The engine never touches a file that was not queued when it began, is not
named by a call, and is not listed by a hub: whatever runs beside whatever,
its bytes and its metadata stay as they are. A browser's stores keep it so
too, as long as its path and those that are named do not meet.
-/

namespace FileSync

open SyncEngine (Within)
open WebStores (Mirrors)

/-- The page's calls share the browser's stores. -/
def WebStores.shared (P : Platform) (E : UrlEncoding) (ι : Type) :
    Semantics ι EngineReq HubAnswers Empty WebStores where
  exec _ _ e o s := WebStores.exec P E e o s
  env a := a.elim

/-- The call keeps to these paths, or lists. -/
def EngineReq.Spares (paths : Set Path) ⦃β : Type⦄ : EngineReq β → Prop
  | .metaListKeys _ => True
  | e => e.KeepsTo paths

namespace WebCall

variable {ι : Type} {paths : Set Path} {path : Path} {eng : SyncEngine} {s : MemStore}
  {P : Platform} {E : UrlEncoding}

theorem spares_of_keepsTo ⦃β : Type⦄ (e : EngineReq β) (h : e.KeepsTo paths) :
    e.Spares paths := by
  cases e with
  | metaListKeys start => exact h.elim
  | _ => exact h

/-- Every call of a page keeps to the paths that are named. -/
theorem given_prog (eng : SyncEngine) {call : WebCall} (hcall : ∀ path ∈ call.path?, path ∈ paths) :
    Fallible.Given (EngineReq.Spares paths) (EngineReq.NamesOnly paths) (fun _ => True)
      (call.prog eng) := by
  have hwithin : ∀ {α : Type} {x : Engine α}, Within paths (fun _ => True) x →
      Fallible.Given (EngineReq.Spares paths) (EngineReq.NamesOnly paths) (fun _ => True) x :=
    fun h => Prog.Given.mono spares_of_keepsTo (fun _ hr => hr) h
  cases call with
  | sync => exact .bind (hwithin SyncEngine.within_sync) fun _ _ => .pure trivial
  | listFiles =>
    have hlist : Fallible.Given (EngineReq.Spares paths) (EngineReq.NamesOnly paths)
        (fun _ => True) SyncEngine.listFilePaths :=
      .bind (G := fun _ => True) (.ask (e := EngineReq.metaListKeys "file/") _ trivial fun _ _ => trivial)
        fun _ _ => .pure trivial
    exact .bind hlist fun _ _ => .pure trivial
  | readFile path =>
    exact .bind (hwithin (SyncEngine.within_readFile (hcall path rfl))) fun _ _ => .pure trivial
  | putFile path mtime contentType data =>
    exact .bind (hwithin (SyncEngine.within_recordUpsert (hcall path rfl) mtime contentType data))
      fun _ _ => .pure trivial
  | deleteFile path mtime =>
    exact .bind (hwithin (SyncEngine.within_recordDelete (hcall path rfl) mtime)) fun _ _ =>
      .pure trivial
  | checkpoint hub =>
    exact .bind (hwithin (SyncEngine.within_checkpoint hub)) fun _ _ => .pure trivial

/-- What is kept of a path nobody names. -/
structure Spared (paths : Set Path) (path : Path) (s₀ s : MemStore) : Prop where
  named : s.Named paths
  file : s.files.lookup path = s₀.files.lookup path
  fileMeta : s.blobs.lookup (fileKey path) = s₀.blobs.lookup (fileKey path)

/-- **One call** spares what it does not name. -/
theorem spared_exec {s₀ : MemStore} (hpath : path ∉ paths) {β : Type} {e : EngineReq β}
    (he : e.Spares paths) {o : HubAnswers} (ho : o.NamesOnly paths) (h : Spared paths path s₀ s) :
    e.NamesOnly paths (MemStore.exec e o s).1 ∧ Spared paths path s₀ (MemStore.exec e o s).2 := by
  have hne : ∀ q ∈ paths, path ≠ q := fun q hq heq => hpath (heq ▸ hq)
  have hkey : ∀ key, EngineReq.KeyOf paths key → fileKey path ≠ key := fun key hof heq =>
    hpath (hof.2 path heq.symm)
  refine ⟨MemStore.namesOnly_exec h.named ho, ?_⟩
  cases e with
  | metaPut key value =>
    exact ⟨MemStore.named_exec h.named he, h.file,
      (AList.lookup_insert_ne (hkey key he.1)).trans h.fileMeta⟩
  | metaDelete key =>
    exact ⟨MemStore.named_exec (e := .metaDelete key) h.named he, h.file,
      (AList.lookup_erase_ne (hkey key he)).trans h.fileMeta⟩
  | filePut q data mtime =>
    exact ⟨⟨h.named.isKey, h.named.queued⟩, (AList.lookup_insert_ne (hne q he)).trans h.file,
      h.fileMeta⟩
  | fileDelete q =>
    exact ⟨⟨h.named.isKey, h.named.queued⟩, (AList.lookup_erase_ne (hne q he)).trans h.file,
      h.fileMeta⟩
  | metaGet _ | metaListKeys _ | fileGet _ | hubChanges _ _ | hubGetFile _ _ | hubPush _ _
  | notifyError _ => exact h

/-- What keeps to some paths keeps to more. -/
theorem keepsTo_insert ⦃β : Type⦄ {e : EngineReq β} (he : e.KeepsTo paths) :
    e.KeepsTo (insert path paths) := by
  have hkey : ∀ {key}, EngineReq.KeyOf paths key → EngineReq.KeyOf (insert path paths) key :=
    fun h => ⟨h.1, fun p hp => .inr (h.2 p hp)⟩
  cases e with
  | metaPut key value =>
    exact ⟨hkey he.1, fun pending hb p hp => .inr (he.2 pending hb p hp)⟩
  | metaDelete key =>
    have hof : EngineReq.KeyOf paths key := he
    exact hkey hof
  | fileGet p => exact .inr he
  | filePut p data mtime => exact .inr he
  | fileDelete p => exact .inr he
  | _ => exact he

/-- The browser's stores hold what the memory would, and that spares the
path. -/
def Holding (E : UrlEncoding) (paths : Set Path) (path : Path) (s₀ : MemStore) (w : WebStores) :
    Prop :=
  ∃ s, Mirrors E (insert path paths) w s ∧ Spared paths path s₀ s

theorem holding_exec {s₀ : MemStore} (hc : OpfsFileStore.Clean P (insert path paths))
    (hpath : path ∉ paths) {β : Type} {e : EngineReq β} (he : e.Spares paths) {o : HubAnswers}
    (ho : o.NamesOnly paths) {w : WebStores} (h : Holding E paths path s₀ w) :
    e.NamesOnly paths (WebStores.exec P E e o w).1 ∧
      Holding E paths path s₀ (WebStores.exec P E e o w).2 := by
  obtain ⟨s, hw, hs⟩ := h
  have hkeeps : ∀ {β : Type} (e : EngineReq β), e.Spares paths → e.KeepsTo paths →
      e.NamesOnly paths (WebStores.exec P E e o w).1 ∧
        Holding E paths path s₀ (WebStores.exec P E e o w).2 := by
    intro β e he hkeeps
    obtain ⟨hnames, hs'⟩ := spared_exec hpath he ho hs
    obtain ⟨hanswer, hw'⟩ := hw.exec hc (keepsTo_insert hkeeps) o
    rw [hanswer]
    exact ⟨hnames, _, hw', hs'⟩
  cases e with
  | metaListKeys start => exact ⟨trivial, s, hw, hs⟩
  | _ => exact hkeeps _ he he

/-- **A file nobody names is never touched**: in every order of the store
operations of any calls of a page at once, as long as the calls, the queue and
the hubs' lists name only these paths, every other file keeps its bytes and its
metadata, if its path and theirs are a map. -/
theorem others_untouched [DecidableEq ι] (eng : SyncEngine) (calls : ι → WebCall)
    (hc : OpfsFileStore.Clean P (insert path paths))
    (hcalls : ∀ i, ∀ path ∈ (calls i).path?, path ∈ paths) {w : WebStores}
    (hw : Mirrors E (insert path paths) w s) (hs : s.Named paths) (hpath : path ∉ paths)
    (ms : List (Move ι HubAnswers Empty))
    (hms : ∀ m ∈ ms, m.Allowed (HubAnswers.NamesOnly paths) fun _ => True) :
    let w' := (Config.runs (WebStores.shared P E ι) ⟨fun i => ((calls i).prog eng).run, w⟩ ms).state
    OpfsFileStore.get P w'.content path = OpfsFileStore.get P w.content path ∧
      OpfsMetaStore.get P E w'.blobs (fileKey path) =
        OpfsMetaStore.get P E w.blobs (fileKey path) := by
  have hall : ∀ i, ((calls i).prog eng).run.Given (EngineReq.Spares paths)
      (EngineReq.NamesOnly paths) fun _ => True := fun i =>
    (given_prog eng (hcalls i)).mono (fun _ _ h => h) fun _ _ => trivial
  have hstart : Holding E paths path s w := ⟨s, hw, hs, rfl, rfl⟩
  obtain ⟨s', hw', hspared⟩ := (Config.runs_of_given (S := WebStores.shared P E ι)
    (c := ⟨fun i => ((calls i).prog eng).run, w⟩)
    (fun _ _ _ _ _ ho he h => holding_exec hc hpath he ho h) (fun a => a.elim) hall hstart hms).2
  have hin : path ∈ insert path paths := .inl rfl
  have hkey := SyncEngine.isKey_fileKey path
  refine ⟨?_, ?_⟩
  · rw [OpfsFileStore.get_eq hw'.content hc hin, OpfsFileStore.get_eq hw.content hc hin,
      hspared.file]
  · rw [OpfsMetaStore.get_eq hw'.blobs hkey, OpfsMetaStore.get_eq hw.blobs hkey, hspared.fileMeta]

/-- Two devices' files: one is put, one nobody names. -/
def twoFiles : MemStore :=
  ⟨(∅ : MetaMap).insert (fileKey "b.txt") (.fileMeta ⟨some ⟨1, "x"⟩, 7, "text/plain"⟩),
    (∅ : AList fun _ : Path => Bytes).insert "b.txt" [2]⟩

theorem twoFiles_named : twoFiles.Named {"a.txt"} := by
  refine ⟨fun key hkey => ?_, fun key b hb => ?_⟩
  · rcases (AList.mem_insert _).1 hkey with rfl | hkey
    · exact SyncEngine.isKey_fileKey "b.txt"
    · exact absurd hkey List.not_mem_nil
  · by_cases hne : key = fileKey "b.txt"
    · have hnew : ((∅ : MetaMap).insert (fileKey "b.txt") (.fileMeta ⟨some ⟨1, "x"⟩, 7,
          "text/plain"⟩)).lookup key = some b := hb
      rw [hne, AList.lookup_insert] at hnew
      exact Option.some.inj hnew ▸ SyncEngine.queuesOnly_fileMeta _
    · have hold : (∅ : MetaMap).lookup key = some b := (AList.lookup_insert_ne hne).symm.trans hb
      cases hold

/-- A put and a pass at once, and a hub that lists only what is put. -/
def putAndPass : Bool → WebCall
  | true => .putFile "a.txt" 5 "text/plain" [1]
  | false => .sync

def listsPut : HubAnswers :=
  ⟨.ok ⟨[⟨"a.txt", false, ⟨2, "y"⟩⟩], 1⟩, .ok none, .ok [⟨"a.txt", some ⟨1, "y"⟩⟩]⟩

/-- The browser's stores with the other file. -/
def withOther : WebStores :=
  (WebStores.exec WebStores.backslashes .percent (.filePut "b.txt" [2] 7) .unreachable
    (WebStores.exec WebStores.backslashes .percent
      (.metaPut (fileKey "b.txt") (.fileMeta ⟨some ⟨1, "x"⟩, 7, "text/plain"⟩)) .unreachable
      .empty).2).2

theorem clean_both : OpfsFileStore.Clean WebStores.backslashes {"b.txt", "a.txt"} := by
  have hvalid : ∀ p ∈ ["b.txt", "a.txt"], ∀ name ∈ tokens p,
      WebStores.backslashes.validName name = true := by decide +kernel
  have hapart : ∀ p ∈ ["b.txt", "a.txt"], ∀ q ∈ ["b.txt", "a.txt"], p ≠ q →
      ¬ tokens p <+: tokens q := by decide +kernel
  exact ⟨fun p hp => hvalid p (by simpa using hp),
    fun p hp q hq => hapart p (by simpa using hp) q (by simpa using hq)⟩

theorem mirrors_withOther : Mirrors .percent {"b.txt", "a.txt"} withOther twoFiles := by
  have hmeta := (WebStores.mirrors_empty (E := .percent)).exec clean_both
    (e := .metaPut (fileKey "b.txt") (.fileMeta ⟨some ⟨1, "x"⟩, 7, "text/plain"⟩))
    ⟨SyncEngine.keyOf_fileKey (.inl rfl), SyncEngine.queuesOnly_fileMeta _⟩ .unreachable
  exact (hmeta.2.exec clean_both (e := .filePut "b.txt" [2] 7) (.inl rfl) .unreachable).2

/-- The other file is there still after the two have taken turns. -/
theorem twoFiles_untouched : OpfsFileStore.get WebStores.backslashes
    (Config.runs (WebStores.shared WebStores.backslashes .percent Bool)
      ⟨fun i => ((putAndPass i).prog ⟨["h"], false⟩).run, withOther⟩
      ((List.range 12).flatMap fun n =>
        [.run true listsPut, .run (n % 2 = 0) listsPut])).state.content "b.txt" =
      .ok (some [2]) := by
  have hlists : listsPut.NamesOnly {"a.txt"} := by
    intro resp hresp entry hentry
    obtain rfl := Except.ok.inj hresp
    exact List.mem_singleton.1 hentry ▸ rfl
  have hkept := others_untouched ⟨["h"], false⟩ putAndPass
    clean_both (fun i path hpath => by
      cases i with
      | true => exact (Option.some.inj hpath).symm
      | false => cases hpath) mirrors_withOther twoFiles_named (by decide)
    ((List.range 12).flatMap fun n => [.run true listsPut, .run (n % 2 = 0) listsPut])
    (fun m hm => by
      obtain ⟨n, -, hm⟩ := List.mem_flatMap.1 hm
      rcases List.mem_cons.1 hm with rfl | hm
      · exact hlists
      · exact List.mem_singleton.1 hm ▸ hlists)
  exact hkept.1.trans (by decide +kernel)

end WebCall

end FileSync
