import FileSync.Client.FileMap
import FileSync.Client.StorePaths
import FileSync.Model.DiskStores
/-!
# The desktop client in memory

The two directories answer every method of the engine as the in-memory store
would, as long as the paths that come up are a map: over any number of calls,
whatever the hubs answer, and with the process killed at any of its
operations.
-/

namespace FileSync

namespace DiskStores

open Bookkeeping (IsKey)
open FileMap (Clean Rel)
open FsFileStore (pathFor)
open MemStore (Stands)
open SyncEngine (Within)

variable {E : UrlEncoding} {clock : ℕ → ℤ} {paths : Set Path} {s : DiskStores} {t : MemStore}

/-- **Both directories hold what the memory does.** -/
structure Mirrors (E : UrlEncoding) (paths : Set Path) (s : DiskStores) (t : MemStore) : Prop where
  keys : Bookkeeping.Mirrors E s.keys t
  disk : Rel paths s.disk t

theorem mirrors_opened (E : UrlEncoding) (paths : Set Path) (pid : ℕ) :
    Mirrors E paths (opened pid) .empty :=
  ⟨Bookkeeping.mirrors_opened E pid, FileMap.rel_empty⟩

/-- Files are no matter of the keys. -/
theorem keys_congr {d d' : FsMetaStore} {t t' : MemStore} (h : Bookkeeping.Mirrors E d t)
    (hfiles : d'.files = d.files) (hblobs : t'.blobs = t.blobs) : Bookkeeping.Mirrors E d' t' := by
  refine ⟨?_, ?_, ?_⟩
  · rw [hblobs]
    exact h.isKey
  · rw [hfiles, hblobs]
    exact h.lookup
  · rw [hfiles, hblobs]
    exact h.named

/-- And keys none of the files. -/
theorem disk_congr {d : Disk} {t t' : MemStore} (h : Rel paths d t) (hfiles : t'.files = t.files) :
    Rel paths d t' := by
  refine ⟨?_, h.dir, ?_, h.links⟩
  · rw [hfiles]
    exact h.file
  · rw [hfiles]
    exact h.here

/-- **One call.** -/
theorem Mirrors.exec (h : Mirrors E paths s t) (hc : Clean paths)
    (haccepted : ∀ p ∈ paths, ∃ l, pathFor p = .ok l) {β : Type} {e : EngineReq β}
    (he : e.KeepsTo paths) (o : HubAnswers) :
    (DiskStores.exec E clock e o s).1 = (MemStore.exec e o t).1 ∧
      Mirrors E paths (DiskStores.exec E clock e o s).2 (MemStore.exec e o t).2 := by
  cases e with
  | metaGet key => exact ⟨congrArg _ (h.keys.lookup key he), h⟩
  | metaPut key value =>
    exact ⟨rfl, h.keys.put he.1.1 value, disk_congr h.disk rfl⟩
  | metaDelete key =>
    have hkey : IsKey key := he.1
    exact ⟨rfl, h.keys.delete key hkey, disk_congr h.disk rfl⟩
  | metaListKeys start => exact he.elim
  | fileGet path =>
    obtain ⟨l, hl⟩ := haccepted path he
    exact ⟨h.disk.get hc he hl, h⟩
  | filePut path data mtime =>
    obtain ⟨l, hl⟩ := haccepted path he
    obtain ⟨hdone, hrel⟩ := h.disk.put hc he hl ⟨s.keys.pid, s.keys.counter, clock s.keys.counter⟩
      data mtime
    exact ⟨hdone, keys_congr h.keys rfl rfl, hrel⟩
  | fileDelete path =>
    obtain ⟨l, hl⟩ := haccepted path he
    obtain ⟨hdone, hrel⟩ := h.disk.delete hc he hl
    exact ⟨hdone, keys_congr h.keys rfl rfl, hrel⟩
  | hubChanges _ _ | hubGetFile _ _ | hubPush _ _ | notifyError _ => exact ⟨rfl, h⟩

theorem refines (E : UrlEncoding) (clock : ℕ → ℤ) (hc : Clean paths)
    (haccepted : ∀ p ∈ paths, ∃ l, pathFor p = .ok l) :
    Prog.Refines (online (DiskStores.exec E clock)) (online MemStore.exec)
      (EngineReq.KeepsTo paths) (EngineReq.NamesOnly paths) (Stands paths (Mirrors E paths)) :=
  MemStore.refines_of_stands fun _ _ o _ _ he h _ => h.exec hc haccepted he o

/-- Every method keeps to the paths that are named. -/
theorem within_prog (eng : SyncEngine) {call : EngineCall}
    (hcall : ∀ path ∈ call.path?, path ∈ paths) :
    Within paths (fun _ => True) (call.prog eng) := by
  cases call with
  | sync => exact .bind SyncEngine.within_sync fun _ _ => .pure trivial
  | pull => exact .bind SyncEngine.within_pull fun _ _ => .pure trivial
  | push => exact .bind SyncEngine.within_push fun _ _ => .pure trivial
  | recordUpsert path mtime contentType content =>
    exact .bind (SyncEngine.within_recordUpsert (hcall path rfl) mtime contentType content)
      fun _ _ => .pure trivial
  | recordDelete path mtime =>
    exact .bind (SyncEngine.within_recordDelete (hcall path rfl) mtime) fun _ _ => .pure trivial
  | readFile path =>
    exact .bind (SyncEngine.within_readFile (hcall path rfl)) fun _ _ => .pure trivial
  | readFileMeta path => exact .bind SyncEngine.within_readFileMeta fun _ _ => .pure trivial
  | checkpoint hub => exact .bind (SyncEngine.within_checkpoint hub) fun _ _ => .pure trivial
  | pending => exact .bind SyncEngine.within_loadPending fun _ _ => .pure trivial

/-- Two paths that are a map. -/
def plainPaths : List Path := ["notes/a.txt", "b.txt"]

/-- The names of a path. -/
def names (path : Path) : Place := (path.toList.splitOn '/').map String.ofList

theorem pathFor_plain : ∀ p ∈ plainPaths, pathFor p = .ok ⟨names p, false⟩ := by decide +kernel

theorem place_plain {p : Path} (hp : p ∈ plainPaths) {l : Location} (hl : pathFor p = .ok l) :
    l = ⟨names p, false⟩ := by
  rw [pathFor_plain p hp] at hl
  exact (Except.ok.inj hl).symm

end DiskStores

end FileSync
