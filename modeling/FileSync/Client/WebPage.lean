import FileSync.Client.StorePaths
import FileSync.Client.WebStores
/-!
# The browser client in memory

Whatever a page calls, in any order and however often it is closed and opened
again between two operations, its stores answer as the in-memory store would.
What has been proved of the engine in memory so holds in the browser.
-/

namespace FileSync

namespace WebStores

open OpfsRoot (Holds)
open Bookkeeping (IsKey)
open SyncEngine (Within)
open MemStore (Stands)

variable {P : Platform} {E : UrlEncoding} {paths : Set Path} {s : WebStores} {t : MemStore}

/-- **Both trees hold what the memory does.** -/
structure Mirrors (E : UrlEncoding) (paths : Set Path) (s : WebStores) (t : MemStore) : Prop where
  content : Holds paths OpfsFileStore.place s.content t.files
  blobs : Holds {key | IsKey key} (OpfsMetaStore.place E) s.blobs t.blobs

theorem mirrors_empty : Mirrors E paths .empty .empty :=
  ⟨OpfsRoot.holds_empty, OpfsRoot.holds_empty⟩

/-- **One call.** -/
theorem Mirrors.exec (h : Mirrors E paths s t) (hc : OpfsFileStore.Clean P paths) {β : Type}
    {e : EngineReq β} (he : e.KeepsTo paths) (o : HubAnswers) :
    (WebStores.exec P E e o s).1 = (MemStore.exec e o t).1 ∧
      Mirrors E paths (WebStores.exec P E e o s).2 (MemStore.exec e o t).2 := by
  cases e with
  | metaGet key => exact ⟨OpfsMetaStore.get_eq h.blobs he, h⟩
  | metaPut key value =>
    obtain ⟨hdone, hholds⟩ := OpfsMetaStore.put_eq (P := P) h.blobs he.1.1 value
    exact ⟨hdone, h.content, hholds⟩
  | metaDelete key =>
    obtain ⟨hdone, hholds⟩ := OpfsMetaStore.delete_eq (P := P) h.blobs he.1
    exact ⟨hdone, h.content, hholds⟩
  | metaListKeys start =>
    -- the two list in different orders, so this one is apart
    exact he.elim
  | fileGet path => exact ⟨OpfsFileStore.get_eq h.content hc he, h⟩
  | filePut path data mtime =>
    obtain ⟨hdone, hholds⟩ := OpfsFileStore.put_eq h.content hc he data mtime
    exact ⟨hdone, hholds, h.blobs⟩
  | fileDelete path =>
    obtain ⟨hdone, hholds⟩ := OpfsFileStore.delete_eq h.content hc he
    exact ⟨hdone, hholds, h.blobs⟩
  | hubChanges _ _ | hubGetFile _ _ | hubPush _ _ | notifyError _ => exact ⟨rfl, h⟩

theorem refines (E : UrlEncoding) (hc : OpfsFileStore.Clean P paths) :
    Prog.Refines (online (WebStores.exec P E)) (online MemStore.exec) (EngineReq.KeepsTo paths)
      (EngineReq.NamesOnly paths) (Stands paths (Mirrors E paths)) :=
  MemStore.refines_of_stands fun _ _ o _ _ he h _ => h.exec hc he o

/-! ## A page's call -/

theorem within_prog (eng : SyncEngine) {call : WebCall} (hcall : ∀ path ∈ call.path?, path ∈ paths)
    (hlist : call ≠ .listFiles) : Within paths (fun _ => True) (call.prog eng) := by
  cases call with
  | sync => exact .bind SyncEngine.within_sync fun _ _ => .pure trivial
  | listFiles => exact absurd rfl hlist
  | readFile path =>
    exact .bind (SyncEngine.within_readFile (hcall path rfl)) fun _ _ => .pure trivial
  | putFile path mtime contentType data =>
    exact .bind (SyncEngine.within_recordUpsert (hcall path rfl) mtime contentType data)
      fun _ _ => .pure trivial
  | deleteFile path mtime =>
    exact .bind (SyncEngine.within_recordDelete (hcall path rfl) mtime) fun _ _ => .pure trivial
  | checkpoint hub => exact .bind (SyncEngine.within_checkpoint hub) fun _ _ => .pure trivial

/-- Listing is one call. -/
theorem run_listFiles (eng : SyncEngine) : (WebCall.listFiles.prog eng).run =
    .call (.metaListKeys "file/") fun r => .done
      ((r.mapError .store).map fun keys => .files (keys.filterMap SyncEngine.stripFile)) := by
  have hrest : ∀ r : Except StoreError (List String),
      ((ExceptT.mk (.done (r.mapError .store)) : Engine (List String)) >>= fun keys =>
        pure (keys.filterMap SyncEngine.stripFile) >>= fun paths =>
          pure (WebAnswer.files paths)).run =
        .done ((r.mapError .store).map fun keys => .files (keys.filterMap SyncEngine.stripFile)) := by
    intro r
    cases r <;> rfl
  simp only [WebCall.prog, SyncEngine.listFilePaths, bind_assoc]
  exact congrArg (Prog.call _) (funext hrest)

theorem same_refl (r : Option (Except SyncError WebAnswer)) : WebCall.Same r r := by
  rcases r with _ | _ | a
  · rfl
  · rfl
  · cases a with
    | files paths => exact List.Perm.refl paths
    | done | content _ | token _ => rfl

variable {s : WebStores × Stream' HubAnswers} {t : MemStore × Stream' HubAnswers}

/-- What a listing is answered. -/
theorem listFiles_same (h : Stands paths (Mirrors E paths) s t) :
    ∃ keys keys', online (WebStores.exec P E) (.metaListKeys "file/") s =
        (.ok keys, (s.1, s.2.tail)) ∧
      online MemStore.exec (.metaListKeys "file/") t = (.ok keys', (t.1, t.2.tail)) ∧
      keys.Perm keys' := by
  obtain ⟨keys, hkeys, hperm⟩ :=
    OpfsMetaStore.listKeys_perm (P := P) h.stores.blobs h.named.isKey "file/"
  refine ⟨keys, _, ?_, rfl, hperm⟩
  simp only [online, WebStores.exec, hkeys]

theorem stands_tail (h : Stands paths (Mirrors E paths) s t) :
    Stands paths (Mirrors E paths) (s.1, s.2.tail) (t.1, t.2.tail) :=
  ⟨h.stores, h.named, congrArg Stream'.tail h.answers, fun n => h.namesOnly (n + 1)⟩

/-- **One call of a page**, run to its end. -/
theorem exec_prog (eng : SyncEngine) (hc : OpfsFileStore.Clean P paths) (h : Stands paths (Mirrors E paths) s t)
    {call : WebCall} (hcall : ∀ path ∈ call.path?, path ∈ paths) :
    WebCall.Same (some ((call.prog eng).exec (online (WebStores.exec P E)) s).1)
        (some ((call.prog eng).exec (online MemStore.exec) t).1) ∧
      Stands paths (Mirrors E paths) ((call.prog eng).exec (online (WebStores.exec P E)) s).2
        ((call.prog eng).exec (online MemStore.exec) t).2 := by
  by_cases hlist : call = .listFiles
  · subst hlist
    obtain ⟨keys, keys', hs, ht, hperm⟩ := listFiles_same (P := P) h
    simp only [Fallible.exec, run_listFiles, Prog.run_call, Prog.run_done, hs, ht]
    exact ⟨hperm.filterMap _, stands_tail h⟩
  · obtain ⟨hsame, -, hstands⟩ := (refines E hc).run (within_prog eng hcall hlist) h
    refine ⟨?_, hstands⟩
    rw [Fallible.exec, Fallible.exec, hsame]
    exact same_refl _

/-- **And one that is cut short.** -/
theorem after_prog (eng : SyncEngine) (hc : OpfsFileStore.Clean P paths) (h : Stands paths (Mirrors E paths) s t)
    {call : WebCall} (hcall : ∀ path ∈ call.path?, path ∈ paths) (n : ℕ) :
    WebCall.Same ((call.prog eng).run.after (online (WebStores.exec P E)) n s).1.result?
        ((call.prog eng).run.after (online MemStore.exec) n t).1.result? ∧
      Stands paths (Mirrors E paths)
        ((call.prog eng).run.after (online (WebStores.exec P E)) n s).2
        ((call.prog eng).run.after (online MemStore.exec) n t).2 := by
  by_cases hlist : call = .listFiles
  · subst hlist
    cases n with
    | zero =>
      rw [run_listFiles, Prog.after_zero, Prog.after_zero]
      exact ⟨rfl, h⟩
    | succ n =>
      obtain ⟨keys, keys', hs, ht, hperm⟩ := listFiles_same (P := P) h
      simp only [run_listFiles, Prog.after_call, Prog.after_done, hs, ht]
      exact ⟨hperm.filterMap _, stands_tail h⟩
  · obtain ⟨hsame, hstands⟩ := (refines E hc).after (within_prog eng hcall hlist) h n
    refine ⟨?_, hstands⟩
    rw [hsame]
    exact same_refl _

/-- **The browser client answers as the engine in memory does**: whatever is
called, with paths that are a map, and whatever the hubs answer, every call
returns the same. -/
theorem page_in_memory (P : Platform) (E : UrlEncoding) (eng : SyncEngine)
    (hc : OpfsFileStore.Clean P paths) (calls : List (WebCall × Option ℕ))
    (hcalls : ∀ c ∈ calls, ∀ path ∈ c.1.path?, path ∈ paths) (answers : Stream' HubAnswers)
    (hanswers : ∀ n, (answers.get n).NamesOnly paths) :
    List.Forall₂ WebCall.Same (WebCall.run (WebStores.exec P E) eng calls (.empty, answers))
      (WebCall.run MemStore.exec eng calls (.empty, answers)) := by
  have hrun : ∀ (s : WebStores × Stream' HubAnswers) (t : MemStore × Stream' HubAnswers),
      Stands paths (Mirrors E paths) s t →
        List.Forall₂ WebCall.Same (WebCall.run (WebStores.exec P E) eng calls s)
          (WebCall.run MemStore.exec eng calls t) := by
    induction calls with
    | nil => exact fun _ _ _ => .nil
    | cons c calls ih =>
      intro s t h
      have hcall := hcalls c List.mem_cons_self
      have hrest := ih fun c' hc' => hcalls c' (List.mem_cons_of_mem _ hc')
      obtain ⟨call, cut⟩ := c
      cases cut with
      | none =>
        obtain ⟨hsame, hstands⟩ := exec_prog eng hc h hcall
        exact .cons hsame (hrest _ _ hstands)
      | some n =>
        obtain ⟨hsame, hstands⟩ := after_prog eng hc h hcall n
        exact .cons hsame (hrest _ _ hstands)
  exact hrun _ _ ⟨mirrors_empty, MemStore.named_empty, rfl, hanswers⟩

/-- A platform that separates names by backslashes too. -/
def backslashes : Platform where
  isSeparator c := c = '\\'
  plain c h := by
    refine decide_eq_false fun hc => ?_
    subst hc
    revert h
    decide

/-- A hub lists one file, and serves it. -/
def oneListed : HubAnswers :=
  ⟨.ok ⟨[⟨"b.txt", false, ⟨1, "x"⟩⟩], 1⟩, .ok (some ⟨some ⟨1, "x"⟩, 7, "text/plain", [2]⟩),
    .ok [⟨"notes/a.txt", some ⟨1, "y"⟩⟩]⟩

/-- A file is put, a pass is cut short, another one is made, and what is there
is read. -/
def onePage : List (WebCall × Option ℕ) :=
  [(.putFile "notes/a.txt" 5 "text/plain" [1], none), (.sync, some 6), (.sync, none),
    (.listFiles, none), (.readFile "b.txt", none), (.deleteFile "notes/a.txt" 8, none),
    (.readFile "notes/a.txt", none), (.checkpoint "h", none)]

/-- **A page on both**, and what it is answered. -/
theorem onePage_in_memory :
    List.Forall₂ WebCall.Same
        (WebCall.run (WebStores.exec backslashes .percent) ⟨["h"], false⟩ onePage
          (.empty, Stream'.const oneListed))
        (WebCall.run MemStore.exec ⟨["h"], false⟩ onePage (.empty, Stream'.const oneListed)) ∧
      WebCall.run MemStore.exec ⟨["h"], false⟩ onePage (.empty, Stream'.const oneListed) =
        [some (.ok .done), none, some (.ok .done),
          some (.ok (.files ["b.txt", "notes/a.txt"])), some (.ok (.content (some [2]))),
          some (.ok .done), some (.ok (.content none)), some (.ok (.token (some 1)))] := by
  have hvalid : ∀ p ∈ ["notes/a.txt", "b.txt"], ∀ name ∈ tokens p,
      backslashes.validName name = true := by decide +kernel
  have hapart : ∀ p ∈ ["notes/a.txt", "b.txt"], ∀ q ∈ ["notes/a.txt", "b.txt"], p ≠ q →
      ¬ tokens p <+: tokens q := by decide +kernel
  have hc : OpfsFileStore.Clean backslashes {p | p ∈ ["notes/a.txt", "b.txt"]} :=
    ⟨hvalid, hapart⟩
  have hcalls : ∀ c ∈ onePage, ∀ path ∈ c.1.path?, path ∈ ["notes/a.txt", "b.txt"] := by
    decide +kernel
  refine ⟨page_in_memory backslashes .percent ⟨["h"], false⟩ hc onePage hcalls
    (Stream'.const oneListed) fun _ resp hresp => ?_, by decide +kernel⟩
  obtain rfl := Except.ok.inj hresp
  intro entry hentry
  obtain rfl := List.mem_singleton.1 hentry
  exact List.mem_cons_of_mem _ List.mem_cons_self

end WebStores

end FileSync
