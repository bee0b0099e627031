import FileSync.Model.Protocol
import FileSync.Common.Program
import Mathlib.Data.List.MinMax
import Mathlib.Data.Prod.Lex
import Mathlib.Data.String.Basic
import Mathlib.Logic.Function.Basic
/-!
# CouchDB

The document store behind a hub. A document is a tree of revisions; a
revision is a leaf until another one is written on top of it, and writes
are accepted on leaves only. The winner is the live leaf of highest
generation, then highest hash, or the highest tombstone when no leaf is
live. Every accepted write is appended to the update log, whose length is
the database's sequence number.

The hash CouchDB gives a new revision is a parameter (`Couch.hash`). All
that is used of it is that it is new in the document.
-/

namespace FileSync

/-- The JSON fields of a document body; a tombstone left by `DELETE` has
none of them. -/
structure Body where
  path : Option Path
  mtime : Option ℤ
  contentType : Option String
deriving DecidableEq, Repr

/-- The `content` attachment. -/
structure Attachment where
  contentType : String
  data : Bytes
deriving DecidableEq, Repr

/-- `_revisions`: newest first, `ids[i]` of generation `start - i`. -/
structure Revisions where
  start : ℕ
  ids : List String
deriving DecidableEq, Repr

/-- The revisions a list of hashes names, the first of generation `start`. -/
def lineage : ℕ → List String → List Rev
  | _, [] => []
  | start, id :: ids => ⟨start, id⟩ :: lineage (start - 1) ids

/-- One revision of a document, with the hashes of those it was written on
top of, newest first. -/
structure Node where
  rev : Rev
  older : List String
  deleted : Bool
  body : Body
  content : Option Attachment
deriving DecidableEq, Repr

namespace Node

def revisions (n : Node) : Revisions := ⟨n.rev.gen, n.rev.hash :: n.older⟩

def ancestors (n : Node) : List Rev := lineage (n.rev.gen - 1) n.older

/-- How CouchDB ranks leaves: live before deleted, then by generation, then
by hash. -/
def rank (n : Node) : Bool ×ₗ ℕ ×ₗ String := toLex (!n.deleted, toLex (n.rev.gen, n.rev.hash))

end Node

/-- A document: its revisions, in the order they were written. -/
abbrev Tree := List Node

namespace Tree

variable (t : Tree)

def find? (r : Rev) : Option Node := List.find? (fun n => decide (n.rev = r)) t

/-- Nothing was written on top of `r`. -/
def isLeaf (r : Rev) : Bool := t.all fun n => !decide (r ∈ n.ancestors)

def leaves : List Node := t.filter fun n => isLeaf t n.rev

def liveLeaves : List Node := t.leaves.filter fun n => !n.deleted

def winner : Option Node := t.leaves.argmax Node.rank

/-- The winning revision when it is no tombstone: what a reader of the
document gets. -/
def visible : Option Node := t.winner.filter fun n => !n.deleted

/-- The leaf a write conditioned on `r` goes on top of. -/
def leaf? (r : Rev) : Option Node := t.leaves.find? fun n => decide (n.rev = r)

end Tree

/-- What CouchDB leaves to the deployment: the hashes it gives to new
revisions, and which of its two refusals a `DELETE` of a deleted document
gets. -/
structure Couch where
  hash : Tree → Option Node → Bool → Body → Option Attachment → String
  /-- A new revision's hash is new in the document. -/
  fresh : ∀ t p d b a, ∀ n ∈ t, hash t p d b a ∉ n.rev.hash :: n.older
  goneAs404 : Bool

namespace Couch

/-- The length of the longest hash in a document. -/
def longest (t : Tree) : ℕ :=
  t.foldr (fun n k => max k ((n.rev.hash :: n.older).foldr (fun h k => max k h.length) 0)) 0

theorem length_le_foldr {h : String} {hs : List String} (hh : h ∈ hs) :
    h.length ≤ hs.foldr (fun h k => max k h.length) 0 := by
  induction hs with
  | nil => cases hh
  | cons h' hs ih =>
    rw [List.foldr_cons]
    rcases List.mem_cons.1 hh with rfl | hh
    · exact le_max_right ..
    · exact (ih hh).trans (le_max_left ..)

theorem length_le_longest {t : Tree} {n : Node} {h : String} (hn : n ∈ t)
    (hh : h ∈ n.rev.hash :: n.older) : h.length ≤ longest t := by
  induction t with
  | nil => cases hn
  | cons m t ih =>
    rw [longest, List.foldr_cons]
    rcases List.mem_cons.1 hn with rfl | hn
    · exact (length_le_foldr hh).trans (le_max_right ..)
    · exact (ih hn).trans (le_max_left ..)

/-- A CouchDB that can be run: a new hash is longer than any before it. -/
def counting (goneAs404 : Bool) : Couch where
  hash t _ _ _ _ := String.ofList (List.replicate (longest t + 1) 'x')
  fresh t _ _ _ _ n hn hmem := by
    have hlen := length_le_longest hn hmem
    rw [String.length_ofList, List.length_replicate] at hlen
    omega
  goneAs404 := goneAs404

end Couch

structure Db where
  docs : Path → Tree
  log : List Path

namespace Db

def empty : Db := ⟨fun _ => [], []⟩

/-- Append a revision to a document. -/
def write (db : Db) (id : Path) (n : Node) : Db :=
  ⟨Function.update db.docs id (db.docs id ++ [n]), db.log ++ [id]⟩

end Db

/-! ## Requests -/

/-- Why a request got no answer or a refusal. -/
inductive HttpFailure
  | transport
  | status (code : ℕ) (body : String)
deriving DecidableEq, Repr

/-- A write that is accepted answers the revision it made. -/
def Db.accept (db : Db) (id : Path) (n : Node) : Except HttpFailure Rev × Db :=
  (.ok n.rev, db.write id n)

/-- A document as `GET` returns it: the visible revision and, with
`conflicts=true`, the other live leaves. -/
structure Doc where
  rev : Rev
  body : Body
  conflicts : List Rev
deriving DecidableEq, Repr

/-- A revision as `GET ?rev=` and `open_revs` return it with `revs=true`. -/
structure RevDoc where
  rev : Rev
  deleted : Bool
  body : Body
  revisions : Revisions
deriving DecidableEq, Repr

/-- A leaf in the answer to `open_revs=all`, its content in a part of its
own. -/
structure LeafPart where
  doc : RevDoc
  content : Option Bytes
deriving DecidableEq, Repr

/-- A revision to be inserted verbatim. -/
structure BranchDoc where
  id : Path
  rev : Rev
  revisions : Revisions
  deleted : Bool
  body : Body
  attachment : Option Attachment
deriving DecidableEq, Repr

structure RawChangeRow where
  id : Path
  deleted : Bool
  changes : List Rev
deriving DecidableEq, Repr

structure RawChangesResponse where
  results : List RawChangeRow
  lastSeq : Checkpoint
deriving DecidableEq, Repr

/-- Which part of the hub a write comes from. It is no part of the request:
CouchDB never sees it, and only statements about who wrote what do. -/
inductive Caller
  | push
  | resolver
deriving DecidableEq, Repr

/-- The requests the hub makes to CouchDB. -/
inductive CouchReq : Type → Type
  | getDoc (id : Path) : CouchReq (Except HttpFailure Doc)
  | getDocAtRev (id : Path) (rev : Rev) : CouchReq (Except HttpFailure RevDoc)
  | getAttachment (id : Path) (rev : Option Rev) : CouchReq (Except HttpFailure Bytes)
  | openRevs (id : Path) : CouchReq (Except HttpFailure (List LeafPart))
  | changes (since : Option Checkpoint) : CouchReq (Except HttpFailure RawChangesResponse)
  | putDoc (caller : Caller) (id : Path) (rev : Option Rev) (body : Body) :
      CouchReq (Except HttpFailure Rev)
  | putAttachment (caller : Caller) (id : Path) (rev : Rev) (attachment : Attachment) :
      CouchReq (Except HttpFailure Rev)
  | deleteDoc (caller : Caller) (id : Path) (rev : Rev) : CouchReq (Except HttpFailure Rev)
  | bulkDocs (doc : BranchDoc) : CouchReq (Except HttpFailure Unit)

namespace Tree

variable (t : Tree)

/-- The visible revision as a reader gets it. -/
def doc? : Option Doc :=
  t.visible.map fun w => ⟨w.rev, w.body, (t.liveLeaves.filter fun n => n.rev ≠ w.rev).map Node.rev⟩

/-- The content of one revision, or of the visible one. -/
def content? (rev : Option Rev) : Option Bytes :=
  ((rev.elim t.visible t.find?).bind Node.content).map Attachment.data

end Tree

namespace Node

def toRevDoc (n : Node) : RevDoc := ⟨n.rev, n.deleted, n.body, n.revisions⟩

/-- A tombstone comes alone: neither a delete nor a branch that deletes has
content. -/
def toPart (n : Node) : LeafPart :=
  ⟨n.toRevDoc, if n.deleted then none else n.content.map Attachment.data⟩

end Node

namespace BranchDoc

/-- The revision as the tree stores it. -/
def toNode (d : BranchDoc) : Node := ⟨d.rev, d.revisions.ids.tail, d.deleted, d.body, d.attachment⟩

end BranchDoc

namespace Couch

variable (C : Couch)

/-- A new revision on top of `parent`, or a root. -/
def child (t : Tree) (parent : Option Node) (deleted : Bool) (body : Body)
    (content : Option Attachment) : Node where
  rev := ⟨(parent.elim 0 fun p => p.rev.gen) + 1, C.hash t parent deleted body content⟩
  older := parent.elim [] fun p => p.rev.hash :: p.older
  deleted := deleted
  body := body
  content := content

def notFound : HttpFailure := .status 404 "not_found"

def conflict : HttpFailure := .status 409 "conflict"

/-- Where a `PUT` of a body goes: with a revision, on top of that leaf;
without one, at a fresh root, or on top of the winning tombstone of a
deleted document. -/
def putParent (t : Tree) : Option Rev → Except HttpFailure (Option Node)
  | some r =>
    match t.leaf? r with
    | some n => .ok (some n)
    | none => .error conflict
  | none =>
    match t.winner with
    | none => .ok none
    | some n => if n.deleted then .ok (some n) else .error conflict

/-- What a `DELETE` is applied to. A document that is not there or deleted
already is refused as such before its revisions are looked at. -/
def deleteParent (t : Tree) (r : Rev) : Except HttpFailure Node :=
  match t.winner with
  | none => .error notFound
  | some w =>
    if w.deleted && C.goneAs404 then .error notFound
    else
      match t.leaf? r with
      | some n => .ok n
      | none => .error conflict

/-- The documents written after `since`, each once, with its current
state. -/
def changesSince (db : Db) (since : Option Checkpoint) : RawChangesResponse where
  results := (db.log.drop (since.getD 0)).dedup.filterMap fun id =>
    (db.docs id).winner.map fun w =>
      ⟨id, w.deleted, w.rev :: ((db.docs id).leaves.filter fun n => n.rev ≠ w.rev).map Node.rev⟩
  lastSeq := db.log.length

/-- A document is found or it is not. -/
def orNotFound {α : Type} : Option α → Except HttpFailure α
  | some a => .ok a
  | none => .error notFound

/-- What CouchDB answers to a request, and what it stores. -/
def answer ⦃β : Type⦄ : CouchReq β → Db → β × Db
  | .getDoc id, db => (orNotFound (db.docs id).doc?, db)
  | .getDocAtRev id rev, db => (orNotFound (((db.docs id).find? rev).map Node.toRevDoc), db)
  | .getAttachment id rev, db => (orNotFound ((db.docs id).content? rev), db)
  | .openRevs id, db =>
    (orNotFound (if (db.docs id) = [] then none else some ((db.docs id).leaves.map Node.toPart)),
      db)
  | .changes since, db => (.ok (changesSince db since), db)
  | .putDoc _ id rev body, db =>
    match putParent (db.docs id) rev with
    | .ok parent => db.accept id (C.child (db.docs id) parent false body none)
    | .error e => (.error e, db)
  | .putAttachment _ id rev attachment, db =>
    match (db.docs id).leaf? rev with
    | some p => db.accept id (C.child (db.docs id) (some p) p.deleted p.body (some attachment))
    | none => (.error conflict, db)
  | .deleteDoc _ id rev, db =>
    match C.deleteParent (db.docs id) rev with
    | .ok p => db.accept id (C.child (db.docs id) (some p) true ⟨none, none, none⟩ none)
    | .error e => (.error e, db)
  | .bulkDocs doc, db =>
    match (db.docs doc.id).find? doc.rev with
    | some _ => (.ok (), db)
    | none => (.ok (), db.write doc.id doc.toNode)

end Couch

/-- No answer: the request was lost, or its response was. -/
def CouchReq.lost ⦃β : Type⦄ : CouchReq β → β
  | .getDoc _ => .error .transport
  | .getDocAtRev _ _ => .error .transport
  | .getAttachment _ _ => .error .transport
  | .openRevs _ => .error .transport
  | .changes _ => .error .transport
  | .putDoc _ _ _ _ => .error .transport
  | .putAttachment _ _ _ _ => .error .transport
  | .deleteDoc _ _ _ => .error .transport
  | .bulkDocs _ => .error .transport

end FileSync
