import FileSync.Model.CouchClient
import FileSync.Model.Diff3
/-!
# The conflict resolver

Reads the leaves of a path, plans what to keep, and writes the plan: copies
of what would be lost first, then the result on top of the winner, then a
delete for every other leaf. Every write is conditioned on a revision read
before, and a refused one starts over from the read.
-/

namespace FileSync

inductive ResolveError
  | couch (error : CouchError)
  | casConflict
  | maxRetries
  | missingLeaf
  /-- Stands for no answer at all: the `u32` suffix of a copy's name has
  overflowed. -/
  | suffixOverflow
deriving DecidableEq, Repr

inductive ResolutionKind
  | merged
  | keptNewer
  | editWon
  | keptWinner
deriving DecidableEq, Repr

structure Resolved where
  path : Path
  kind : ResolutionKind
  conflictCopies : List Path
deriving DecidableEq, Repr

inductive Outcome
  | noConflict
  | resolved (r : Resolved)
deriving DecidableEq, Repr

structure Leaf where
  rev : Rev
  deleted : Bool
  mtime : ℤ
  contentType : String
  content : Bytes
  revisions : Option Revisions
deriving DecidableEq, Repr

/-- Content to preserve beside the path. -/
structure Copy where
  content : Bytes
  mtime : ℤ
  contentType : String
deriving DecidableEq, Repr

structure Plan where
  kind : ResolutionKind
  winnerRev : Rev
  /-- `none` when every leaf is a tombstone. -/
  finalContent : Option Bytes
  finalMtime : ℤ
  finalContentType : String
  copies : List Copy
  /-- The leaves to delete: every one but the winner. -/
  loserRevs : List Rev
deriving DecidableEq, Repr

/-- What the hub process brings with it: the merge library, the date its
clock shows, as copies' names have it, and the documents that lines of a
file are read as where `parse_open_revs` comes upon them. -/
structure HubEnv where
  mergeStrings : MergeStrings
  today : String
  leafLines : Bytes → List RevDoc

namespace HubEnv

/-- No texts are merged, and no line is read as a document. -/
def plain : HubEnv := ⟨fun _ _ _ => .error "", "01.01.2026", fun _ => []⟩

/-- Texts are merged into the first one. -/
def takesFirst : HubEnv := { plain with mergeStrings := fun _ mine _ => .ok ⟨mine, false⟩ }

end HubEnv

namespace Resolver

def maxRetries : ℕ := 5

def mapCouch : CouchError → ResolveError
  | .revConflict _ => .casConflict
  | e => .couch e

/-- `?` on a `CouchError`. -/
abbrev orCouch {α : Type} (x : Hub CouchError α) : Hub ResolveError α := x.adapt .couch

/-- `map_err(map_couch)?`. -/
abbrev orCas {α : Type} (x : Hub CouchError α) : Hub ResolveError α := x.adapt mapCouch

def orMissingLeaf {α : Type} : Option α → Hub ResolveError α
  | some a => pure a
  | none => throw .missingLeaf

/-- The last of the elements of greatest key, as `max_by_key` has it. -/
def maxByKey {α κ : Type} [LT κ] [DecidableLT κ] (key : α → κ) : List α → Option α
  | [] => none
  | a :: as => some (as.foldl (fun best b => if key b < key best then best else b) a)

/-! ## Reading leaves -/

def leafFromDoc (path : Path) (doc : RevDoc) : Hub ResolveError Leaf := do
  let content ← if doc.deleted then pure []
    else orCouch (CouchClient.getAttachment path (some doc.rev))
  return { rev := doc.rev, deleted := doc.deleted, mtime := doc.body.mtime.getD 0
           contentType := doc.body.contentType.getD octetStream, content := content
           revisions := some doc.revisions }

def fetchLeaf (path : Path) (rev : Rev) : Hub ResolveError Leaf := do
  let doc ← orMissingLeaf (← orCouch (CouchClient.getDocAtRev path rev))
  leafFromDoc path doc

def fetchLeaves (path : Path) : List Rev → Hub ResolveError (List Leaf)
  | [] => pure []
  | rev :: revs => do
    let leaf ← fetchLeaf path rev
    return leaf :: (← fetchLeaves path revs)

def leavesFromDocs (path : Path) : List RevDoc → Hub ResolveError (List Leaf)
  | [] => pure []
  | doc :: docs => do
    let leaf ← leafFromDoc path doc
    return leaf :: (← leavesFromDocs path docs)

/-! ## Planning -/

/-- The bytes two leaves are merged over. A base that cannot be read is an
empty one, as is the base of two leaves with no shared history. -/
def mergeBase (path : Path) (winner loser : Leaf) : Hub ResolveError Bytes :=
  match winner.revisions, loser.revisions with
  | some a, some b =>
    match Diff3.commonAncestor a.ids b.start b.ids with
    | some rev => do
      match ← Fallible.attempt (CouchClient.getAttachment path (some rev)) with
      | .ok bytes => return bytes
      | .error _ => return []
    | none => pure []
  | _, _ => pure []

/-- Keep the newer file, preserve the older one beside it. -/
def keepNewer (winner loser : Leaf) (loserRevs : List Rev) : Plan :=
  let (newer, older) := if loser.mtime ≤ winner.mtime then (winner, loser) else (loser, winner)
  { kind := .keptNewer, winnerRev := winner.rev, finalContent := some newer.content
    finalMtime := newer.mtime, finalContentType := newer.contentType
    copies := [⟨older.content, older.mtime, older.contentType⟩], loserRevs := loserRevs }

def planEditVsEdit (env : HubEnv) (path : Path) (winner loser : Leaf) (loserRevs : List Rev) :
    Hub ResolveError Plan := do
  let base ← mergeBase path winner loser
  match Diff3.merge env.mergeStrings base winner.content loser.content with
  | .ok merged =>
    return { kind := .merged, winnerRev := winner.rev, finalContent := some merged
             finalMtime := max winner.mtime loser.mtime, finalContentType := winner.contentType
             copies := [], loserRevs := loserRevs }
  | .error _ => return keepNewer winner loser loserRevs

/-- One leaf is alive: it wins, and nothing is lost with the others. -/
def editWon (edit : Leaf) (winnerRev : Rev) (loserRevs : List Rev) : Plan where
  kind := .editWon
  winnerRev := winnerRev
  finalContent := some edit.content
  finalMtime := edit.mtime
  finalContentType := edit.contentType
  copies := []
  loserRevs := loserRevs

/-- Keep the winner if it is alive, else the first live leaf, else nothing;
preserve every other live leaf beside it. -/
def keepWinner (leaves : List Leaf) (winner : Leaf) (loserRevs : List Rev) : Plan :=
  let keep := if !winner.deleted then some winner else (leaves.filter fun l => !l.deleted).head?
  let keepRev := (keep.map Leaf.rev).getD winner.rev
  { kind := .keptWinner, winnerRev := winner.rev, finalContent := keep.map Leaf.content
    finalMtime := (keep.map Leaf.mtime).getD 0
    finalContentType := (keep.map Leaf.contentType).getD octetStream
    copies := (leaves.filter fun l => !l.deleted && l.rev ≠ keepRev).map fun l =>
      ⟨l.content, l.mtime, l.contentType⟩
    loserRevs := loserRevs }

def planResolution (env : HubEnv) (path : Path) (leaves : List Leaf) (winnerRev : Rev) :
    Hub ResolveError Plan := do
  let winner ← orMissingLeaf (leaves.find? fun l => decide (l.rev = winnerRev))
  let loserRevs := (leaves.filter fun l => l.rev ≠ winnerRev).map Leaf.rev
  let nonDeleted := leaves.filter fun l => !l.deleted
  if nonDeleted.length = 2 ∧ leaves.length = 2 then
    -- the source unwraps here: of two live leaves one is not the winner
    let other ← orMissingLeaf (nonDeleted.find? fun l => decide (l.rev ≠ winner.rev))
    planEditVsEdit env path winner other loserRevs
  else
    match nonDeleted with
    | [edit] => return editWon edit winnerRev loserRevs
    | _ => return keepWinner leaves winner loserRevs

/-! ## Writing the plan -/

/-- The candidates of a copy's name, tried in turn. -/
def conflictName (base today : String) : ℕ → Path
  | 0 => s!"{base}.conflict-{today}"
  | k + 1 => s!"{base}.conflict-{today}.{k}"

/-- The first candidate from `n` on that is no live document, with `fuel`
candidates left to try. Where all have been tried the source returns nothing:
its suffix overflows, which a build either stops at or wraps around for
ever. -/
def firstFree (base today : String) : ℕ → ℕ → Hub ResolveError Path
  | _, 0 => throw .suffixOverflow
  | n, fuel + 1 => do
    match ← orCouch (CouchClient.getDoc (conflictName base today n)) with
    | none => return conflictName base today n
    | some _ => firstFree base today (n + 1) fuel

def conflictCopyPath (env : HubEnv) (basePath : Path) : Hub ResolveError Path :=
  firstFree basePath env.today 0 (2 ^ 32)

def writeCopy (env : HubEnv) (path : Path) (copy : Copy) : Hub ResolveError Path := do
  let copyPath ← conflictCopyPath env path
  let rev ← orCas (CouchClient.putDoc .resolver copyPath none
    ⟨some copyPath, some copy.mtime, some copy.contentType⟩)
  let _ ← orCas (CouchClient.putAttachment .resolver copyPath rev copy.contentType copy.content)
  return copyPath

def writeCopies (env : HubEnv) (path : Path) : List Copy → Hub ResolveError (List Path)
  | [] => pure []
  | copy :: copies => do
    let written ← writeCopy env path copy
    return written :: (← writeCopies env path copies)

/-- Write the resolved content on top of the winner. -/
def writeFinal (path : Path) (plan : Plan) : Hub ResolveError Unit :=
  match plan.finalContent with
  | none => pure ()
  | some content => do
    let rev ← orCas (CouchClient.putDoc .resolver path (some plan.winnerRev)
      ⟨some path, some plan.finalMtime, some plan.finalContentType⟩)
    let _ ← orCas (CouchClient.putAttachment .resolver path rev plan.finalContentType content)

/-- Delete every losing leaf: CouchDB never clears `_conflicts` on its
own. -/
def deleteLosers (path : Path) : List Rev → Hub ResolveError Unit
  | [] => pure ()
  | rev :: revs => do
    let _ ← orCas (CouchClient.deleteDoc .resolver path rev)
    deleteLosers path revs

def applyPlan (env : HubEnv) (path : Path) (plan : Plan) : Hub ResolveError (List Path) := do
  let written ← writeCopies env path plan.copies
  writeFinal path plan
  deleteLosers path plan.loserRevs
  return written

/-! ## The two loops -/

/-- Write a plan, or go round again when one of its writes was refused. -/
def applyOrRetry (env : HubEnv) (path : Path) (plan : Plan) (again : Hub ResolveError Outcome) :
    Hub ResolveError Outcome := do
  match ← Fallible.attempt (applyPlan env path plan) with
  | .ok copies => return .resolved ⟨path, plan.kind, copies⟩
  | .error .casConflict => again
  | .error e => throw e

/-- The plan for leaves of which a tombstone wins: the live leaf of latest
edit is written on top of the highest tombstone. -/
def planDeleteWinner (leaves : List Leaf) : Option Plan :=
  match maxByKey Leaf.mtime (leaves.filter fun l => !l.deleted),
    maxByKey (fun l : Leaf => l.rev.gen) (leaves.filter fun l => l.deleted) with
  | some edit, some tombstone =>
    some (editWon edit tombstone.rev
      ((leaves.filter fun l => l.rev ≠ tombstone.rev).map Leaf.rev))
  | _, _ => none

def resolveDeleteWinnerLoop (env : HubEnv) (path : Path) : ℕ → Hub ResolveError Outcome
  | 0 => throw .maxRetries
  | tries + 1 => do
    let raws ← orCouch (CouchClient.getDocLeaves env.leafLines path)
    if raws.length < 2 then return .noConflict
    let leaves ← leavesFromDocs path raws
    match planDeleteWinner leaves with
    | none => return .noConflict
    | some plan => applyOrRetry env path plan (resolveDeleteWinnerLoop env path tries)

/-- `get_doc` does not show a document whose winner is deleted, but a live
leaf may be left under it. -/
def resolveDeleteWinner (env : HubEnv) (path : Path) : Hub ResolveError Outcome :=
  resolveDeleteWinnerLoop env path maxRetries

def resolveLoop (env : HubEnv) (path : Path) : ℕ → Hub ResolveError Outcome
  | 0 => throw .maxRetries
  | tries + 1 => do
    match ← orCouch (CouchClient.getDoc path) with
    | none => resolveDeleteWinner env path
    | some winner =>
      if winner.conflicts.isEmpty then return .noConflict
      let leaves ← fetchLeaves path (winner.rev :: winner.conflicts)
      let plan ← planResolution env path leaves winner.rev
      applyOrRetry env path plan (resolveLoop env path tries)

/-- Resolve the path's conflict if there is one. -/
def resolve (env : HubEnv) (path : Path) : Hub ResolveError Outcome :=
  resolveLoop env path maxRetries

end Resolver

end FileSync
