import FileSync.Model.Couch
/-!
# Three-way merge

The merge of two texts over a base is another library's (`MergeStrings`);
what is decided here is which bytes are texts at all and what its outcome
means. The base comes from the deepest revision two histories share.
-/

namespace FileSync

/-- What `merge_strings` returns: the text, and whether it has conflict
markers in it. -/
structure MergeResult where
  content : String
  hasConflicts : Bool
deriving DecidableEq, Repr

/-- `merge_strings` under its default options. -/
abbrev MergeStrings := String → String → String → Except String MergeResult

inductive MergeError
  | conflict
  | notText
  | internal (message : String)
deriving DecidableEq, Repr

namespace Diff3

/-- The text some bytes are the UTF-8 encoding of. -/
def toText (bytes : Bytes) : Except MergeError String :=
  match String.fromUTF8? ⟨bytes.toArray⟩ with
  | some s => .ok s
  | none => .error .notText

def merge (mergeStrings : MergeStrings) (base mine theirs : Bytes) : Except MergeError Bytes := do
  let base ← toText base
  let mine ← toText mine
  let theirs ← toText theirs
  let result ← (mergeStrings base mine theirs).mapError .internal
  if result.hasConflicts then .error .conflict else .ok result.content.toUTF8.toList

/-- The full revision of a history's entry. -/
def revisionAt (start : ℕ) (ids : List String) (index : ℕ) : Option Rev :=
  if index ≤ start then ids[index]?.map fun id => ⟨start - index, id⟩ else none

/-- The newest entry of `bIds` that is in `aIds`, as a full revision. -/
def commonAncestor (aIds : List String) (bStart : ℕ) (bIds : List String) : Option Rev :=
  (bIds.findIdx? fun id => decide (id ∈ aIds)).bind (revisionAt bStart bIds)

end Diff3

end FileSync
