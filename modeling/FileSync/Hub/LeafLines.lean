import FileSync.Model.OpenRevs
/-!
# The leaves in a multipart answer

The parser takes every line of the body that starts with a brace and reads as
JSON, whichever part it is in. So it returns the leaves where no attachment
holds such a line, and what such lines say beside them where one does. Of a
JSON array it returns the elements, and an element is not the document it
holds.
-/

namespace FileSync

open CouchClient

namespace OpenRevs

/-! ## What CouchDB answers -/

/-- A line that no leaf is on: a delimiter, a header, the blank line after
the headers. -/
structure PlainLine where
  text : String
  unbroken : '\n' ∉ text.toList
  unbraced : startsWith "\x7b" (trim (text ++ "\r")) = false

/-- A part's header. -/
structure Header where
  name : String
  value : String
  unbroken : '\n' ∉ name.toList ∧ '\n' ∉ value.toList
  /-- The name starts with neither a blank nor a brace. -/
  named : ∃ c, name.toList.head? = some c ∧ isWhitespace c = false ∧ c ≠ '\x7b'

structure Boundary where
  text : String
  unbroken : '\n' ∉ text.toList

/-- A leaf's document on one line. -/
structure LeafDoc (S : Serde) where
  doc : Json
  text : String
  reads : S.fromStr text = some doc
  braced : ∃ inner, text.toList = '\x7b' :: (inner ++ ['\x7d'])
  unbroken : '\n' ∉ text.toList

structure Attached where
  headers : List Header
  data : Bytes

/-- One leaf's part: headers, the document, and the attachments as parts of
their own, if there are any. -/
structure LeafPart (S : Serde) extends LeafDoc S where
  headers : List Header
  inner : Boundary
  docHeaders : List Header
  attachments : List Attached

/-- A text in UTF-8. -/
def utf8 (s : String) : Bytes := s.toList.flatMap String.utf8EncodeChar

/-- The boundary does not occur in a part's document and attachments. -/
def Apart {S : Serde} (boundary : Boundary) (part : LeafPart S) : Prop :=
  ∀ bytes ∈ utf8 part.text :: part.attachments.map Attached.data,
    ¬ utf8 boundary.text <:+: bytes

structure Multipart (S : Serde) where
  boundary : Boundary
  parts : List (LeafPart S)
  apart : ∀ part ∈ parts, Apart boundary part ∧ Apart part.inner part

/-! ## Text -/

variable {S : Serde} {s t : String}

theorem utf8_append (s t : String) : utf8 (s ++ t) = utf8 s ++ utf8 t := by
  rw [utf8, String.toList_append, List.flatMap_append]
  rfl

/-- A line break in UTF-8 is one in the text. -/
theorem not_mem_utf8 (h : '\n' ∉ s.toList) : (10 : UInt8) ∉ utf8 s := by
  intro hmem
  obtain ⟨c, hc, hbyte⟩ := List.mem_flatMap.mp hmem
  -- the bytes of every other character are its own value, or at least 128
  have hn : c.val.toNat = 10 := by
    unfold String.utf8EncodeChar at hbyte
    dsimp only at hbyte
    split_ifs at hbyte
    all_goals
      simp only [List.mem_cons, List.not_mem_nil, or_false, ← UInt8.toNat_inj, UInt8.toNat_ofNat',
        UInt8.reduceToNat] at hbyte
      omega
  have hc' : c = '\n' := Char.ext (UInt32.toNat_inj.1 hn)
  exact h (hc' ▸ hc)

theorem lineText_utf8 (s : String) : lineText (utf8 s) = trim s := by
  have hbytes : (⟨(utf8 s).toArray⟩ : ByteArray) = s.toByteArray := by
    rw [← String.utf8Encode_toList, List.utf8Encode]
    exact ByteArray.ext List.data_toByteArray.symm
  rw [lineText, hbytes, String.fromUTF8?, dif_pos s.isValidUTF8]
  rfl

/-- What starts with neither a blank nor a brace still does when trimmed. -/
theorem unbraced_of_head {c : Char} (h : s.toList.head? = some c) (hblank : isWhitespace c = false)
    (hbrace : c ≠ '\x7b') : startsWith "\x7b" (trim s) = false := by
  obtain ⟨rest, hs⟩ := List.head?_eq_some_iff.1 h
  have hdrop : (c :: rest).dropWhile isWhitespace = c :: rest := by
    rw [List.dropWhile_cons_of_neg (by simp [hblank])]
  rw [startsWith, trim, String.toList_ofList, hs, hdrop]
  rcases hr : (c :: rest).rdropWhile isWhitespace with _ | ⟨d, ds⟩
  · rfl
  · obtain ⟨more, hmore⟩ := List.rdropWhile_prefix isWhitespace (l := c :: rest)
    rw [hr, List.cons_append] at hmore
    rw [(List.cons.inj hmore).1]
    simpa [List.isPrefixOf] using hbrace.symm

/-- A text between braces is left when its line's end is trimmed. -/
theorem trim_braced (h : ∃ inner, s.toList = '\x7b' :: (inner ++ ['\x7d'])) :
    trim (s ++ "\r") = s := by
  obtain ⟨inner, hs⟩ := h
  have hend : (s ++ "\r").toList = '\x7b' :: (inner ++ ['\x7d'] ++ ['\r']) := by
    rw [String.toList_append, hs]
    rfl
  have hkept : ('\x7b' :: (inner ++ ['\x7d'] ++ ['\r'])).rdropWhile isWhitespace =
      '\x7b' :: (inner ++ ['\x7d']) := by
    rw [← List.cons_append, List.rdropWhile_concat_pos _ _ _ (by decide), ← List.cons_append,
      List.rdropWhile_concat_neg _ _ _ (by decide)]
  rw [trim, hend, List.dropWhile_cons_of_neg (by decide), hkept, ← hs, String.ofList_toList]

/-! ## The body -/

namespace PlainLine

def blank : PlainLine := ⟨"", by decide, by decide⟩

/-- A line is told by its first character. -/
def ofHead (text : String) (unbroken : '\n' ∉ text.toList)
    (head : ∃ c, text.toList.head? = some c ∧ isWhitespace c = false ∧ c ≠ '\x7b') :
    PlainLine where
  text := text
  unbroken := unbroken
  unbraced := by
    obtain ⟨c, hc, hblank, hbrace⟩ := head
    refine unbraced_of_head (c := c) ?_ hblank hbrace
    rw [String.toList_append, List.head?_append, hc]
    rfl

end PlainLine

theorem not_mem_append (hs : '\n' ∉ s.toList) (ht : '\n' ∉ t.toList) :
    '\n' ∉ (s ++ t).toList := by
  rw [String.toList_append, List.mem_append]
  exact fun h => h.elim hs ht

/-- `name: value`. -/
def Header.line (h : Header) : PlainLine :=
  .ofHead (h.name ++ (": " ++ h.value))
    (not_mem_append h.unbroken.1 (not_mem_append (by decide) h.unbroken.2)) (by
      obtain ⟨c, hc, hrest⟩ := h.named
      refine ⟨c, ?_, hrest⟩
      rw [String.toList_append, List.head?_append, hc]
      rfl)

namespace Boundary

/-- The line before a part. -/
def delimiter (b : Boundary) : PlainLine :=
  .ofHead ("--" ++ b.text) (not_mem_append (by decide) b.unbroken) ⟨'-', by
    rw [String.toList_append]
    rfl, by decide, by decide⟩

/-- The line after the last part. -/
def close (b : Boundary) : PlainLine :=
  .ofHead ("--" ++ (b.text ++ "--"))
    (not_mem_append (by decide) (not_mem_append b.unbroken (by decide))) ⟨'-', by
    rw [String.toList_append]
    rfl, by decide, by decide⟩

end Boundary

/-- What the body is made of; each piece has its line's end after it. -/
inductive Piece (S : Serde)
  | line (l : PlainLine)
  | leaf (d : LeafDoc S)
  | data (bytes : Bytes)

namespace Piece

def bytes : Piece S → Bytes
  | line l => utf8 l.text
  | leaf d => utf8 d.text
  | data bytes => bytes

/-- The pieces one after another. -/
def render (pieces : List (Piece S)) : Bytes := pieces.flatMap fun p => p.bytes ++ [13, 10]

end Piece

/-- Headers and the blank line after them. -/
def head (headers : List Header) : List (Piece S) :=
  headers.map (fun h => .line h.line) ++ [.line .blank]

/-- An attachment's part. -/
def Attached.pieces (inner : Boundary) (a : Attached) : List (Piece S) :=
  .line inner.delimiter :: head a.headers ++ [.data a.data]

/-- A leaf's part: its document alone, or with its attachments as parts
within the part. -/
def LeafPart.pieces (boundary : Boundary) (part : LeafPart S) : List (Piece S) :=
  .line boundary.delimiter :: head part.headers ++
    if part.attachments.isEmpty then [.leaf part.toLeafDoc]
    else .line part.inner.delimiter :: head part.docHeaders ++ [.leaf part.toLeafDoc] ++
      part.attachments.flatMap (Attached.pieces part.inner) ++ [.line part.inner.close]

def Multipart.body (m : Multipart S) : Bytes :=
  Piece.render (m.parts.flatMap (LeafPart.pieces m.boundary) ++ [.line m.boundary.close])

/-- One element for each leaf. -/
def okElement (doc : Json) : Json := .object [("ok", doc)]

end OpenRevs

open OpenRevs

/-- What CouchDB answers: as its `Content-Type` says a multipart body, or a
JSON array. -/
inductive OpenRevs (S : Serde)
  | multipart (contentType : String) (h : isMultipart contentType = true) (m : Multipart S)
  | array (contentType : String) (h : isMultipart contentType = false) (docs : List Json)
      (body : Bytes) (reads : S.fromSlice body = some (docs.map okElement))

namespace OpenRevs

def contentType : OpenRevs S → String
  | multipart contentType _ _ => contentType
  | array contentType _ _ _ _ => contentType

def body : OpenRevs S → Bytes
  | multipart _ _ m => m.body
  | array _ _ _ body _ => body

/-- The leaves. -/
def docs : OpenRevs S → List Json
  | multipart _ _ m => m.parts.map fun part => part.doc
  | array _ _ docs _ _ => docs

/-- What is read in an attachment: its lines that pass for leaves, the last
with the end of the line that it is on. -/
def strays (S : Serde) (data : Bytes) : List Json :=
  ((data ++ [13]).splitOn 10).filterMap (leafOfLine S)

/-- No attachment has such lines; and an array is empty. -/
def NoStrays : OpenRevs S → Prop
  | multipart _ _ m => ∀ part ∈ m.parts, ∀ a ∈ part.attachments, strays S a.data = []
  | array _ _ docs _ _ => docs = []

/-! ## What the parser makes of it -/

namespace Piece

/-- What is read on the lines of a piece. -/
def found (p : Piece S) : List Json :=
  ((p.bytes ++ [13]).splitOn 10).filterMap (leafOfLine S)

/-- **The body is read piece by piece**: a line's end is the only place where
the body is split, and each piece has one. -/
theorem filterMap_render (pieces : List (Piece S)) :
    ((render pieces).splitOn 10).filterMap (leafOfLine S) = pieces.flatMap found := by
  induction pieces with
  | nil => rfl
  | cons p pieces ih =>
    have hsplit : render (p :: pieces) = (p.bytes ++ [13]) ++ 10 :: render pieces := by
      simp only [render, List.flatMap_cons, List.append_assoc, List.cons_append, List.nil_append]
    rw [hsplit, List.splitOn_append_cons_self, List.filterMap_append, ih, List.flatMap_cons]
    rfl

/-- One text on one line. -/
theorem found_of_unbroken (h : '\n' ∉ s.toList) :
    ((utf8 s ++ [13]).splitOn 10).filterMap (leafOfLine S) =
      (if startsWith "\x7b" (trim (s ++ "\r")) then S.fromStr (trim (s ++ "\r"))
        else none).toList := by
  have hline : utf8 s ++ [13] = utf8 (s ++ "\r") := by
    rw [utf8_append]
    rfl
  have hone : (10 : UInt8) ∉ utf8 (s ++ "\r") := not_mem_utf8 (not_mem_append h (by decide))
  rw [hline, List.splitOn_eq_singleton hone, List.filterMap_cons, List.filterMap_nil, leafOfLine,
    lineText_utf8]
  cases (if startsWith "\x7b" (trim (s ++ "\r")) then S.fromStr (trim (s ++ "\r")) else none) with
  | none => rfl
  | some doc => rfl

@[simp] theorem found_line (l : PlainLine) : (line l : Piece S).found = [] := by
  rw [found, bytes, found_of_unbroken l.unbroken, l.unbraced]
  rfl

@[simp] theorem found_leaf (d : LeafDoc S) : (leaf d).found = [d.doc] := by
  have hbrace : startsWith "\x7b" d.text = true := by
    obtain ⟨inner, hinner⟩ := d.braced
    rw [startsWith, hinner]
    rfl
  rw [found, bytes, found_of_unbroken d.unbroken, trim_braced d.braced, if_pos hbrace, d.reads]
  rfl

@[simp] theorem found_data (bytes : Bytes) : (data bytes : Piece S).found = strays S bytes := rfl

end Piece

theorem found_head (headers : List Header) :
    (head headers : List (Piece S)).flatMap Piece.found = [] := by
  rw [head, List.flatMap_append, List.flatMap_map]
  simp

theorem found_attached (inner : Boundary) (a : Attached) :
    (a.pieces inner : List (Piece S)).flatMap Piece.found = strays S a.data := by
  simp [Attached.pieces, found_head]

/-- **A part is read as its document and what strays from its attachments.** -/
theorem found_part (boundary : Boundary) (part : LeafPart S) :
    (part.pieces boundary).flatMap Piece.found =
      part.doc :: part.attachments.flatMap fun a => strays S a.data := by
  have hattached : part.attachments.flatMap
      (fun a => (a.pieces part.inner : List (Piece S)).flatMap Piece.found) =
        part.attachments.flatMap fun a => strays S a.data :=
    congrArg part.attachments.flatMap (funext (found_attached part.inner))
  rw [LeafPart.pieces]
  cases hnone : part.attachments.isEmpty with
  | true =>
    rw [List.isEmpty_iff.mp hnone]
    simp [found_head]
  | false =>
    simp [found_head, List.flatMap_assoc, hattached]

theorem parse_body (m : Multipart S) {contentType : String} (h : isMultipart contentType = true) :
    parseOpenRevs S contentType m.body =
      m.parts.flatMap fun part => part.doc :: part.attachments.flatMap fun a => strays S a.data := by
  rw [parseOpenRevs, if_pos h, Multipart.body, Piece.filterMap_render, List.flatMap_append,
    List.flatMap_assoc]
  simp [found_part]

/-- Of lists that start with one element each there is nothing else where
they make up those elements. -/
theorem flatMap_cons_eq_map {α β : Type} {f : α → β} {g : α → List β} {l : List α} :
    (l.flatMap fun a => f a :: g a) = l.map f ↔ ∀ a ∈ l, g a = [] := by
  have hlong : ∀ l : List α, l.length ≤ (l.flatMap fun a => f a :: g a).length := by
    intro l
    induction l with
    | nil => exact le_rfl
    | cons a l ih =>
      rw [List.flatMap_cons, List.length_append, List.length_cons, List.length_cons]
      omega
  induction l with
  | nil => simp
  | cons a l ih =>
    rw [List.flatMap_cons, List.map_cons, List.cons_append, List.cons.injEq, List.forall_mem_cons]
    constructor
    · rintro ⟨-, h⟩
      have hlen := congrArg List.length h
      have hrest := hlong l
      rw [List.length_append, List.length_map] at hlen
      have hnil : g a = [] := List.length_eq_zero_iff.1 (by omega)
      rw [hnil, List.nil_append] at h
      exact ⟨hnil, ih.1 h⟩
    · rintro ⟨hnil, hrest⟩
      exact ⟨rfl, by rw [hnil, List.nil_append, ih.2 hrest]⟩

/-- An element is not the document it holds. -/
theorem okElement_ne (doc : Json) : okElement doc ≠ doc := by
  intro h
  have hsize := congrArg sizeOf h
  simp only [okElement, Json.object.sizeOf_spec, List.cons.sizeOf_spec, Prod.mk.sizeOf_spec] at hsize
  omega

/-- **The parser returns the leaves exactly where nothing strays.** -/
theorem parse_eq_docs_iff (S : Serde) (r : OpenRevs S) :
    parseOpenRevs S r.contentType r.body = r.docs ↔ r.NoStrays := by
  cases r with
  | multipart type h m =>
    have hiff : parseOpenRevs S type m.body = m.parts.map (fun part => part.doc) ↔
        ∀ part ∈ m.parts, part.attachments.flatMap (fun a => strays S a.data) = [] := by
      rw [parse_body m h, flatMap_cons_eq_map]
    exact hiff.trans (forall₂_congr fun part _ => List.flatMap_eq_nil_iff)
  | array type h ds bytes reads =>
    have hparse : parseOpenRevs S type bytes = ds.map okElement := by
      rw [parseOpenRevs, h, if_neg Bool.false_ne_true, reads, Option.getD_some]
    have hiff : parseOpenRevs S type bytes = ds ↔ ds = [] := by
      rw [hparse]
      rcases ds with _ | ⟨d, ds⟩
      · simp
      · refine iff_of_false (fun heq => ?_) (List.cons_ne_nil d ds)
        rw [List.map_cons] at heq
        exact okElement_ne d (List.cons.inj heq).1
    exact hiff

/-! ## A file that reads as a leaf -/

def leafJson : Json := .object [("_rev", .string "1-a")]

/-- The leaf in an array. -/
def arrayBody : Bytes := utf8 "[\x7b\"ok\":\x7b\"_rev\":\"1-a\"\x7d\x7d]"

/-- Readers of these texts. -/
def someJson : Serde where
  fromStr s :=
    if s = "\x7b\"_rev\":\"1-a\"\x7d" then some leafJson
    else if s = "\x7b\x7d" then some (.object [])
    else none
  fromSlice body := if body = arrayBody then some [okElement leafJson] else none

/-- One leaf, its file an empty JSON object. -/
def leafWithFile : LeafPart someJson where
  doc := leafJson
  text := "\x7b\"_rev\":\"1-a\"\x7d"
  reads := by simp [someJson]
  braced := ⟨"\"_rev\":\"1-a\"".toList, by decide⟩
  unbroken := by decide
  headers := []
  inner := ⟨"inner", by decide⟩
  docHeaders := []
  attachments := [⟨[], utf8 "\x7b\x7d"⟩]

theorem apart_leafWithFile :
    Apart ⟨"outer", by decide⟩ leafWithFile ∧ Apart leafWithFile.inner leafWithFile := by
  unfold Apart
  decide +kernel

def fileAnswer : OpenRevs someJson :=
  .multipart "multipart/mixed" (by decide +kernel)
    ⟨⟨"outer", by decide⟩, [leafWithFile], List.forall_mem_singleton.2 apart_leafWithFile⟩

theorem reads_arrayBody : someJson.fromSlice arrayBody = some ([leafJson].map okElement) := by
  simp [someJson]

def arrayAnswer : OpenRevs someJson :=
  .array "application/json" (by decide +kernel) [leafJson] arrayBody reads_arrayBody

/-- The file is returned as a second leaf; and of an array the element, not
the document. -/
theorem file_read_as_leaf :
    parseOpenRevs someJson fileAnswer.contentType fileAnswer.body ≠ fileAnswer.docs ∧
      parseOpenRevs someJson arrayAnswer.contentType arrayAnswer.body ≠ arrayAnswer.docs := by
  constructor
  · intro h
    have htwo : (parseOpenRevs someJson fileAnswer.contentType fileAnswer.body).length = 2 := by
      decide +kernel
    rw [h] at htwo
    exact absurd htwo (by decide)
  · intro h
    have hparse : parseOpenRevs someJson arrayAnswer.contentType arrayAnswer.body =
        [okElement leafJson] := by
      rw [parseOpenRevs, if_neg (by decide +kernel)]
      exact congrArg (fun docs => docs.getD []) reads_arrayBody
    rw [hparse] at h
    exact okElement_ne leafJson (List.cons.inj h).1

end OpenRevs

end FileSync
