import FileSync.Model.FileResponse
/-!
# A file arrives as it was sent

Its bytes, its revision and its time arrive as the hub has them. Its content
type does if it is a header value of visible ASCII without blanks at its ends;
otherwise it is one after it has been fetched once, and stays that from then
on.
-/

namespace FileSync

namespace HeaderValue

variable {lenient : Bool} {s : String} {c : Char}

/-- The text arrives as it is. -/
structure Plain (s : String) : Prop where
  visible : s.toList.all isVisible = true
  bare : Fields.Bare isBlank s.toList

/-- Neither a blank nor beyond visible ASCII. -/
def isGraphic (c : Char) : Bool := isVisible c && !isBlank c

theorem plain_of_graphic (h : ∀ c ∈ s.toList, isGraphic c = true) : Plain s := by
  have hsplit : ∀ c ∈ s.toList, isVisible c = true ∧ isBlank c = false := fun c hc => by
    simpa [isGraphic] using h c hc
  refine ⟨List.all_eq_true.2 fun c hc => (hsplit c hc).1, fun hne => ?_, fun hne => ?_⟩
  · rw [(hsplit _ (List.head_mem hne)).2]
    exact Bool.false_ne_true
  · rw [(hsplit _ (List.getLast_mem hne)).2]
    exact Bool.false_ne_true

theorem fromStr_of_visible (h : s.toList.all isVisible = true) : fromStr lenient s = some s := by
  refine if_pos (List.all_eq_true.2 fun c hc => ?_)
  rw [List.all_eq_true.1 h c hc]
  rfl

theorem toStr_of_visible (h : s.toList.all isVisible = true) : toStr s = some s := if_pos h

theorem arrived_of_bare (h : Fields.Bare isBlank s.toList) : arrived s = s := by
  rw [arrived, Fields.strip_eq_self h, String.ofList_toList]

theorem isVisible_of_isBlank (h : isBlank c = true) : isVisible c = true := by
  have hcases : c = ' ' ∨ c = '\t' := by simpa [isBlank] using h
  rcases hcases with rfl | rfl <;> decide

theorem toList_arrived : (arrived s).toList = Fields.strip isBlank s.toList := by
  rw [arrived, String.toList_ofList]

/-- What does not arrive is visible. -/
theorem visible_arrived : (arrived s).toList.all isVisible = s.toList.all isVisible := by
  obtain ⟨-, ws, ws', hs, hws, hws'⟩ :=
    Fields.strip_eq_iff.1 (rfl : Fields.strip isBlank s.toList = _)
  have hall : ∀ {bs : List Char}, (∀ c ∈ bs, isBlank c = true) → bs.all isVisible = true :=
    fun h => List.all_eq_true.2 fun c hc => isVisible_of_isBlank (h c hc)
  rw [toList_arrived]
  conv_rhs => rw [hs, List.all_append, List.all_append, hall hws, hall hws']
  rw [Bool.true_and, Bool.and_true]

theorem plain_arrived (h : s.toList.all isVisible = true) : Plain (arrived s) := by
  refine ⟨visible_arrived.trans h, ?_⟩
  rw [toList_arrived]
  exact Fields.bare_strip _ _

/-- **A plain text** is read as it was sent. -/
theorem header_of_plain (h : Plain s) (name standIn : String) :
    HubClient.header name (arrived ((fromStr lenient s).getD standIn)) = .ok s := by
  rw [fromStr_of_visible h.visible, Option.getD_some, arrived_of_bare h.bare, HubClient.header,
    toStr_of_visible h.visible]

theorem isGraphic_of_isDigit (h : c.isDigit = true) : isGraphic c = true := by
  have hrange : 48 ≤ c.toNat ∧ c.toNat ≤ 57 := by
    simpa [Char.isDigit, UInt32.le_iff_toNat_le] using h
  have hspace : c ≠ ' ' := by
    rintro rfl
    exact absurd hrange.1 (by decide)
  have htab : c ≠ '\t' := by
    rintro rfl
    exact absurd hrange.1 (by decide)
  simp only [isGraphic, isVisible, isBlank, hspace, htab]
  simp
  omega

theorem isGraphic_repr (m : ℕ) : ∀ c ∈ m.repr.toList, isGraphic c = true := by
  rw [Nat.toList_repr]
  exact fun c hc => isGraphic_of_isDigit (Decimal.isDigit_toDigits m c hc)

theorem plain_int (n : ℤ) : Plain (toString n) := by
  refine plain_of_graphic ?_
  rw [Int.toString_eq_repr, Int.repr_eq_if]
  split
  · exact isGraphic_repr _
  · rw [String.toList_append]
    intro c hc
    rcases List.mem_append.1 hc with hc | hc
    · obtain rfl : c = '-' := by simpa using hc
      decide
    · exact isGraphic_repr _ c hc

theorem plain_revText {rev : Option Rev} (h : ∀ r ∈ rev, ∀ c ∈ r.hash.toList, isGraphic c = true) :
    Plain (revText rev) := by
  cases rev with
  | none => exact plain_of_graphic fun c hc => absurd hc List.not_mem_nil
  | some r =>
    refine plain_of_graphic fun c hc => ?_
    have hchars : (revText (some r)).toList = r.gen.repr.toList ++ '-' :: r.hash.toList := by
      show (toString r.gen ++ "-" ++ r.hash).toList = _
      simp
    rw [hchars] at hc
    rcases List.mem_append.1 hc with hc | hc
    · exact isGraphic_repr _ c hc
    · rcases List.mem_cons.1 hc with rfl | hc
      · decide
      · exact h r rfl c hc

/-- What a content type is fetched as. -/
def fetchedType (contentType : String) : String :=
  if contentType.toList.all isVisible then arrived contentType else octetStream

theorem plain_octetStream : Plain octetStream :=
  plain_of_graphic (List.all_eq_true.1 (by decide : octetStream.toList.all isGraphic = true))

theorem plain_fetchedType (contentType : String) : Plain (fetchedType contentType) := by
  unfold fetchedType
  split
  · rename_i hvisible
    exact plain_arrived hvisible
  · exact plain_octetStream

/-- **Fetched as it is** is what is plain. -/
theorem fetchedType_eq_self {contentType : String} :
    fetchedType contentType = contentType ↔ Plain contentType := by
  constructor
  · intro h
    rw [← h]
    exact plain_fetchedType contentType
  · intro h
    rw [fetchedType, if_pos h.visible, arrived_of_bare h.bare]

/-- Whichever side finds that it is no visible text, the stand-in is read. -/
theorem contentType_arrived (file : FileContent) :
    HubClient.contentType (Routes.fileResponse lenient file).arrived =
      fetchedType file.contentType := by
  obtain ⟨rev, mtime, contentType, content⟩ := file
  unfold HubClient.contentType
  dsimp only [FileResponse.arrived, Routes.fileResponse]
  by_cases hvisible : contentType.toList.all isVisible = true
  · rw [fromStr_of_visible hvisible, Option.getD_some, HubClient.header,
      toStr_of_visible (plain_arrived hvisible).visible, fetchedType, if_pos hvisible]
  · rw [fetchedType, if_neg hvisible]
    cases hsent : fromStr lenient contentType with
    | none =>
      -- the hub sends the stand-in
      rw [Option.getD_none, arrived_of_bare plain_octetStream.bare, HubClient.header,
        toStr_of_visible plain_octetStream.visible]
    | some text =>
      -- the hub sends it as it is, and the device does not read it
      obtain rfl : contentType = text := by
        unfold fromStr at hsent
        split at hsent
        exacts [Option.some.inj hsent, absurd hsent (by simp)]
      have hrefused : toStr (arrived contentType) = none := by
        rw [toStr, if_neg]
        rwa [visible_arrived]
      rw [Option.getD_some, HubClient.header, hrefused]

end HeaderValue

open HeaderValue

theorem HubClient.readFile_of_headers {response : FileResponse} {rev mtime : String} {n : ℤ}
    (hrev : header "x-file-rev" response.rev = .ok rev)
    (hmtime : header "x-file-mtime" response.mtime = .ok mtime)
    (hn : Decimal.parse 64 mtime = some n) :
    readFile response = .ok ⟨rev, n, contentType response, response.content⟩ := by
  simp only [readFile, hrev, hmtime, hn, bind, Except.bind, pure, Except.pure]

/-- **A file arrives as it was sent**, but for a content type that is no plain
text, which is settled once it has been fetched. -/
theorem HubClient.readFile_fileResponse (lenient : Bool) (file : FileContent)
    (hmtime : Decimal.Fits 64 file.mtime)
    (hrev : ∀ r ∈ file.rev, ∀ c ∈ r.hash.toList, isGraphic c = true) :
    HubClient.readFile (Routes.fileResponse lenient file).arrived =
      .ok ⟨revText file.rev, file.mtime, fetchedType file.contentType, file.content⟩ ∧
    (fetchedType file.contentType = file.contentType ↔ Plain file.contentType) ∧
      fetchedType (fetchedType file.contentType) = fetchedType file.contentType := by
  refine ⟨?_, fetchedType_eq_self, fetchedType_eq_self.2 (plain_fetchedType _)⟩
  have hrev : header "x-file-rev" (Routes.fileResponse lenient file).arrived.rev =
      .ok (revText file.rev) := header_of_plain (plain_revText hrev) _ ""
  have htime : header "x-file-mtime" (Routes.fileResponse lenient file).arrived.mtime =
      .ok (toString file.mtime) := header_of_plain (plain_int file.mtime) _ "0"
  rw [readFile_of_headers hrev htime (Decimal.parse_toString hmtime), contentType_arrived]
  rfl

/-- An accent and a blank in the content type, and a time before 1970. -/
def accented : FileContent := ⟨some ⟨2, "ab"⟩, -5, "é/b ", [1]⟩

theorem accented_arrives :
    HubClient.readFile (Routes.fileResponse true accented).arrived =
      .ok ⟨"2-ab", -5, octetStream, [1]⟩ := by
  have htime : Decimal.Fits 64 accented.mtime := by decide
  obtain ⟨h, -⟩ := HubClient.readFile_fileResponse true accented htime fun r hr => by
    obtain rfl := Option.some.inj hr
    exact List.all_eq_true.1 (by decide : "ab".toList.all isGraphic = true)
  exact h

end FileSync
