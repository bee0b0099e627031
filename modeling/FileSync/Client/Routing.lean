import FileSync.Model.HubUrls
import FileSync.Hub.Addressing
/-!
# Which routes the client's requests reach

None. What the client's constructor pushes onto the base URL, so that the
last segment is not replaced, is itself a segment, and encoded: every URL
leads through `%2F`, where the hub has no route. Nor would the file route be
met without it, since the slash after `file` is encoded as well.
-/

namespace FileSync

namespace Routing

open HubRoute

variable {U : UrlRules} {E : UrlEncoding} {decode : String → Option String}
variable {base sub : String} {path : Path}

/-! ## The path of a request -/

/-- The client's own base: one more segment, the escaped slash. -/
theorem new_eq (hslash : U.encode "/" = "%2F") (base : String) :
    HttpClient.new U base = (if base = "/" then base else base ++ "/") ++ "%2F" := by
  have hdot : kept "/" ≠ "." := by decide
  have hdots : kept "/" ≠ ".." := by decide
  rw [HttpClient.new, U.push_segment base "/" hdot hdots, hslash]

theorem new_ne_slash (hslash : U.encode "/" = "%2F") : HttpClient.new U base ≠ "/" := by
  intro h
  have hchars := congrArg String.toList h
  rw [new_eq hslash, String.toList_append] at hchars
  have hlen := congrArg List.length hchars
  have hthree : "%2F".toList.length = 3 := by decide
  have hone : "/".toList.length = 1 := by decide
  rw [List.length_append, hthree, hone] at hlen
  omega

/-- **The path of a request**: the base's, the escaped slash, and all that is
asked for as one segment. -/
theorem buildUrl_eq (hslash : U.encode "/" = "%2F") (hdot : kept sub ≠ ".")
    (hdots : kept sub ≠ "..") : HttpClient.buildUrl U base sub =
      (if base = "/" then base else base ++ "/") ++ "%2F" ++ "/" ++ U.encode sub := by
  rw [HttpClient.buildUrl, U.push_segment _ sub hdot hdots, if_neg (new_ne_slash hslash),
    new_eq hslash]

/-- The base's path is where the hub is mounted, and slashes. -/
theorem exists_slashes (base : String) : ∃ slashes, base.toList = mount base ++ slashes ∧
    ∀ c ∈ slashes, c = '/' := by
  refine ⟨base.toList.rtakeWhile (· = '/'), (List.rdropWhile_append_rtakeWhile ..).symm, ?_⟩
  intro c hc
  simpa using List.mem_rtakeWhile_imp hc

/-- Slashes and then the escaped one begin with a slash that a slash or the
escape follows. -/
theorem exists_second {slashes : List Char} (hall : ∀ c ∈ slashes, c = '/') (cs : List Char) :
    ∃ c cs', slashes ++ '/' :: '%' :: cs = '/' :: c :: cs' ∧ (c = '/' ∨ c = '%') := by
  match slashes, hall with
  | [], _ => exact ⟨'%', cs, rfl, .inr rfl⟩
  | [a], hall =>
    obtain rfl := hall a List.mem_cons_self
    exact ⟨'/', '%' :: cs, rfl, .inl rfl⟩
  | a :: b :: rest, hall =>
    obtain rfl := hall a List.mem_cons_self
    exact ⟨b, rest ++ '/' :: '%' :: cs, rfl,
      .inl (hall b (List.mem_cons_of_mem _ List.mem_cons_self))⟩

/-- What is left of a request's path at the mount. -/
theorem exists_rest (base : String) (hslash : U.encode "/" = "%2F") (hdot : kept sub ≠ ".")
    (hdots : kept sub ≠ "..") : ∃ c cs, (HttpClient.buildUrl U base sub).toList =
      mount base ++ '/' :: c :: cs ∧ (c = '/' ∨ c = '%') := by
  obtain ⟨slashes, hbase, hall⟩ := exists_slashes base
  have hescape : "%2F".toList = ['%', '2', 'F'] := by decide
  have hsep : "/".toList = ['/'] := by decide
  rw [buildUrl_eq hslash hdot hdots]
  simp only [String.toList_append, hescape, hsep]
  by_cases hroot : base = "/"
  · subst hroot
    have hmount : mount "/" = [] := by decide
    rw [if_pos rfl, hmount]
    exact ⟨'%', _, rfl, .inr rfl⟩
  · rw [if_neg hroot, String.toList_append, hbase, hsep]
    obtain ⟨c, cs, hcs, hc⟩ := exists_second hall (['2', 'F'] ++ ['/'] ++ (U.encode sub).toList)
    refine ⟨c, cs, ?_, hc⟩
    rw [← hcs]
    simp only [List.append_assoc, List.cons_append, List.nil_append]

/-! ## The router -/

/-- The router has nothing below a path that begins like this. -/
theorem ofPath_eq_none {c : Char} {cs : List Char} (hc : c = '/' ∨ c = '%')
    (h : path.toList = '/' :: c :: cs) : ofPath decode path = none := by
  have hne : ∀ {d : Char} {ds : List Char} {s : String}, s.toList = '/' :: d :: ds →
      d ≠ '/' → d ≠ '%' → path ≠ s := by
    rintro d ds s hs hd hd' rfl
    rw [h] at hs
    injection hs with _ hs
    injection hs with hcd _
    rcases hc with rfl | rfl
    · exact hd hcd.symm
    · exact hd' hcd.symm
  have hchanges : path ≠ "/changes" := hne rfl (by decide) (by decide)
  have hlongpoll : path ≠ "/changes/longpoll" := hne rfl (by decide) (by decide)
  have hmetadata : path ≠ "/metadata" := hne rfl (by decide) (by decide)
  have hfile : ¬ (startsWith "/file/" path ∧ path ≠ "/file/") := by
    rintro ⟨hstart, -⟩
    have hprefix : "/file/".toList <+: path.toList := List.isPrefixOf_iff_prefix.1 hstart
    obtain ⟨rest, hrest⟩ := hprefix
    have hchars : path.toList = '/' :: 'f' :: (['i', 'l', 'e', '/'] ++ rest) := hrest.symm
    have hpath : path ≠ String.ofList (path.toList) :=
      hne ((String.toList_ofList ..).trans hchars) (by decide) (by decide)
    exact hpath (String.ofList_toList ..).symm
  rw [ofPath, if_neg hchanges, if_neg hlongpoll, if_neg hmetadata, if_neg hfile]

/-- **No request reaches a route.** -/
theorem served_buildUrl (hslash : U.encode "/" = "%2F") (hdot : kept sub ≠ ".")
    (hdots : kept sub ≠ "..") : served decode base (HttpClient.buildUrl U base sub) = none := by
  obtain ⟨c, cs, hpath, hc⟩ := exists_rest base hslash hdot hdots
  rw [served, hpath, if_pos (List.prefix_append _ _), List.drop_left]
  exact ofPath_eq_none hc (String.toList_ofList ..)

/-- What begins with a letter is no dot segment. -/
theorem kept_ne_of_head {c : Char} {cs : List Char} {dots : String} (hsub : sub.toList = c :: cs)
    (hc : isDropped c = false) (hne : dots.toList.head? ≠ some c) : kept sub ≠ dots := by
  rintro rfl
  refine hne ?_
  rw [kept, hsub, List.filter_cons_of_pos (by simp [hc]), String.toList_ofList, List.head?_cons]

theorem served_fileUrl (decode : String → Option String) (hslash : U.encode "/" = "%2F")
    (base : String) (path : Path) :
    served decode base (HubClient.fileUrl U E base path) = none := by
  have hsub : ("file/" ++ HubClient.encodePath E path).toList =
      'f' :: (['i', 'l', 'e', '/'] ++ (HubClient.encodePath E path).toList) :=
    String.toList_append
  exact served_buildUrl hslash (kept_ne_of_head hsub rfl (by decide))
    (kept_ne_of_head hsub rfl (by decide))

/-- **The client's URLs are never served**: under no base does the URL of a
file lead to the route of files with the file's path, or that of the feed to
the feed. Neither leads to any route. -/
theorem urls_never_served (U : UrlRules) (E : UrlEncoding) (decode : String → Option String)
    (hslash : U.encode "/" = "%2F") (base : String) (path : Path) :
    served decode base (HubClient.fileUrl U E base path) ≠ some (.file path) ∧
      served decode base (HubClient.changesUrl U base) ≠ some .changes := by
  have hfile := served_fileUrl (U := U) (E := E) decode hslash base path
  have hchanges : served decode base (HubClient.changesUrl U base) = none :=
    served_buildUrl hslash (by decide) (by decide)
  rw [hfile, hchanges]
  exact ⟨nofun, nofun⟩

/-- At the root of a server, `GET /file/notes/a.txt` is what the hub serves
as that file, and `GET /%2F/file%2Fnotes%2Fa.txt` what the client asks for. -/
theorem nested_file_never_served :
    served Percent.decode "/" "/file/notes/a.txt" = some (.file "notes/a.txt") ∧
      HubClient.fileUrl Addressing.encodingSlashes .percent "/" "notes/a.txt" =
        "/%2F/file%2Fnotes%2Fa.txt" ∧
      ¬ (served Percent.decode "/"
          (HubClient.fileUrl Addressing.encodingSlashes .percent "/" "notes/a.txt") =
            some (.file "notes/a.txt") ∧
        served Percent.decode "/" (HubClient.changesUrl Addressing.encodingSlashes "/") =
          some .changes) := by
  decide +kernel

/-- The rules of the example encode a slash as the library does. -/
theorem root_urls_never_served :
    served Percent.decode "/"
        (HubClient.fileUrl Addressing.encodingSlashes .percent "/" "notes/a.txt") ≠
          some (.file "notes/a.txt") ∧
      served Percent.decode "/" (HubClient.changesUrl Addressing.encodingSlashes "/") ≠
        some .changes :=
  urls_never_served _ _ _ (by decide +kernel) "/" "notes/a.txt"

end Routing

end FileSync
