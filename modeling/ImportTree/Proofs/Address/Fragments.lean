import ImportTree.Proofs.Files.Chains
import Mathlib.Algebra.GroupWithZero.Nat

/-!
# References with a fragment

A reference is trimmed first, and then its fragment is cut off. White space in front of the fragment is not at the end
when the reference is trimmed, so it is left to what reads the rest: readers of structured addresses drop it again where
it is ASCII, but a plain path keeps it in the name of the document.
-/

namespace ImportTree

open Files (components)

variable {cs gap path base : List Char}

/-! ## White space -/

namespace Text

/-- The white space that trimming takes from the end of a text. -/
def looseEnd (cs : List Char) : List Char :=
  ((cs.dropWhile isSpace).reverse.takeWhile isSpace).reverse

theorem trim_append_looseEnd (cs : List Char) : trim cs ++ looseEnd cs = cs.dropWhile isSpace := by
  rw [trim, trimRight, looseEnd, ← List.reverse_append, List.takeWhile_append_dropWhile, List.reverse_reverse]

theorem isSpace_of_mem_looseEnd : ∀ c ∈ looseEnd cs, isSpace c = true := by
  intro c hc
  exact List.mem_takeWhile_imp (List.mem_reverse.mp hc)

/-- White space is taken from the end of what is not all white space. -/
theorem trim_ne_nil (h : looseEnd cs ≠ []) : trim cs ≠ [] := by
  -- What is left begins with a character that is no white space, so trimming the other end stops there at the latest.
  obtain ⟨c, rest, hrest⟩ : ∃ c rest, cs.dropWhile isSpace = c :: rest := by
    refine List.exists_cons_of_ne_nil fun hnil => h ?_
    rw [looseEnd, hnil]
    rfl
  have hc : ¬isSpace c = true := by
    have := List.head_dropWhile_not isSpace (by rw [hrest]; simp : cs.dropWhile isSpace ≠ [])
    simpa [hrest] using this
  intro hnil
  have hspace := trim_append_looseEnd cs
  rw [hnil, List.nil_append, hrest] at hspace
  exact hc (isSpace_of_mem_looseEnd c (hspace ▸ List.mem_cons_self ..))

/-- What is dropped from both ends of a text is dropped from the end of any text before it. -/
theorem dropWhile_both_append {p : Char → Bool} (h : ∀ c ∈ gap, p c = true) (cs : List Char) :
    ((cs ++ gap).dropWhile p).reverse.dropWhile p = (cs.dropWhile p).reverse.dropWhile p := by
  rw [List.dropWhile_append]
  split
  next hnil => rw [List.dropWhile_eq_nil_iff.mpr h, List.isEmpty_iff.mp hnil]
  next => rw [List.reverse_append, List.dropWhile_append_of_pos (by simpa using h)]

theorem length_joinWith (separator : Char) (parts : List (List Char)) :
    (joinWith separator parts).length = (parts.map fun part => part.length + 1).sum - 1 := by
  induction parts with
  | nil => rfl
  | cons part parts ih =>
      cases parts with
      | nil => simp [joinWith]
      | cons next parts =>
          rw [joinWith, List.length_append, List.length_cons, ih]
          · simp only [List.map_cons, List.sum_cons]
            omega
          · simp

end Text

namespace Address

/-! ## Structured addresses -/

theorem hasScheme_of_not_mem (h : ':' ∉ cs) : hasScheme cs = false := by
  simp [hasScheme, takeWhile_ne h]

/-- Whether there is a scheme is decided by what stands before the first colon. -/
theorem hasScheme_append (h : ':' ∉ gap) (cs : List Char) : hasScheme (cs ++ gap) = hasScheme cs := by
  by_cases hcolon : ':' ∈ cs
  · obtain ⟨scheme, rest, rfl, hscheme⟩ := List.eq_append_cons_of_mem hcolon
    have hstop (rest : List Char) : (scheme ++ ':' :: rest).takeWhile (· != ':') = scheme := by
      refine takeWhile_run (fun c hc => bne_iff_ne.mpr ?_) (by simp)
      rintro rfl
      exact hscheme hc
    rw [List.append_assoc, List.cons_append]
    simp [hasScheme, hstop]
  · rw [hasScheme_of_not_mem hcolon, hasScheme_of_not_mem (by simp [hcolon, h])]

/-- Whether controls and blanks behind an address do not count. -/
structure UrlReader.Trims [UrlReader] : Prop where
  parse : ∀ {gap : List Char}, (∀ c ∈ gap, c.toNat ≤ 0x20) → ∀ cs, parse? (cs ++ gap) = parse? cs
  join : ∀ {gap : List Char}, (∀ c ∈ gap, c.toNat ≤ 0x20) → ∀ base cs, join? base (cs ++ gap) = join? base cs

namespace Url

theorem clean_append (h : ∀ c ∈ gap, c.toNat ≤ 0x20) (cs : List Char) : clean (cs ++ gap) = clean cs := by
  have houter : ∀ c ∈ gap, (fun c : Char => decide (c.toNat ≤ 0x20)) c = true := fun c hc => decide_eq_true (h c hc)
  simp only [clean, Text.dropWhile_both_append houter]

theorem read?_append (base? : Option Url) (h : ∀ c ∈ gap, c.toNat ≤ 0x20) (cs : List Char) :
    read? base? (cs ++ gap) = read? base? cs := by
  simp only [read?, clean_append h]

theorem trims : UrlReader.Trims where
  parse h := read?_append none h
  join h base := read?_append (some base) h

end Url

/-! ## Plain paths -/

namespace Path

/-- The length of segments that are joined, with a slash for each of them. -/
def extent (done : List (List Char)) : Nat :=
  (done.map fun part => part.length + 1).sum

theorem extent_push_le (absolute : Bool) (done : List (List Char)) (part : List Char) :
    extent (push absolute done part) ≤ extent done + (part.length + 1) := by
  have hcons : extent (part :: done) = extent done + (part.length + 1) := by
    simp only [extent, List.map_cons, List.sum_cons]
    omega
  unfold push
  split
  next => omega
  next =>
    split
    next =>
      cases done with
      | nil =>
          simp only
          split
          next => simp [extent]
          next => exact hcons.le
      | cons last rest =>
          have hrest : extent rest ≤ extent (last :: rest) := by simp [extent]
          simp only
          repeat' split
          all_goals omega
    next => omega

theorem length_normalize (path : List Char) :
    (normalize path).length = (if isAbsolute path then 1 else 0) + (extent (segments path) - 1) := by
  rw [normalize, List.length_append, Text.length_joinWith]
  cases isAbsolute path <;> rfl

theorem push_gap (hgap : ∀ c ∈ gap, Text.isSpace c = true) (hne : gap ≠ []) (absolute : Bool)
    (done : List (List Char)) (part : List Char) :
    push absolute done (part ++ gap) = (part ++ gap) :: done := by
  obtain ⟨c, hc⟩ := List.exists_mem_of_ne_nil gap hne
  have hspace : ¬∀ d ∈ part ++ gap, d = '.' := by
    intro hall
    have hdot := hgap c hc
    rw [hall c (List.mem_append_right _ hc)] at hdot
    exact absurd hdot (by decide)
  unfold push
  rw [if_neg, if_neg]
  · intro hup
    exact hspace fun d hd => by simpa [hup] using hd
  · rintro (hnil | hdot)
    · exact hne (List.append_eq_nil_iff.mp hnil).2
    · exact hspace fun d hd => by simpa [hdot] using hd

theorem isAbsolute_gap (hgap : ∀ c ∈ gap, Text.isSpace c = true) (path : List Char) :
    isAbsolute (path ++ gap) = isAbsolute path := by
  cases path with
  | cons c path => rfl
  | nil =>
      cases gap with
      | nil => rfl
      | cons c gap =>
          have hc : c ≠ '/' := by
            rintro rfl
            exact absurd (hgap '/' (List.mem_cons_self ..)) (by decide)
          simpa [isAbsolute] using hc

/-- White space behind a path belongs to its last segment, which then stands for itself. -/
theorem length_normalize_lt (hgap : ∀ c ∈ gap, Text.isSpace c = true) (hne : gap ≠ []) (path : List Char) :
    (normalize path).length < (normalize (path ++ gap)).length := by
  obtain ⟨last, hpath, hlast⟩ := Text.exists_behind_throughLast '/' path
  have hslash : '/' ∉ last ++ gap := by
    rintro hmem
    rcases List.mem_append.mp hmem with h | h
    · exact hlast h
    · exact absurd (hgap _ h) (by decide)
  let done := (components path).dropLast.foldl (push (isAbsolute path)) []
  have hsegments {part : List Char} (hpart : '/' ∉ part) (habsolute : isAbsolute (Text.throughLast '/' path ++ part) =
      isAbsolute path) : segments (Text.throughLast '/' path ++ part) = (push (isAbsolute path) done part).reverse := by
    have hlast : components part = [part] := Text.splitOn_of_not_mem hpart
    have hsplit : Text.splitOn (· == '/') (Text.throughLast '/' path ++ part) = (components path).dropLast ++ [part] :=
      hlast ▸ Files.components_behind path part
    rw [segments, hsplit, habsolute, List.foldl_concat]
  have hbare := hsegments hlast (by rw [← hpath])
  have hwhole := hsegments hslash (by rw [← List.append_assoc, ← hpath, isAbsolute_gap hgap])
  rw [← hpath] at hbare
  rw [← List.append_assoc, ← hpath, push_gap hgap hne] at hwhole
  have hle := extent_push_le (isAbsolute path) done last
  have hpos := List.length_pos_iff.mpr hne
  have hreverse (parts : List (List Char)) : extent parts.reverse = extent parts := by
    rw [extent, List.map_reverse, List.sum_reverse, extent]
  have hcons : extent ((last ++ gap) :: done) = extent done + (last.length + gap.length + 1) := by
    simp only [extent, List.map_cons, List.sum_cons, List.length_append]
    omega
  rw [length_normalize, length_normalize, isAbsolute_gap hgap, hbare, hwhole, hreverse, hreverse, hcons]
  omega

end Path

theorem length_join_lt (hgap : ∀ c ∈ gap, Text.isSpace c = true) (hne : gap ≠ []) (hcs : cs ≠ []) (base : List Char) :
    (Path.join base cs).length < (Path.join base (cs ++ gap)).length := by
  obtain ⟨c, cs, rfl⟩ := List.exists_cons_of_ne_nil hcs
  have hbeside : Path.beside base (c :: cs ++ gap) = Path.beside base (c :: cs) ++ gap := by
    unfold Path.beside
    rw [Path.isAbsolute_gap hgap]
    split
    next => rfl
    next => rw [List.append_assoc]
  rw [Path.join_eq, Path.join_eq, hbeside]
  exact Path.length_normalize_lt hgap hne _

/-! ## References -/

/-- Only what stands before its fragment is trimmed of a reference, and only at the front. -/
theorem referenced_fragment (h : '#' ∉ cs) (fragment : List Char) :
    referenced (cs ++ '#' :: fragment) = cs.dropWhile Text.isSpace := by
  have hfront : (cs ++ '#' :: fragment).dropWhile Text.isSpace = cs.dropWhile Text.isSpace ++ '#' :: fragment := by
    rw [List.dropWhile_append]
    split
    next hnil => rw [List.isEmpty_iff.mp hnil]; rfl
    next => rfl
  obtain ⟨rest, hrest⟩ : ∃ rest, Text.trim (cs ++ '#' :: fragment) = cs.dropWhile Text.isSpace ++ '#' :: rest := by
    rw [Text.trim, hfront, Text.trimRight, List.reverse_append, List.reverse_cons, List.append_assoc,
      List.dropWhile_append]
    split
    next => exact ⟨[], by simp [Text.isSpace]⟩
    next => exact ⟨(fragment.reverse.dropWhile Text.isSpace).reverse, by simp⟩
  rw [referenced, hrest]
  refine takeWhile_run (fun c hc => bne_iff_ne.mpr ?_) (by simp)
  rintro rfl
  exact h ((List.dropWhile_sublist _).subset hc)

theorem referenced_of_not_mem (h : '#' ∉ cs) : referenced cs = Text.trim cs := by
  refine takeWhile_ne fun hmem => h ?_
  have hfront : '#' ∈ cs.dropWhile Text.isSpace := by
    rw [← Text.trim_append_looseEnd]
    exact List.mem_append_left _ hmem
  exact (List.dropWhile_sublist _).subset hfront

section

variable [UrlReader]

/-- Whether a reference in the document at a base is read as a structured address, and not as a plain path. -/
def IsStructured (base target : List Char) : Prop :=
  hasScheme target = true ∨ hasScheme base = true ∧ UrlReader.parse? base ≠ none

theorem IsStructured.append (hgap : ∀ c ∈ gap, Text.isSpace c = true) :
    IsStructured base (cs ++ gap) ↔ IsStructured base cs := by
  have hcolon : ':' ∉ gap := fun h => absurd (hgap _ h) (by decide)
  rw [IsStructured, hasScheme_append hcolon, IsStructured]

/-- A structured address is read against what the base is, whatever the white space behind it. -/
theorem follow?_structured (ht : UrlReader.Trims) (h : IsStructured base cs) (hne : cs ≠ [])
    (hgap : ∀ c ∈ gap, c.toNat ≤ 0x20) (hcolon : ':' ∉ gap) : follow? base (cs ++ gap) = follow? base cs := by
  have hempty : (cs ++ gap).isEmpty = cs.isEmpty := by
    cases cs with
    | nil => exact absurd rfl hne
    | cons c cs => rfl
  rw [follow?, follow?, hempty, hasScheme_append hcolon, ht.parse hgap]
  split
  next => rfl
  next =>
    split
    next => rfl
    next hscheme =>
      obtain ⟨hbase, hread⟩ := h.resolve_left hscheme
      obtain ⟨url, hurl⟩ := Option.ne_none_iff_exists'.mp hread
      rw [hbase, if_pos rfl, hurl]
      simp only [ht.join hgap url]

theorem follow?_plain (h : ¬IsStructured base cs) (hne : cs ≠ []) : follow? base cs = some (Path.join base cs) := by
  rw [IsStructured, not_or, not_and, not_not] at h
  rw [follow?, if_neg (by simpa using hne), if_neg h.1]
  split
  next url hurl =>
    split at hurl
    next hbase => rw [h.2 hbase] at hurl; cases hurl
    next => cases hurl
  next => rfl

theorem toOption_resolve (base target : String) : (resolve base target).toOption =
    (follow? base.toList (referenced target.toList)).map String.ofList := by
  unfold resolve
  split
  next hfollow => rw [hfollow]; rfl
  next hfollow => rw [hfollow]; rfl

/-- A fragment changes nothing about a reference that no white space separates from it, nor do ASCII blanks before the
fragment of a structured address if its reader does not count them. But in a plain path they are part of the last name:
it is another document then. -/
theorem resolve_fragment {target : String} (h : '#' ∉ target.toList) (base fragment : String) :
    (Text.looseEnd target.toList = [] → resolve base (target ++ "#" ++ fragment) = resolve base target) ∧
    (UrlReader.Trims → IsStructured base.toList (Text.trim target.toList) →
      (∀ c ∈ Text.looseEnd target.toList, c.toNat ≤ 0x20) →
      (resolve base (target ++ "#" ++ fragment)).toOption = (resolve base target).toOption) ∧
    (¬IsStructured base.toList (Text.trim target.toList) → Text.looseEnd target.toList ≠ [] →
      ∃ other same, resolve base (target ++ "#" ++ fragment) = .ok other ∧ resolve base target = .ok same ∧
        other ≠ same) := by
  have hlong : referenced (target ++ "#" ++ fragment).toList =
      Text.trim target.toList ++ Text.looseEnd target.toList := by
    have hlist : (target ++ "#" ++ fragment).toList = target.toList ++ '#' :: fragment.toList := by simp
    rw [hlist, referenced_fragment h, Text.trim_append_looseEnd]
  have hshort := referenced_of_not_mem h
  have hspace := @Text.isSpace_of_mem_looseEnd target.toList
  refine ⟨fun hnone => ?_, fun htrims hstructured hascii => ?_, fun hplain hloose => ?_⟩
  · rw [resolve, resolve, hlong, hshort, hnone, List.append_nil]
  · rw [toOption_resolve, toOption_resolve, hlong, hshort]
    by_cases hloose : Text.looseEnd target.toList = []
    · rw [hloose, List.append_nil]
    · have hcolon : ':' ∉ Text.looseEnd target.toList := fun hc => absurd (hspace _ hc) (by decide)
      rw [follow?_structured htrims hstructured (Text.trim_ne_nil hloose) hascii hcolon]
  · have htrim := Text.trim_ne_nil hloose
    have hother := follow?_plain (mt (IsStructured.append hspace).mp hplain) (List.append_ne_nil_of_left_ne_nil htrim _)
    have hsame := follow?_plain hplain htrim
    refine ⟨String.ofList (Path.join base.toList (Text.trim target.toList ++ Text.looseEnd target.toList)),
      String.ofList (Path.join base.toList (Text.trim target.toList)), ?_, ?_, fun heq => ?_⟩
    · rw [resolve, hlong, hother]
    · rw [resolve, hshort, hsame]
    · have hlt := length_join_lt hspace hloose htrim base.toList
      rw [String.ofList_inj.mp heq] at hlt
      exact Nat.lt_irrefl _ hlt

end

/-- Each of the three cases, all with a fragment behind a reference in the same document. -/
theorem resolve_fragment_cases :
    let base := "app/index.html"
    resolve base (" ../a.html" ++ "#" ++ "top") = resolve base " ../a.html" ∧
    (resolve base ("https://cdn.example.com/x.html\n" ++ "#" ++ "top")).toOption =
      (resolve base "https://cdn.example.com/x.html\n").toOption ∧
    ∃ other same, resolve base ("a.html\t" ++ "#" ++ "top") = .ok other ∧ resolve base "a.html\t" = .ok same ∧
      other ≠ same := by
  intro base
  have hpath := resolve_fragment (by decide : '#' ∉ " ../a.html".toList) base "top"
  have hurl := resolve_fragment (by decide : '#' ∉ "https://cdn.example.com/x.html\n".toList) base "top"
  have htab := resolve_fragment (by decide : '#' ∉ "a.html\t".toList) base "top"
  have hscheme : hasScheme (Text.trim "https://cdn.example.com/x.html\n".toList) = true := by decide +kernel
  have hplain : ¬IsStructured base.toList (Text.trim "a.html\t".toList) := by
    rintro (h | ⟨h, -⟩)
    · revert h; decide +kernel
    · revert h; decide +kernel
  have hgap : Text.looseEnd "https://cdn.example.com/x.html\n".toList = ['\n'] := by decide +kernel
  have hlow : ∀ c ∈ Text.looseEnd "https://cdn.example.com/x.html\n".toList, c.toNat ≤ 0x20 := by
    rw [hgap]
    simp
  exact ⟨hpath.1 (by decide +kernel), hurl.2.1 Url.trims (.inl hscheme) hlow, htab.2.2 hplain (by decide +kernel)⟩

/-- A blank in front of the fragment of a plain path selects another document. -/
theorem resolve_fragment_apart : '#' ∉ "a.html ".toList ∧
    resolve "index.html" ("a.html " ++ "#" ++ "top") = .ok "a.html " ∧ resolve "index.html" "a.html " = .ok "a.html" :=
  ⟨by decide, toOption_eq_some (by decide +kernel), toOption_eq_some (by decide +kernel)⟩

end Address

end ImportTree
