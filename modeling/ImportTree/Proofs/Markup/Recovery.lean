import ImportTree.Proofs.Markup.Tags

/-!
# Recovery of well-formed documents

A well-formed document is cut into the constructs of its items, one after another, and these come down to the structure
that the items stand for.
-/

namespace ImportTree.Markup

/-! ## Start tags -/

theorem StartTag.name_chars (t : StartTag) : ∀ c ∈ t.name, Construct.isTagNameChar c = true := by
  intro c hc
  rcases List.mem_cons.mp hc with rfl | hc
  · simp [Construct.isTagNameChar, Char.isAlphanum, t.initial_letter]
  · simpa [Construct.isTagNameChar, or_assoc] using t.others_chars c hc

theorem not_tagNameChar_of_tail {c : Char} (h : Text.isAsciiBlank c = true ∨ c = '/') :
    Construct.isTagNameChar c = false := by
  simp only [Text.isAsciiBlank, Bool.or_eq_true, beq_iff_eq, or_assoc] at h
  rcases h with rfl | rfl | rfl | rfl | rfl | rfl <;> decide

/-- Whether a name and what follows it are those of a tag that has not ended: the name goes no further, and no bracket
stands outside of quoted values. -/
structure InTag (name attributes : List Char) (state : TagState) : Prop where
  initial : ∃ c ∈ name.head?, c.isAlpha = true
  chars : ∀ c ∈ name, Construct.isTagNameChar c = true
  ends : ∀ c ∈ attributes.head?, Construct.isTagNameChar c = false
  walks : TagState.Walks .plain attributes state

/-- The name of a start tag goes no further than it was written. -/
theorem StartTag.name_ends (t : StartTag) : ∀ c ∈ t.inner.head?, Construct.isTagNameChar c = false := by
  unfold StartTag.inner
  cases t.attributes with
  | nil =>
      have htail := t.tail_chars
      cases h : t.tail with
      | nil => rintro c ⟨⟩
      | cons d tail => rintro c ⟨⟩; exact not_tagNameChar_of_tail (htail d (by simp [h]))
  | cons a attributes =>
      obtain ⟨d, gap, hgap⟩ := List.exists_cons_of_ne_nil a.gap_ne
      have hd : Text.isAsciiBlank d = true := a.gap_blank d (by simp [hgap])
      intro c hc
      have hcd : c = d := by simpa [WrittenAttribute.written, hgap, eq_comm] using hc
      exact hcd ▸ not_tagNameChar_of_tail (.inl hd)

theorem StartTag.inTag (t : StartTag) : InTag t.name t.inner .plain :=
  ⟨⟨t.initial, rfl, t.initial_letter⟩, t.name_chars, t.name_ends, TagState.walks_inner t⟩

namespace Construct

variable {c : Char} {cs rest name attributes body : List Char} {state : TagState}

theorem read_letter (hc : c.isAlpha = true) : read '<' (c :: cs) = readElement (c :: cs) := by
  -- No letter begins a comment, a declaration or an end tag.
  have hmark {d : Char} (hd : d.isAlpha = false) : c ≠ d := fun h => by
    rw [← h, hc] at hd
    cases hd
  rw [read, if_pos rfl, if_pos hc]
  · exact fun _ h _ => hmark (by decide) h
  all_goals exact fun h => hmark (by decide) h

/-- A name is read up to where it ends, and the tag up to its bracket. -/
theorem readElement_closed (hchars : ∀ c ∈ name, isTagNameChar c = true)
    (hends : ∀ c ∈ cs.head?, isTagNameChar c = false) (hcut : cutTag? .plain cs = some (attributes, rest)) :
    readElement (name ++ cs) = readContent name attributes rest := by
  simp only [readElement, takeWhile_run hchars hends, dropWhile_run hchars hends, hcut]

/-- Without a bracket the element is not read. -/
theorem readElement_open (hchars : ∀ c ∈ name, isTagNameChar c = true)
    (hends : ∀ c ∈ cs.head?, isTagNameChar c = false) (hcut : cutTag? .plain cs = none) :
    readElement (name ++ cs) = .error (.startTag (Text.lower name)) := by
  simp only [readElement, takeWhile_run hchars hends, dropWhile_run hchars hends, hcut]

/-- After a tag the reader goes on with what belongs to its element. -/
theorem read_inTag (h : InTag name attributes state) (hstate : state.closes = true) (rest : List Char) :
    read '<' (name ++ (attributes ++ '>' :: rest)) = readContent name attributes rest := by
  obtain ⟨c, hc, hletter⟩ := h.initial
  obtain ⟨others, rfl⟩ := List.head?_eq_some_iff.mp hc
  have hends : ∀ d ∈ (attributes ++ '>' :: rest).head?, isTagNameChar d = false := by
    have := h.ends
    cases attributes with
    | nil => rintro d ⟨⟩; decide
    | cons d attributes => exact this
  rw [List.cons_append, read_letter hletter, ← List.cons_append]
  exact readElement_closed h.chars hends (h.walks.cutTag? hstate rest)

/-- After a start tag the reader goes on with what belongs to its element. -/
theorem read_startTag (t : StartTag) (rest : List Char) :
    read '<' (t.name ++ (t.inner ++ '>' :: rest)) = readContent t.name t.inner rest :=
  read_inTag t.inTag rfl rest

/-! ## Elements with an end tag -/

theorem endMarks_unbordered : ∀ name ∈ "script".toList :: plainNames,
    Unbordered ('<' :: '/' :: name) ∧ Text.lower name = name ∧ '>' ∉ name := by decide

theorem lower_endMark (h : name ∈ "script".toList :: plainNames) :
    Text.lower ('<' :: '/' :: name) = '<' :: '/' :: name :=
  congrArg (List.append ['<', '/']) (endMarks_unbordered name h).2.1

theorem cutBefore?_endMark_eq_some_iff (h : name ∈ "script".toList :: plainNames) :
    Text.cutBefore? (Text.startsWithLetters ('<' :: '/' :: name)) cs = some (body, rest) ↔
      cs = body ++ rest ∧ ¬ '<' :: '/' :: name <:+: Text.lower body ∧ '<' :: '/' :: name <+: Text.lower rest := by
  have hmark := lower_endMark h
  have hunbordered := (endMarks_unbordered name h).1
  rw [Text.cutBefore?_letters_eq_some_iff (hmark.symm ▸ hunbordered) (by simp), hmark]

theorem cutBefore?_endMark_eq_none_iff (h : name ∈ "script".toList :: plainNames) :
    Text.cutBefore? (Text.startsWithLetters ('<' :: '/' :: name)) cs = none ↔
      ¬ '<' :: '/' :: name <:+: Text.lower cs := by
  rw [Text.cutBefore?_letters_eq_none_iff, lower_endMark h]

theorem cutBefore?_endTag (e : ClosedElement) (h : e.start.lowerName ∈ "script".toList :: plainNames)
    (rest : List Char) :
    Text.cutBefore? (Text.startsWithLetters ('<' :: '/' :: e.start.lowerName))
      (e.content ++ '<' :: '/' :: (e.closing ++ rest)) = some (e.content, '<' :: '/' :: (e.closing ++ rest)) := by
  have hclosing :
      Text.lower ('<' :: '/' :: (e.closing ++ rest)) = '<' :: '/' :: e.start.lowerName ++ Text.lower rest := by
    rw [← e.closes]
    exact congrArg (List.append ['<', '/']) (Text.lower_append ..)
  exact (cutBefore?_endMark_eq_some_iff h).mpr ⟨rfl, e.inside, hclosing ▸ List.prefix_append ..⟩

theorem bracket_notMem_endTag (e : ClosedElement) (h : e.start.lowerName ∈ "script".toList :: plainNames) :
    '>' ∉ '/' :: (e.closing ++ e.junk) := by
  obtain ⟨_, _, hname⟩ := endMarks_unbordered _ h
  have hclosing : '>' ∉ e.closing := fun hmem => hname (e.closes ▸ List.mem_map.mpr ⟨'>', hmem, rfl⟩)
  simp [hclosing, e.junk_open]

theorem readContent_script (e : ClosedElement) (h : e.start.lowerName = "script".toList) (rest : List Char) :
    readContent e.start.name e.start.inner (e.content ++ '<' :: '/' :: (e.closing ++ (e.junk ++ '>' :: rest))) =
      .ok (.script e.start.name e.start.inner e.content ('<' :: '/' :: (e.closing ++ (e.junk ++ ['>']))), rest) := by
  have hname : e.start.lowerName ∈ "script".toList :: plainNames := h ▸ List.mem_cons_self ..
  have hcut : Text.cutBefore? (Text.startsWithLetters "</script".toList) _ = _ :=
    h ▸ cutBefore?_endTag e hname (e.junk ++ '>' :: rest)
  have hbracket : '>' ∉ '<' :: '/' :: (e.closing ++ e.junk) := by simpa using bracket_notMem_endTag e hname
  have hthrough : throughBracket ('<' :: '/' :: (e.closing ++ (e.junk ++ '>' :: rest))) =
      ('<' :: '/' :: (e.closing ++ (e.junk ++ ['>'])), rest) := by
    simpa using throughBracket_first hbracket rest
  rw [readContent, ← StartTag.lowerName, if_pos h, hcut]
  simp only [hthrough]

theorem readContent_rawText (e : ClosedElement) (h : e.start.lowerName ∈ plainNames) (rest : List Char) :
    readContent e.start.name e.start.inner (e.content ++ '<' :: '/' :: (e.closing ++ rest)) =
      .ok (.rawText e.start.name e.start.inner e.content, '<' :: '/' :: (e.closing ++ rest)) := by
  have hscript : e.start.lowerName ≠ "script".toList := fun heq => absurd (heq ▸ h) (by decide)
  have hcut := cutBefore?_endTag e (List.mem_cons_of_mem _ h) rest
  have hraw : e.start.lowerName ∈ rawTextNames := h
  rw [readContent, ← StartTag.lowerName, if_neg hscript, if_pos hraw, hcut]

/-! ## Reading a construct -/

theorem read_text (hc : c ≠ '<') (rest : List Char) : read c rest = .ok (.text c, rest) :=
  if_neg hc

theorem read_comment {body : List Char} (h : ¬['-', '-', '>'] <:+: body) (rest : List Char) :
    read '<' ('!' :: '-' :: '-' :: (body ++ (['-', '-', '>'] ++ rest))) = .ok (.comment body, rest) := by
  rw [read, if_pos rfl, readComment, Text.cutAround?_first (by decide) h]

theorem readDeclaration_first {body : List Char} (h : '>' ∉ body) (rest : List Char) :
    readDeclaration (body ++ '>' :: rest) = .ok (.declaration body, rest) := by
  have hcut : Text.cutAround? ['>'] (body ++ '>' :: rest) = some (body, rest) :=
    Text.cutAround?_first (by decide) ((List.singleton_infix_iff '>' body).not.mpr h) rest
  rw [readDeclaration, hcut]

/-- Whether a character behind an opening bracket begins a declaration, a processing instruction or an end tag. -/
def IsMark (c : Char) : Prop :=
  c = '!' ∨ c = '?' ∨ c = '/'

/-- With two dashes after the mark a comment would begin. -/
theorem read_mark {mark : Char} {inner : List Char} (hmark : IsMark mark)
    (hdashes : mark = '!' → ¬['-', '-'] <+: inner) :
    read '<' (mark :: inner) = readDeclaration (mark :: inner) := by
  rcases hmark with rfl | rfl | rfl
  · rw [read, if_pos rfl]
    rintro body rfl
    exact hdashes rfl (List.prefix_append ['-', '-'] body)
  · rfl
  · rfl

theorem IsMark.ne_bracket {c : Char} (h : IsMark c) : '>' ≠ c := by
  rcases h with rfl | rfl | rfl <;> decide

theorem read_declaration {mark : Char} {body : List Char} (hmark : IsMark mark)
    (hdashes : mark = '!' → ¬['-', '-'] <+: body) (h : '>' ∉ body) (rest : List Char) :
    read '<' (mark :: (body ++ '>' :: rest)) = .ok (.declaration (mark :: body), rest) := by
  rw [read_mark hmark fun hm hprefix => hdashes hm (prefix_of_notMem (by decide) hprefix)]
  exact readDeclaration_first (List.not_mem_cons_of_ne_of_not_mem hmark.ne_bracket h) rest

theorem readAll_cons {k : Construct} (h : read c cs = .ok (k, rest)) :
    readAll (c :: cs) = (k :: (readAll rest).1, (readAll rest).2) := by
  rw [readAll]
  split
  next k' rest' h' =>
    cases h.symm.trans h'
    rfl
  next cut h' => cases h.symm.trans h'

end Construct

/-! ## Items -/

/-- The constructs that an item is cut into. The end tag of a plain element is one of its own. -/
def Item.constructs : Item → List Construct
  | .text run _ => run.map .text
  | .comment body _ => [.comment body]
  | .declaration mark body _ _ _ => [.declaration (mark :: body)]
  | .script e _ => [.script e.start.name e.start.inner e.content ('<' :: '/' :: (e.closing ++ (e.junk ++ ['>'])))]
  | .rawText e _ => [.rawText e.start.name e.start.inner e.content, .declaration ('/' :: (e.closing ++ e.junk))]
  | .element start _ _ => [.startTag start.name start.inner]

/-- The constructs of an item are cut off, and none of them takes anything from what follows. -/
theorem readAll_item (item : Item) (rest : List Char) : Construct.readAll (item.written ++ rest) =
    (item.constructs ++ (Construct.readAll rest).1, (Construct.readAll rest).2) := by
  cases item with
  | text run h =>
      change Construct.readAll (run ++ rest) = (run.map .text ++ _, _)
      induction run with
      | nil => rfl
      | cons c run ih =>
          obtain ⟨hc, hrun⟩ := not_or.mp (List.mem_cons.not.mp h)
          rw [List.cons_append, Construct.readAll_cons (Construct.read_text (Ne.symm hc) _), ih hrun]
          rfl
  | comment body h =>
      have hread := Construct.readAll_cons (Construct.read_comment h rest)
      simpa [Item.written, Item.constructs] using hread
  | declaration mark body hmark hdashes h =>
      have hread := Construct.readAll_cons (Construct.read_declaration hmark hdashes h rest)
      simpa [Item.written, Item.constructs] using hread
  | script e h =>
      have hread := Construct.readAll_cons
        ((Construct.read_startTag e.start _).trans (Construct.readContent_script e h rest))
      simpa [Item.written, Item.constructs, ClosedElement.written, StartTag.written] using hread
  | rawText e h =>
      have hread := Construct.readAll_cons
        ((Construct.read_startTag e.start _).trans (Construct.readContent_rawText e h (e.junk ++ '>' :: rest)))
      have hbracket : '>' ∉ e.closing ++ e.junk := fun hmem =>
        Construct.bracket_notMem_endTag e (List.mem_cons_of_mem _ h) (List.mem_cons_of_mem _ hmem)
      have hend := Construct.readAll_cons (Construct.read_declaration (.inr (.inr rfl)) (by simp) hbracket rest)
      rw [List.append_assoc] at hend
      rw [hend] at hread
      simpa [Item.written, Item.constructs, ClosedElement.written, StartTag.written] using hread
  | element start hscript h =>
      have hcontent : Construct.readContent start.name start.inner rest =
          .ok (.startTag start.name start.inner, rest) := by
        have hraw : start.lowerName ∉ Construct.rawTextNames := h
        rw [Construct.readContent, ← StartTag.lowerName, if_neg hscript, if_neg hraw]
      have hread := Construct.readAll_cons ((Construct.read_startTag start rest).trans hcontent)
      simpa [Item.written, Item.constructs, StartTag.written] using hread

theorem readAll_items (items : List Item) :
    Construct.readAll (writtenItems items) = (items.flatMap Item.constructs, none) := by
  induction items with
  | nil => simp [writtenItems, Construct.readAll]
  | cons item items ih =>
      have hcons : writtenItems (item :: items) = item.written ++ writtenItems items := rfl
      rw [hcons, readAll_item, ih]
      rfl

theorem writtenAll_item (item : Item) : Construct.writtenAll item.constructs = item.written := by
  cases item with
  | text run h =>
      change (run.map Construct.text).flatMap Construct.written = run
      induction run with
      | nil => rfl
      | cons c run ih => simp [Construct.written, ih fun hmem => h (List.mem_cons_of_mem _ hmem)]
  | _ =>
      simp [Item.constructs, Item.written, Construct.writtenAll, Construct.written, Construct.writtenTag,
        ClosedElement.written, StartTag.written]

end ImportTree.Markup

/-! ## Structures -/

namespace ImportTree.Structure

open Markup

@[simp] theorem append_empty (s : Structure) : append s {} = s := by
  simp [append]

theorem append_assoc (a b c : Structure) : append (append a b) c = append a (append b c) := by
  simp [append]

theorem ofConstructs_append (line : Nat) (ks ks' : List Construct) : ofConstructs line (ks ++ ks') =
    (ofConstructs line ks).append (ofConstructs (line + (Construct.writtenAll ks).count '\n') ks') := by
  induction ks generalizing line with
  | nil => simp [ofConstructs, Construct.writtenAll, append]
  | cons k ks ih =>
      have hlines : Text.newlines k.written + (Construct.writtenAll ks).count '\n' =
          (Construct.writtenAll (k :: ks)).count '\n' := by
        simp [Construct.writtenAll, Text.newlines]
      rw [List.cons_append, ofConstructs, ih, ofConstructs, append_assoc, Nat.add_assoc, hlines]

theorem tag_eq_iff {name : List Char} {tag : String} : String.ofList name = tag ↔ name = tag.toList := by
  rw [← String.toList_inj, String.toList_ofList]

theorem ofConstruct_startTag (line : Nat) (t : StartTag) :
    ofConstruct line (.startTag t.name t.inner) = t.found line := by
  rw [ofConstruct, Attribute.ofText_inner, ← StartTag.lowerName, StartTag.found]
  simp only [tag_eq_iff]
  change (if _ then if isImportLink (t.node none line) = true then _ else _ else _) = _
  simp only [isImportLink_iff]
  by_cases h : t.lowerName = "link".toList
  · have hmodule : t.lowerName ≠ "dom-module".toList := by rw [h]; decide
    by_cases himport : NamesImport (t.node none line)
    · rw [if_pos h, if_pos himport, if_pos ⟨h, himport⟩]
      rfl
    · rw [if_pos h, if_neg himport, if_neg (not_and_of_not_right _ himport), if_neg hmodule]
  · rw [if_neg h, if_neg (not_and_of_not_left _ h)]
    rfl

theorem ofConstructs_item (line : Nat) (item : Item) : ofConstructs line item.constructs = item.found line := by
  cases item with
  | text run h =>
      have htext (cs : List Char) (line : Nat) : ofConstructs line (cs.map .text) = {} := by
        induction cs generalizing line with
        | nil => rfl
        | cons c cs ih => exact ih _
      exact htext run line
  | comment body h => rfl
  | declaration mark body hmark hdashes h => rfl
  | script e h =>
      have htag : "script" = String.ofList e.start.lowerName := (tag_eq_iff.mpr h).symm
      refine (append_empty _).trans ?_
      rw [ofConstruct, Attribute.ofText_inner, htag]
      rfl
  | rawText e h => rfl
  | element start hscript h =>
      exact (append_empty _).trans (ofConstruct_startTag line start)

/-- A well-formed document is read as the structure its items stand for. -/
theorem read_writtenItems (items : List Item) :
    Structure.read (String.ofList (writtenItems items)) = .ok (foundItems 1 items) := by
  have hfound (line : Nat) : ofConstructs line (items.flatMap Item.constructs) = foundItems line items := by
    induction items generalizing line with
    | nil => rfl
    | cons item items ih =>
        rw [List.flatMap_cons, ofConstructs_append, writtenAll_item, ofConstructs_item, ih]
        rfl
  rw [Structure.read, String.toList_ofList, readAll_items]
  exact congrArg _ (hfound 1)

-- Markup inside a comment is none of the document's, but its line feeds count.
example :
    let glyphs : List Glyph := [.plain 'a' (by decide), .reference "lt".toList '<' (by decide) .less]
    let value : WrittenValue := .quoted [] [' '] '\'' glyphs (by simp [Blanks]) (by simp [Blanks, Text.isAsciiBlank])
      (.inr rfl) (by decide)
    let id : WrittenAttribute :=
      ⟨[' '], by simp, by simp [Blanks, Text.isAsciiBlank], "ID".toList, by simp, by simp [Text.isAsciiBlank], value⟩
    let start : StartTag := ⟨'d', rfl, "om-module".toList, by simp [Char.isAlphanum, Char.isAlpha], [id], ['/'],
      by simp, by simp [id, value, WrittenValue.isBare]⟩
    let items : List Item := [.comment "<a>\n".toList (by decide), .element start (by decide) (by decide)]
    writtenItems items = "<!--<a>\n--><dom-module ID= 'a&lt;'/>".toList ∧
      foundItems 1 items = { templates := [⟨"dom-module", [("id", "a<")], none, 2⟩] } := by
  decide

end ImportTree.Structure
