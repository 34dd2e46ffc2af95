import ImportTree.Proofs.Markup.Written

/-!
# Reading tags

The end of a tag is found by one reader, and its attributes by another. For a tag that is written well both stop where
its parts end.
-/

namespace ImportTree.Markup

/-! ## Values -/

theorem decode_writtenText (glyphs : List Glyph) : Reference.decode (writtenText glyphs) = glyphs.map Glyph.char := by
  induction glyphs with
  | nil => simp [writtenText, Reference.decode]
  | cons glyph glyphs ih =>
      cases glyph with
      | plain c hc =>
          change Reference.decode (c :: writtenText glyphs) = c :: glyphs.map Glyph.char
          rw [Reference.decode_plain hc, ih]
      | reference name c hwhole hnames =>
          have hcons : writtenText (.reference name c hwhole hnames :: glyphs) =
              '&' :: (name ++ ';' :: writtenText glyphs) := by
            simp [writtenText, Glyph.written]
          rw [hcons, Reference.decode_reference hwhole hnames, ih]
          rfl

/-! ## The end of a tag -/

/-- Whether a text leads a reader inside a tag from one state to another, without ending the tag. -/
inductive TagState.Walks : TagState → List Char → TagState → Prop where
  | nil {s : TagState} : Walks s [] s
  | cons {s t : TagState} {c : Char} {cs : List Char} : (c = '>' → s.closes = false) → Walks (s.next c) cs t →
      Walks s (c :: cs) t

namespace TagState

variable {s t u : TagState} {c : Char} {cs cs' : List Char}

theorem Walks.append (h : Walks s cs t) (h' : Walks t cs' u) : Walks s (cs ++ cs') u := by
  induction h with
  | nil => exact h'
  | cons hc _ ih => exact .cons hc (ih h')

theorem Walks.cutTag? (h : Walks s cs t) (ht : t.closes = true) (rest : List Char) :
    cutTag? s (cs ++ '>' :: rest) = some (cs, rest) := by
  induction h with
  | nil => simp [Markup.cutTag?, ht]
  | @cons s t c cs hc _ ih =>
      have hopen : ¬(c = '>' ∧ s.closes = true) := by
        rintro ⟨hgt, hs⟩
        rw [hc hgt] at hs
        cases hs
      rw [List.cons_append, Markup.cutTag?, if_neg hopen, ih ht]

/-- The bracket that is found for the end of a tag is the first one that is in no quoted value. -/
theorem cutTag?_eq_some_iff {attributes rest : List Char} : cutTag? s cs = some (attributes, rest) ↔
    cs = attributes ++ '>' :: rest ∧ ∃ t, Walks s attributes t ∧ t.closes = true := by
  constructor
  · intro h
    refine ⟨(cutTag?_append h).symm, ?_⟩
    induction cs generalizing s attributes with
    | nil => cases h
    | cons c cs ih =>
        rw [cutTag?] at h
        split at h
        next hclose =>
          cases h
          exact ⟨s, .nil, hclose.2⟩
        next hopen =>
          split at h
          next attributes' rest' htail =>
            cases h
            obtain ⟨t, hwalks, ht⟩ := ih htail
            exact ⟨t, .cons (fun hc => Bool.eq_false_iff.mpr fun hs => hopen ⟨hc, hs⟩) hwalks, ht⟩
          next => cases h
  · rintro ⟨rfl, t, hwalks, ht⟩
    exact hwalks.cutTag? ht rest

theorem cutTag?_eq_none_iff : cutTag? s cs = none ↔ ∃ t, Walks s cs t := by
  constructor
  · intro h
    induction cs generalizing s with
    | nil => exact ⟨s, .nil⟩
    | cons c cs ih =>
        rw [cutTag?] at h
        split at h
        next => cases h
        next hopen =>
          split at h
          next => cases h
          next htail =>
            obtain ⟨t, hwalks⟩ := ih htail
            exact ⟨t, .cons (fun hc => Bool.eq_false_iff.mpr fun hs => hopen ⟨hc, hs⟩) hwalks⟩
  · rintro ⟨t, hwalks⟩
    induction hwalks with
    | nil => rfl
    | cons hc _ ih =>
        rw [cutTag?, if_neg, ih]
        rintro ⟨hgt, hs⟩
        exact absurd hs (Bool.eq_false_iff.mp (hc hgt))

/-- A text that a state keeps to. -/
theorem Walks.stay (h : ∀ c ∈ cs, (c = '>' → s.closes = false) ∧ s.next c = s) : Walks s cs s := by
  induction cs with
  | nil => exact .nil
  | cons c cs ih =>
      obtain ⟨hclose, hnext⟩ := h c (List.mem_cons_self ..)
      exact .cons hclose (hnext.symm ▸ ih fun d hd => h d (List.mem_cons_of_mem _ hd))

theorem Walks.plain (h : ∀ c ∈ cs, c ≠ '>' ∧ c ≠ '=') : Walks .plain cs .plain :=
  .stay fun c hc => ⟨fun hgt => absurd hgt (h c hc).1, by simp [next, (h c hc).2]⟩

theorem Walks.blanks (h : Blanks cs) : Walks .plain cs .plain := by
  refine .plain fun c hc => ⟨?_, ?_⟩ <;> rintro rfl <;> exact absurd (h _ hc) (by decide)

theorem Walks.afterEquals (h : Blanks cs) : Walks .afterEquals cs .afterEquals := by
  refine .stay fun c hc => ⟨?_, ?_⟩
  · rintro rfl
    exact absurd (h _ hc) (by decide)
  · have hquote : ¬(c = '"' ∨ c = '\'') := by
      rintro (rfl | rfl) <;> exact absurd (h _ hc) (by decide)
    simp [next, hquote, h c hc]

theorem Walks.enclosed {quote : Char} (h : quote ∉ cs) : Walks (.quoted quote) cs (.quoted quote) :=
  .stay fun _ hc => ⟨fun _ => rfl, if_neg fun heq : _ = quote => h (heq ▸ hc)⟩

theorem Walks.opening {quote : Char} (h : quote = '"' ∨ quote = '\'') : Walks .afterEquals [quote] (.quoted quote) := by
  refine .cons ?_ ?_
  · rintro rfl
    simp at h
  · simp only [next, h, if_true]
    exact .nil

theorem Walks.closing (quote : Char) : Walks (.quoted quote) [quote] .plain :=
  .cons (fun _ => rfl) (by simp only [next, if_true]; exact .nil)

/-- The value of an attribute ends where it began, outside of quotes. -/
theorem walks_value (v : WrittenValue) : Walks .plain v.written .plain := by
  have equals : Walks .plain ['='] .afterEquals := .cons (by decide) .nil
  cases v with
  | missing => exact .nil
  | quoted before after quote glyphs hbefore hafter hquote inside =>
      have hall := (Walks.blanks hbefore).append (equals.append ((Walks.afterEquals hafter).append
        ((Walks.opening hquote).append ((Walks.enclosed inside).append (Walks.closing quote)))))
      simpa [WrittenValue.written] using hall
  | bare before after glyphs hbefore hafter filled inside =>
      have htext : Walks .afterEquals (writtenText glyphs) .plain := by
        have hplain {c} (hc : c ∈ writtenText glyphs) : c ≠ '>' ∧ c ≠ '=' := by
          have := (inside c hc).2
          constructor <;> rintro rfl <;> simp at this
        generalize hcs : writtenText glyphs = cs at filled inside hplain
        cases cs with
        | nil => exact absurd rfl filled
        | cons c cs =>
            obtain ⟨hblank, hc⟩ := inside c (List.mem_cons_self ..)
            refine .cons (fun hgt => absurd hgt (hplain (List.mem_cons_self ..)).1) ?_
            have hnext : next .afterEquals c = .plain := by
              simp only [List.mem_cons, List.not_mem_nil, or_false, not_or] at hc
              simp [next, hc, hblank]
            rw [hnext]
            exact .plain fun d hd => hplain (List.mem_cons_of_mem _ hd)
      have hall := (Walks.blanks hbefore).append (equals.append ((Walks.afterEquals hafter).append htext))
      simpa [WrittenValue.written] using hall

theorem walks_attribute (a : WrittenAttribute) : Walks .plain a.written .plain := by
  have hname : Walks .plain a.name .plain := by
    refine .plain fun c hc => ?_
    have := (a.name_chars c hc).2
    constructor <;> rintro rfl <;> simp at this
  exact (Walks.blanks a.gap_blank).append (hname.append (walks_value a.value))

theorem walks_inner (t : StartTag) : Walks .plain t.inner .plain := by
  have hattributes (l : List WrittenAttribute) : Walks .plain (l.flatMap WrittenAttribute.written) .plain := by
    induction l with
    | nil => exact .nil
    | cons a l ih => exact (walks_attribute a).append ih
  refine (hattributes t.attributes).append (.plain fun c hc => ?_)
  rcases t.tail_chars c hc with h | rfl
  · constructor <;> rintro rfl <;> exact absurd h (by decide)
  · decide

end TagState

/-! ## Attributes -/

namespace Attribute

variable {rest : List Char}

theorem isNameChar_iff {c : Char} :
    isNameChar c = true ↔ Text.isAsciiBlank c = false ∧ c ∉ ['=', '>', '/', '"', '\''] := by
  simp [isNameChar, and_assoc]

/-- What stands between attributes adds none. -/
theorem ofText_gap {gap : List Char} (hgap : ∀ c ∈ gap, isNameChar c = false) : ofText (gap ++ rest) = ofText rest := by
  induction gap with
  | nil => rfl
  | cons c gap ih =>
      have hc := hgap c (List.mem_cons_self ..)
      have hread : readPart c (gap ++ rest) = (.gap c, gap ++ rest) := by simp [readPart, hc]
      have hcons : ofText (c :: (gap ++ rest)) = ofText (gap ++ rest) := by
        rw [ofText, parts, hread, List.filterMap_cons_none rfl, ofText]
      rw [List.cons_append, hcons, ih fun d hd => hgap d (List.mem_cons_of_mem _ hd)]

theorem not_nameChar_of_blank {c : Char} (h : Text.isAsciiBlank c = true) : isNameChar c = false := by
  simp [isNameChar, h]

theorem not_nameChar_of_tail {c : Char} (h : Text.isAsciiBlank c = true ∨ c = '/') : isNameChar c = false := by
  rcases h with h | rfl
  · exact not_nameChar_of_blank h
  · decide

/-- What may follow a value: it does not go on with the name or with an equals sign, nor with a bare value. -/
structure Stops (v : WrittenValue) (rest : List Char) : Prop where
  name : ∀ c ∈ rest.head?, isNameChar c = false
  equals : ∀ c ∈ (rest.dropWhile Text.isAsciiBlank).head?, c ≠ '='
  bare : v.isBare = true → ∀ c ∈ rest.head?, Text.isAsciiBlank c = true

theorem readValue_quoted {quote : Char} {text : List Char} (hquote : quote = '"' ∨ quote = '\'') (h : quote ∉ text) :
    readValue (quote :: (text ++ quote :: rest)) = (.quoted quote text true, rest) := by
  have htext : ∀ c ∈ text, (c != quote) = true := fun c hc => bne_iff_ne.mpr fun he => h (he ▸ hc)
  have hstop : ∀ c ∈ (quote :: rest).head?, (c != quote) = false := by simp
  simp [readValue, hquote, takeWhile_run htext hstop, dropWhile_run htext hstop]

theorem readValue_bare {text : List Char} (hne : text ≠ [])
    (h : ∀ c ∈ text, Text.isAsciiBlank c = false ∧ c ∉ ['"', '\'', '=', '<', '>'])
    (hstop : ∀ c ∈ rest.head?, Text.isAsciiBlank c = true) : readValue (text ++ rest) = (.bare text, rest) := by
  have htext : ∀ c ∈ text, (!Text.isAsciiBlank c) = true := fun c hc => by simp [(h c hc).1]
  have hstop' : ∀ c ∈ rest.head?, (!Text.isAsciiBlank c) = false := fun c hc => by simp [hstop c hc]
  cases text with
  | nil => exact absurd rfl hne
  | cons c text =>
      have hquote : ¬(c = '"' ∨ c = '\'') := by
        rintro (rfl | rfl) <;> exact absurd (h _ (List.mem_cons_self ..)).2 (by decide)
      rw [List.cons_append, readValue, if_neg hquote, ← List.cons_append, takeWhile_run htext hstop',
        dropWhile_run htext hstop']

/-- A name ends at the blanks before an equals sign, or at the sign itself. -/
theorem readPart_assign {c : Char} {name before after value : List Char} (hname : ∀ d ∈ c :: name, isNameChar d = true)
    (hbefore : Blanks before) (hafter : Blanks after) (hvalue : ∀ d ∈ value.head?, Text.isAsciiBlank d = false) :
    readPart c (name ++ (before ++ '=' :: (after ++ value))) =
      (.assign (c :: name) before after (readValue value).1, (readValue value).2) := by
  have hinitial := hname c (List.mem_cons_self ..)
  have hothers : ∀ d ∈ name, isNameChar d = true := fun d hd => hname d (List.mem_cons_of_mem _ hd)
  have hstop : ∀ d ∈ (before ++ '=' :: (after ++ value)).head?, isNameChar d = false := by
    cases before with
    | nil => rintro d ⟨⟩; decide
    | cons b before => rintro d ⟨⟩; exact not_nameChar_of_blank (hbefore _ (List.mem_cons_self ..))
  have hequals : ∀ d ∈ ('=' :: (after ++ value)).head?, Text.isAsciiBlank d = false := by
    rintro d ⟨⟩; decide
  simp only [readPart, hinitial, if_true, takeWhile_run hothers hstop, dropWhile_run hothers hstop,
    takeWhile_run hbefore hequals, dropWhile_run hbefore hequals, takeWhile_run hafter hvalue,
    dropWhile_run hafter hvalue]

theorem readPart_attribute (a : WrittenAttribute) (hrest : Stops a.value rest) {c : Char} {name : List Char}
    (hname : a.name = c :: name) : ∃ part, readPart c (name ++ (a.value.written ++ rest)) = (part, rest) ∧
      part.attribute? = some a.entry := by
  have hchars : ∀ d ∈ c :: name, isNameChar d = true := fun d hd => isNameChar_iff.mpr (a.name_chars d (hname ▸ hd))
  unfold WrittenAttribute.entry
  rw [hname]
  cases hv : a.value with
  | missing =>
      refine ⟨.flag (c :: name), ?_, by simp [Part.attribute?, WrittenValue.meant]⟩
      rw [hv] at hrest
      have hothers : ∀ d ∈ name, isNameChar d = true := fun d hd => hchars d (List.mem_cons_of_mem _ hd)
      simp only [WrittenValue.written, List.nil_append, readPart, hchars c (List.mem_cons_self ..), if_true,
        takeWhile_run hothers hrest.name, dropWhile_run hothers hrest.name]
      split
      next d rest' heq => exact absurd rfl (hrest.equals '=' (by simp [heq]))
      next => rfl
  | quoted before after quote glyphs hbefore hafter hquote inside =>
      have hblank : ∀ d ∈ (quote :: (writtenText glyphs ++ quote :: rest)).head?, Text.isAsciiBlank d = false := by
        rintro d ⟨⟩
        rcases hquote with rfl | rfl <;> decide
      have hread := readPart_assign hchars hbefore hafter hblank
      rw [readValue_quoted hquote inside] at hread
      refine ⟨_, by simpa [WrittenValue.written] using hread, ?_⟩
      simp [Part.attribute?, Value.decoded, decode_writtenText, WrittenValue.meant]
  | bare before after glyphs hbefore hafter filled inside =>
      rw [hv] at hrest
      have hblank : ∀ d ∈ (writtenText glyphs ++ rest).head?, Text.isAsciiBlank d = false := by
        intro d hd
        rw [List.head?_append_of_ne_nil _ filled] at hd
        exact (inside d (List.mem_of_mem_head? hd)).1
      have hread := readPart_assign hchars hbefore hafter hblank
      rw [readValue_bare filled inside (hrest.bare rfl)] at hread
      refine ⟨_, by simpa [WrittenValue.written] using hread, ?_⟩
      simp [Part.attribute?, Value.decoded, decode_writtenText, WrittenValue.meant]

theorem ofText_attribute (a : WrittenAttribute) (hrest : Stops a.value rest) :
    ofText (a.written ++ rest) = a.entry :: ofText rest := by
  have hgap : ∀ c ∈ a.gap, isNameChar c = false := fun c hc => not_nameChar_of_blank (a.gap_blank c hc)
  rw [WrittenAttribute.written, List.append_assoc, ofText_gap hgap, List.append_assoc]
  cases hname : a.name with
  | nil => exact absurd hname a.name_ne
  | cons c name =>
      obtain ⟨part, hread, hentry⟩ := readPart_attribute a hrest hname
      simp [ofText, parts, hread, hentry]

theorem stops_attribute (v : WrittenValue) (a : WrittenAttribute) : Stops v (a.written ++ rest) := by
  obtain ⟨c, gap, hgap⟩ := List.exists_cons_of_ne_nil a.gap_ne
  obtain ⟨d, name, hname⟩ := List.exists_cons_of_ne_nil a.name_ne
  have hc : Text.isAsciiBlank c = true := a.gap_blank c (by simp [hgap])
  have hd := a.name_chars d (by simp [hname])
  have hhead : (a.written ++ rest).head? = some c := by simp [WrittenAttribute.written, hgap]
  refine ⟨?_, ?_, fun _ => ?_⟩
  · rw [hhead]; rintro _ ⟨⟩; exact not_nameChar_of_blank hc
  · have hdrop : (a.written ++ rest).dropWhile Text.isAsciiBlank = d :: (name ++ (a.value.written ++ rest)) := by
      rw [WrittenAttribute.written, List.append_assoc, hname,
        dropWhile_run a.gap_blank (by rintro _ ⟨⟩; exact hd.1)]
      simp
    rw [hdrop]
    rintro _ ⟨⟩ rfl
    simp at hd
  · rw [hhead]; rintro _ ⟨⟩; exact hc

theorem stops_tail {v : WrittenValue} {tail : List Char} (htail : ∀ c ∈ tail, Text.isAsciiBlank c = true ∨ c = '/')
    (h : v.isBare = true → ∀ c ∈ tail.head?, Text.isAsciiBlank c = true) : Stops v tail where
  name c hc := not_nameChar_of_tail (htail c (List.mem_of_mem_head? hc))
  equals c hc := by
    rintro rfl
    rcases htail '=' ((List.dropWhile_suffix _).subset (List.mem_of_mem_head? hc)) with h | h
    · exact absurd h (by decide)
    · exact absurd h (by decide)
  bare := h

/-- The attributes of a start tag are read as they were written. -/
theorem ofText_inner (t : StartTag) : ofText t.inner = t.attributes.map WrittenAttribute.entry := by
  have key (l : List WrittenAttribute)
      (hlast : ∀ a ∈ l.getLast?, a.value.isBare = true → ∀ c ∈ t.tail.head?, Text.isAsciiBlank c = true) :
      ofText (l.flatMap WrittenAttribute.written ++ t.tail) = l.map WrittenAttribute.entry := by
    induction l with
    | nil =>
        have htail : ofText (t.tail ++ []) = ofText [] :=
          ofText_gap fun c hc => not_nameChar_of_tail (t.tail_chars c hc)
        simpa [ofText, parts] using htail
    | cons a l ih =>
        have hstops : Stops a.value (l.flatMap WrittenAttribute.written ++ t.tail) := by
          cases l with
          | nil => exact stops_tail t.tail_chars (hlast a (by simp))
          | cons b l => simpa using stops_attribute a.value b
        have hrest := ih fun b hb => hlast b (by
          cases l with
          | nil => cases hb
          | cons c l => simpa using hb)
        rw [List.flatMap_cons, List.append_assoc, ofText_attribute a hstops, hrest]
        rfl
  exact key t.attributes t.apart

end Attribute

end ImportTree.Markup
