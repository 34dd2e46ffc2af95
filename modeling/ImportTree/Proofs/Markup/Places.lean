import ImportTree.Proofs.Markup.Concatenation

/-!
# Places of nodes

Every construct that a document is cut into ends by its own rule, where it stands in the text, and a text has only one
such cut. So every node is at the opening bracket of its tag, and inside no other construct.
-/

namespace ImportTree.Markup

variable {c d : Char} {cs rest name attributes body : List Char} {k : Construct} {ks : List Construct}
  {cut : Unterminated} {state : TagState}

/-! ## Constructs in a text -/

/-- Whether a start tag ends behind the name and what follows it. -/
def IsTag (name attributes : List Char) : Prop :=
  ∃ state : TagState, InTag name attributes state ∧ state.closes = true

/-- Whether a construct is one in front of a rest: it ends by its own rule, and not before. -/
def Construct.Stands (rest : List Char) : Construct → Prop
  | .text c => c = '<' → ∀ d ∈ rest.head?, ¬Construct.IsMark d ∧ d.isAlpha = false
  | .comment body => ¬['-', '-', '>'] <:+: body
  | .declaration body => ∃ mark inner, body = mark :: inner ∧ Construct.IsMark mark ∧
      (mark = '!' → ¬['-', '-'] <+: inner) ∧ '>' ∉ inner
  | .startTag name attributes => IsTag name attributes ∧ Text.lower name ≠ "script".toList ∧
      Text.lower name ∉ Construct.rawTextNames
  | .script name attributes body closing => IsTag name attributes ∧ Text.lower name = "script".toList ∧
      ¬"</script".toList <:+: Text.lower body ∧ "</script".toList <+: Text.lower closing ∧
      ((∃ junk, closing = junk ++ ['>'] ∧ '>' ∉ junk) ∨ '>' ∉ closing ∧ rest = [])
  | .rawText name attributes content => IsTag name attributes ∧ Text.lower name ∈ Construct.rawTextNames ∧
      ¬ '<' :: '/' :: Text.lower name <:+: Text.lower content ∧
      ('<' :: '/' :: Text.lower name <+: Text.lower rest ∨ rest = [])

/-- Whether a text begins with a construct that does not end. -/
def Unterminated.Begins (text : List Char) : Unterminated → Prop
  | .comment => ∃ body, text = '<' :: '!' :: '-' :: '-' :: body ∧ ¬['-', '-', '>'] <:+: body
  | .declaration => ∃ mark inner, text = '<' :: mark :: inner ∧ Construct.IsMark mark ∧
      (mark = '!' → ¬['-', '-'] <+: inner) ∧ '>' ∉ inner
  | .startTag lowerName => ∃ name attributes state, text = '<' :: (name ++ attributes) ∧ InTag name attributes state ∧
      Text.lower name = lowerName
  | .script => ∃ name attributes body, text = Construct.writtenTag name attributes ++ body ∧ IsTag name attributes ∧
      Text.lower name = "script".toList ∧ ¬"</script".toList <:+: Text.lower body

/-- Whether each of some constructs is one in front of the others and a rest. -/
def AllStand (rest : List Char) : List Construct → Prop
  | [] => True
  | k :: ks => k.Stands (Construct.writtenAll ks ++ rest) ∧ AllStand rest ks

/-- Whether a text is cut into some constructs and a rest. -/
structure Cuts (text : List Char) (ks : List Construct) (rest : List Char) : Prop where
  written : text = Construct.writtenAll ks ++ rest
  stand : AllStand rest ks

/-- Whether nothing is left of a text, or what is left begins with a construct that does not end. -/
def Stops (rest : List Char) : Option Unterminated → Prop
  | none => rest = []
  | some cut => cut.Begins rest

/-! ## Searches for the end -/

theorem readComment_eq_ok_iff : Construct.readComment cs = .ok (k, rest) ↔
    ∃ body, k = .comment body ∧ cs = body ++ (['-', '-', '>'] ++ rest) ∧ ¬['-', '-', '>'] <:+: body := by
  unfold Construct.readComment
  constructor
  · intro h
    split at h
    next body rest' hcut =>
      cases h
      exact ⟨body, rfl, (Text.cutAround?_eq_some_iff (by decide) (by decide)).mp hcut⟩
    next => cases h
  · rintro ⟨body, rfl, hcut⟩
    rw [(Text.cutAround?_eq_some_iff (by decide) (by decide)).mpr hcut]

theorem readComment_eq_error_iff : Construct.readComment cs = .error cut ↔
    cut = .comment ∧ ¬['-', '-', '>'] <:+: cs := by
  rw [← Text.cutAround?_eq_none_iff, Construct.readComment]
  cases Text.cutAround? ['-', '-', '>'] cs <;> simp [eq_comm]

theorem readDeclaration_eq_ok_iff : Construct.readDeclaration cs = .ok (k, rest) ↔
    ∃ body, k = .declaration body ∧ cs = body ++ '>' :: rest ∧ '>' ∉ body := by
  unfold Construct.readDeclaration
  constructor
  · intro h
    split at h
    next body rest' hcut =>
      cases h
      obtain ⟨hcs, hbody⟩ := (Text.cutAround?_eq_some_iff (by decide) (by decide)).mp hcut
      exact ⟨body, rfl, hcs, (List.singleton_infix_iff '>' body).not.mp hbody⟩
    next => cases h
  · rintro ⟨body, rfl, rfl, hbody⟩
    exact Construct.readDeclaration_first hbody rest

theorem readDeclaration_eq_error_iff : Construct.readDeclaration cs = .error cut ↔
    cut = .declaration ∧ '>' ∉ cs := by
  rw [← List.singleton_infix_iff, ← Text.cutAround?_eq_none_iff, Construct.readDeclaration]
  cases Text.cutAround? ['>'] cs <;> simp [eq_comm]

theorem throughBracket_eq_iff {closing : List Char} : Construct.throughBracket cs = (closing, rest) ↔
    cs = closing ++ rest ∧ ((∃ junk, closing = junk ++ ['>'] ∧ '>' ∉ junk) ∨ '>' ∉ closing ∧ rest = []) := by
  constructor
  · intro h
    refine ⟨by simpa [h] using (Construct.throughBracket_append cs).symm, ?_⟩
    by_cases hbracket : '>' ∈ cs
    · obtain ⟨junk, after, rfl, hjunk⟩ := List.eq_append_cons_of_mem hbracket
      rw [Construct.throughBracket_first hjunk] at h
      cases h
      exact .inl ⟨junk, rfl, hjunk⟩
    · rw [Construct.throughBracket_all hbracket] at h
      cases h
      exact .inr ⟨hbracket, rfl⟩
  · rintro ⟨rfl, ⟨junk, rfl, hjunk⟩ | ⟨hopen, rfl⟩⟩
    · rw [List.append_assoc]
      exact Construct.throughBracket_first hjunk rest
    · rw [List.append_nil]
      exact Construct.throughBracket_all hopen

/-! ## Contents -/

namespace Construct

theorem stands_of_readContent (htag : IsTag name attributes) (h : readContent name attributes cs = .ok (k, rest)) :
    k.Stands rest := by
  unfold readContent at h
  split at h
  next hscript =>
    split at h
    next body after hcut =>
      cases h
      obtain ⟨-, hbody, hmark⟩ := (cutBefore?_endMark_eq_some_iff (List.mem_cons_self ..)).mp hcut
      obtain ⟨happend, hends⟩ := throughBracket_eq_iff.mp (rfl : throughBracket after = (_, _))
      refine ⟨htag, hscript, hbody, ?_, hends⟩
      rcases hends with ⟨junk, hjunk, -⟩ | ⟨-, hnil⟩
      · have hafter : Text.lower after = Text.lower junk ++ '>' :: Text.lower (throughBracket after).2 := by
          conv_lhs => rw [happend, hjunk]
          simp
          rfl
        rw [hjunk, Text.lower_append]
        exact (prefix_of_notMem (by decide) (hafter ▸ hmark)).trans (List.prefix_append ..)
      · rw [hnil, List.append_nil] at happend
        exact happend ▸ hmark
    next => cases h
  next hscript =>
    split at h
    next hraw =>
      split at h
      next content after hcut =>
        cases h
        obtain ⟨-, hcontent, hmark⟩ := (cutBefore?_endMark_eq_some_iff (List.mem_cons_of_mem _ hraw)).mp hcut
        exact ⟨htag, hraw, hcontent, .inl hmark⟩
      next hcut =>
        cases h
        exact ⟨htag, hraw, (cutBefore?_endMark_eq_none_iff (List.mem_cons_of_mem _ hraw)).mp hcut, .inr rfl⟩
    next hraw =>
      cases h
      exact ⟨htag, hscript, hraw⟩

theorem Stands.readContent_startTag (h : (startTag name attributes).Stands rest) :
    readContent name attributes rest = .ok (.startTag name attributes, rest) := by
  obtain ⟨-, hscript, hraw⟩ := h
  rw [readContent, if_neg hscript, if_neg hraw]

theorem Stands.readContent_script {closing : List Char} (h : (script name attributes body closing).Stands rest) :
    readContent name attributes (body ++ (closing ++ rest)) = .ok (.script name attributes body closing, rest) := by
  obtain ⟨-, hscript, hbody, hmark, hends⟩ := h
  have hcut : Text.cutBefore? (Text.startsWithLetters "</script".toList) (body ++ (closing ++ rest)) =
      some (body, closing ++ rest) := by
    refine (cutBefore?_endMark_eq_some_iff (List.mem_cons_self ..)).mpr ⟨rfl, hbody, ?_⟩
    rw [Text.lower_append]
    exact hmark.trans (List.prefix_append ..)
  have hthrough := throughBracket_eq_iff.mpr ⟨rfl, hends⟩
  rw [readContent, if_pos hscript, hcut]
  simp only [hthrough]

theorem Stands.readContent_rawText {content : List Char} (h : (rawText name attributes content).Stands rest) :
    readContent name attributes (content ++ rest) = .ok (.rawText name attributes content, rest) := by
  obtain ⟨-, hraw, hcontent, hends⟩ := h
  have hscript : Text.lower name ≠ "script".toList := fun heq => absurd (heq ▸ hraw) (by decide)
  have hname := List.mem_cons_of_mem "script".toList hraw
  rw [readContent, if_neg hscript, if_pos hraw]
  rcases hends with hmark | rfl
  · rw [(cutBefore?_endMark_eq_some_iff hname).mpr ⟨rfl, hcontent, hmark⟩]
  · rw [List.append_nil, (cutBefore?_endMark_eq_none_iff hname).mpr hcontent]

theorem readContent_eq_error_iff : readContent name attributes cs = .error cut ↔
    cut = .script ∧ Text.lower name = "script".toList ∧ ¬"</script".toList <:+: Text.lower cs := by
  have hnone : Text.cutBefore? (Text.startsWithLetters "</script".toList) cs = none ↔ _ :=
    cutBefore?_endMark_eq_none_iff (List.mem_cons_self ..)
  rw [readContent]
  constructor
  · intro h
    split at h
    next hscript =>
      split at h
      next => cases h
      next hcut =>
        cases h
        exact ⟨rfl, hscript, hnone.mp hcut⟩
    next =>
      split at h
      next => split at h <;> cases h
      next => cases h
  · rintro ⟨rfl, hscript, hcut⟩
    rw [if_pos hscript, hnone.mpr hcut]

/-! ## Reading a construct -/

/-- What an opening bracket begins. -/
inductive Lead : List Char → Prop where
  | comment (body : List Char) : Lead ('!' :: '-' :: '-' :: body)
  | declaration {mark : Char} {inner : List Char} : IsMark mark → (mark = '!' → ¬['-', '-'] <+: inner) →
      Lead (mark :: inner)
  | tag {c : Char} {others : List Char} : c.isAlpha = true → Lead (c :: others)
  | nothing {cs : List Char} : (∀ d ∈ cs.head?, ¬IsMark d ∧ d.isAlpha = false) → Lead cs

theorem lead (cs : List Char) : Lead cs := by
  cases cs with
  | nil => exact .nothing (by simp)
  | cons c cs =>
      by_cases hmark : IsMark c
      · by_cases hdashes : c = '!' ∧ ['-', '-'] <+: cs
        · obtain ⟨rfl, body, rfl⟩ := hdashes
          exact .comment body
        · exact .declaration hmark fun hc h => hdashes ⟨hc, h⟩
      · cases hletter : c.isAlpha with
        | true => exact .tag hletter
        | false => exact .nothing (by simp [hmark, hletter])

theorem read_nothing (h : ∀ d ∈ cs.head?, ¬IsMark d ∧ d.isAlpha = false) : read '<' cs = .ok (.text '<', cs) := by
  cases cs with
  | nil => rfl
  | cons d cs =>
      obtain ⟨hmark, hletter⟩ := h d rfl
      rw [read, if_pos rfl, if_neg (Bool.eq_false_iff.mp hletter)]
      · exact fun _ hd _ => hmark (.inl hd)
      · exact fun hd => hmark (.inl hd)
      · exact fun hd => hmark (.inr (.inl hd))
      · exact fun hd => hmark (.inr (.inr hd))

/-- A tag begins with a name, which goes as far as it can. -/
theorem exists_name (others : List Char) (hc : c.isAlpha = true) : ∃ name tail, c :: others = name ++ tail ∧
    (∃ d ∈ name.head?, d.isAlpha = true) ∧ (∀ d ∈ name, isTagNameChar d = true) ∧
    ∀ d ∈ tail.head?, isTagNameChar d = false := by
  have hname : isTagNameChar c = true := by simp [isTagNameChar, Char.isAlphanum, hc]
  refine ⟨(c :: others).takeWhile isTagNameChar, (c :: others).dropWhile isTagNameChar,
    List.takeWhile_append_dropWhile.symm, ⟨c, by simp [hname], hc⟩, List.all_eq_true.mp List.all_takeWhile,
    fun d hd => ?_⟩
  have := List.head?_dropWhile_not isTagNameChar (c :: others)
  rw [hd] at this
  simpa using this

/-- Behind a letter there is a tag, and then what belongs to its element, unless the tag does not end. -/
theorem read_letter_cases {others : List Char} (hc : c.isAlpha = true) :
    (∃ name attributes rest, c :: others = name ++ (attributes ++ '>' :: rest) ∧ IsTag name attributes ∧
      read '<' (c :: others) = readContent name attributes rest) ∨
    ∃ name attributes state, c :: others = name ++ attributes ∧ InTag name attributes state ∧
      read '<' (c :: others) = .error (.startTag (Text.lower name)) := by
  obtain ⟨name, tail, hsplit, hinitial, hchars, hends⟩ := exists_name others hc
  rw [read_letter hc, hsplit]
  cases hcut : cutTag? .plain tail with
  | none =>
      obtain ⟨state, hwalks⟩ := TagState.cutTag?_eq_none_iff.mp hcut
      exact .inr ⟨name, tail, state, rfl, ⟨hinitial, hchars, hends, hwalks⟩,
        readElement_open hchars hends hcut⟩
  | some p =>
      obtain ⟨attributes, rest⟩ := p
      obtain ⟨rfl, state, hwalks, hstate⟩ := TagState.cutTag?_eq_some_iff.mp hcut
      have hends' : ∀ d ∈ attributes.head?, isTagNameChar d = false := by
        cases attributes with
        | nil => simp
        | cons d attributes => exact hends
      exact .inl ⟨name, attributes, rest, rfl, ⟨state, ⟨hinitial, hchars, hends', hwalks⟩, hstate⟩,
        readElement_closed hchars hends hcut⟩

/-- What is read in front of a rest is a construct there. -/
theorem stands_of_read (h : read c cs = .ok (k, rest)) : k.Stands rest := by
  by_cases hc : c = '<'
  · subst hc
    cases lead cs with
    | comment body =>
        obtain ⟨_, rfl, -, hbody⟩ := readComment_eq_ok_iff.mp h
        exact hbody
    | @declaration mark inner hmark hdashes =>
        rw [read_mark hmark hdashes] at h
        obtain ⟨body, rfl, happend, hbody⟩ := readDeclaration_eq_ok_iff.mp h
        cases body with
        | nil =>
            cases happend
            exact absurd rfl hmark.ne_bracket
        | cons c body =>
            obtain ⟨rfl, rfl⟩ := List.cons.inj happend
            exact ⟨mark, body, rfl, hmark, fun hm hp => hdashes hm (hp.trans (List.prefix_append ..)),
              fun hmem => hbody (List.mem_cons_of_mem _ hmem)⟩
    | tag hletter =>
        rcases read_letter_cases hletter with ⟨name, attributes, after, -, htag, hread⟩ | ⟨_, _, _, -, -, hread⟩
        · exact stands_of_readContent htag (hread.symm.trans h)
        · cases hread.symm.trans h
    | nothing hnothing =>
        rw [read_nothing hnothing] at h
        cases h
        exact fun _ => hnothing
  · rw [read_text hc] at h
    cases h
    exact fun heq => absurd heq hc

/-- A construct in front of a rest is read there. -/
theorem Stands.read (h : k.Stands rest) (hcs : k.written ++ rest = c :: cs) : read c cs = .ok (k, rest) := by
  cases k with
  | text d =>
      obtain ⟨rfl, rfl⟩ := List.cons.inj hcs
      by_cases hd : d = '<'
      · subst hd
        exact read_nothing (h rfl)
      · exact read_text hd _
  | comment body =>
      simp only [written, List.cons_append, List.append_assoc, List.cons.injEq] at hcs
      obtain ⟨rfl, rfl⟩ := hcs
      exact read_comment h rest
  | declaration body =>
      obtain ⟨mark, inner, rfl, hmark, hdashes, hinner⟩ := h
      simp only [written, List.cons_append, List.append_assoc, List.cons.injEq] at hcs
      obtain ⟨rfl, rfl⟩ := hcs
      exact read_declaration hmark hdashes hinner rest
  | startTag name attributes =>
      obtain ⟨state, htag, hstate⟩ := h.1
      simp only [written, writtenTag, List.cons_append, List.append_assoc, List.cons.injEq] at hcs
      obtain ⟨rfl, rfl⟩ := hcs
      exact (read_inTag htag hstate rest).trans h.readContent_startTag
  | script name attributes body closing =>
      obtain ⟨state, htag, hstate⟩ := h.1
      simp only [written, writtenTag, List.cons_append, List.append_assoc, List.cons.injEq] at hcs
      obtain ⟨rfl, rfl⟩ := hcs
      exact (read_inTag htag hstate _).trans h.readContent_script
  | rawText name attributes content =>
      obtain ⟨state, htag, hstate⟩ := h.1
      simp only [written, writtenTag, List.cons_append, List.append_assoc, List.cons.injEq] at hcs
      obtain ⟨rfl, rfl⟩ := hcs
      exact (read_inTag htag hstate _).trans h.readContent_rawText

/-- A construct is read exactly where it stands. -/
theorem read_eq_ok_iff : read c cs = .ok (k, rest) ↔ k.written ++ rest = c :: cs ∧ k.Stands rest :=
  ⟨fun h => ⟨read_written h, stands_of_read h⟩, fun h => h.2.read h.1⟩

/-- What is reported stands in front, and does not end. -/
theorem begins_of_read (h : read c cs = .error cut) : cut.Begins (c :: cs) := by
  by_cases hc : c = '<'
  · subst hc
    cases lead cs with
    | comment body =>
        obtain ⟨rfl, hbody⟩ := readComment_eq_error_iff.mp h
        exact ⟨body, rfl, hbody⟩
    | @declaration mark inner hmark hdashes =>
        rw [read_mark hmark hdashes] at h
        obtain ⟨rfl, hopen⟩ := readDeclaration_eq_error_iff.mp h
        exact ⟨mark, inner, rfl, hmark, hdashes, fun hmem => hopen (List.mem_cons_of_mem _ hmem)⟩
    | tag hletter =>
        rcases read_letter_cases hletter with
          ⟨name, attributes, body, hcs, htag, hread⟩ | ⟨name, attributes, state, hcs, htag, hread⟩
        · obtain ⟨rfl, hscript, hbody⟩ := readContent_eq_error_iff.mp (hread.symm.trans h)
          exact ⟨name, attributes, body, by simp [hcs, writtenTag], htag, hscript, hbody⟩
        · cases hread.symm.trans h
          exact ⟨name, attributes, state, congrArg _ hcs, htag, rfl⟩
    | nothing hnothing =>
        rw [read_nothing hnothing] at h
        cases h
  · rw [read_text hc] at h
    cases h

end Construct

/-- What does not end in front of a text is reported. -/
theorem Unterminated.Begins.read (h : cut.Begins (c :: cs)) : Construct.read c cs = .error cut := by
  cases cut with
  | comment =>
      obtain ⟨body, heq, hbody⟩ := h
      cases heq
      exact readComment_eq_error_iff.mpr ⟨rfl, hbody⟩
  | declaration =>
      obtain ⟨mark, inner, heq, hmark, hdashes, hinner⟩ := h
      cases heq
      rw [Construct.read_mark hmark hdashes]
      refine readDeclaration_eq_error_iff.mpr ⟨rfl, fun hmem => ?_⟩
      rcases List.mem_cons.mp hmem with rfl | hmem
      · exact absurd rfl hmark.ne_bracket
      · exact hinner hmem
  | startTag lowerName =>
      obtain ⟨name, attributes, state, heq, htag, rfl⟩ := h
      obtain ⟨rfl, rfl⟩ := List.cons.inj heq
      obtain ⟨d, hd, hletter⟩ := htag.initial
      obtain ⟨others, rfl⟩ := List.head?_eq_some_iff.mp hd
      rw [List.cons_append, Construct.read_letter hletter, ← List.cons_append]
      exact Construct.readElement_open htag.chars htag.ends (TagState.cutTag?_eq_none_iff.mpr ⟨state, htag.walks⟩)
  | script =>
      obtain ⟨name, attributes, body, heq, ⟨state, htag, hstate⟩, hscript, hbody⟩ := h
      simp only [Construct.writtenTag, List.cons_append, List.append_assoc, List.cons.injEq] at heq
      obtain ⟨rfl, rfl⟩ := heq
      exact (Construct.read_inTag htag hstate _).trans (Construct.readContent_eq_error_iff.mpr ⟨rfl, hscript, hbody⟩)

/-! ## Whole documents -/

namespace Construct

theorem writtenAll_cons (k : Construct) (ks : List Construct) : writtenAll (k :: ks) = k.written ++ writtenAll ks :=
  rfl

theorem readAll_error (h : read c cs = .error cut) : readAll (c :: cs) = ([], some cut) := by
  rw [readAll]
  split
  next h' => cases h.symm.trans h'
  next h' =>
    cases h.symm.trans h'
    rfl

theorem readAll_stops {cut? : Option Unterminated} (h : Stops rest cut?) : readAll rest = ([], cut?) := by
  cases cut? with
  | none =>
      obtain rfl : rest = [] := h
      exact readAll.eq_1
  | some cut =>
      cases rest with
      | nil => cases cut <;> simp [Stops, Unterminated.Begins, writtenTag] at h
      | cons c cs => exact readAll_error h.read

/-- The constructs that are read are those that stand one behind the other in a text, up to its end or to a construct
that does not end. -/
theorem readAll_eq_iff {cut? : Option Unterminated} : readAll cs = (ks, cut?) ↔
    ∃ rest, Cuts cs ks rest ∧ Stops rest cut? := by
  constructor
  · intro h
    fun_induction readAll cs generalizing ks with
    | case1 =>
        cases h
        exact ⟨[], ⟨rfl, trivial⟩, rfl⟩
    | case2 c cs k after hread ih =>
        obtain ⟨rfl, hcut⟩ := Prod.mk.inj h
        obtain ⟨rest, ⟨hafter, hstand⟩, hrest⟩ := ih (Prod.ext rfl hcut)
        have hk := stands_of_read hread
        rw [hafter] at hk
        refine ⟨rest, ⟨?_, hk, hstand⟩, hrest⟩
        rw [← read_written hread, writtenAll_cons, List.append_assoc, ← hafter]
    | case3 c cs cut hread =>
        cases h
        exact ⟨c :: cs, ⟨rfl, trivial⟩, begins_of_read hread⟩
  · rintro ⟨rest, ⟨rfl, hstand⟩, hstops⟩
    induction ks with
    | nil => exact readAll_stops hstops
    | cons k ks ih =>
        obtain ⟨hk, hks⟩ := hstand
        obtain ⟨c, cs, hcs⟩ := List.exists_cons_of_ne_nil k.written_ne_nil
        have hread : read c (cs ++ (writtenAll ks ++ rest)) = .ok (k, writtenAll ks ++ rest) :=
          hk.read (by rw [hcs, List.cons_append])
        rw [writtenAll_cons, List.append_assoc, hcs, List.cons_append, readAll_cons hread, ih hks]

end Construct

/-- A text has only one cut. -/
theorem Cuts.unique {text rest' : List Char} {ks' : List Construct} {cut? cut?' : Option Unterminated}
    (h : Cuts text ks rest) (hstops : Stops rest cut?) (h' : Cuts text ks' rest') (hstops' : Stops rest' cut?') :
    ks = ks' ∧ rest = rest' ∧ cut? = cut?' := by
  have hread := Construct.readAll_eq_iff.mpr ⟨rest, h, hstops⟩
  obtain ⟨rfl, rfl⟩ := Prod.mk.inj (hread.symm.trans (Construct.readAll_eq_iff.mpr ⟨rest', h', hstops'⟩))
  exact ⟨rfl, List.append_cancel_left (h.written.symm.trans h'.written), rfl⟩

end ImportTree.Markup

/-! ## Nodes -/

namespace ImportTree

open Markup Construct

/-- The lists of a structure. -/
inductive NodeKind where
  | script
  | importLink
  | template
deriving DecidableEq, Repr

/-- A node with its list, and the place of the bracket that opens its tag. -/
structure Finding where
  offset : Nat
  kind : NodeKind
  node : Node
deriving DecidableEq, Repr

/-- Whether a text begins with a tag of this name, in any case of letters. -/
def BeginsTag (text : List Char) (tag : String) : Prop :=
  ∃ name c behind, text = '<' :: (name ++ c :: behind) ∧ String.ofList (Text.lower name) = tag ∧ isTagNameChar c = false

/-- Whether a text has the tag of a node at its place, and the node tells the line of the place. -/
structure Finding.Stands (text : List Char) (f : Finding) : Prop where
  tag : BeginsTag (text.drop f.offset) f.node.tag
  line : f.node.line = 1 + (text.take f.offset).count '\n'

/-- Whether the place of a node is inside none of some constructs. -/
def Finding.Outside (ks : List Construct) (f : Finding) : Prop :=
  ∀ before k after, ks = before ++ k :: after →
    f.offset ≤ (writtenAll before).length ∨ (writtenAll before).length + k.written.length ≤ f.offset

namespace Structure

variable {offset line : Nat} {k : Construct} {ks : List Construct} {rest : List Char} {f : Finding}

/-- The nodes that are found, each in its list. -/
def collect (found : List Finding) : Structure where
  scripts := (found.filter (·.kind = .script)).map (·.node)
  imports := (found.filter (·.kind = .importLink)).map (·.node)
  templates := (found.filter (·.kind = .template)).map (·.node)

/-- The nodes of a structure, all at one place. -/
def foundAt (offset : Nat) (s : Structure) : List Finding :=
  s.scripts.map (⟨offset, .script, ·⟩) ++ s.imports.map (⟨offset, .importLink, ·⟩) ++
    s.templates.map (⟨offset, .template, ·⟩)

/-- The nodes of constructs of which the first begins at the given place on the given line. -/
def findings (offset line : Nat) : List Construct → List Finding
  | [] => []
  | k :: ks => foundAt offset (ofConstruct line k) ++
      findings (offset + k.written.length) (line + Text.newlines k.written) ks

theorem collect_append (found found' : List Finding) :
    collect (found ++ found') = (collect found).append (collect found') := by
  simp [collect, append]

theorem collect_foundAt (offset : Nat) (s : Structure) : collect (foundAt offset s) = s := by
  simp [collect, foundAt, List.filter_map, Function.comp_def]

theorem collect_findings (offset line : Nat) (ks : List Construct) :
    collect (findings offset line ks) = ofConstructs line ks := by
  induction ks generalizing offset line with
  | nil => rfl
  | cons k ks ih => rw [findings, collect_append, collect_foundAt, ih, ofConstructs]

theorem beginsTag_of_isTag {name attributes : List Char} {tag : String} (h : IsTag name attributes)
    (htag : String.ofList (Text.lower name) = tag) (rest : List Char) :
    BeginsTag (writtenTag name attributes ++ rest) tag := by
  obtain ⟨state, h, -⟩ := h
  cases attributes with
  | nil => exact ⟨name, '>', rest, by simp [writtenTag], htag, by decide⟩
  | cons c attributes => exact ⟨name, c, attributes ++ '>' :: rest, by simp [writtenTag], htag, h.ends c rfl⟩

/-- A construct has one node at most, which is that of its tag. -/
theorem foundAt_cases (offset line : Nat) (hk : k.Stands rest) : foundAt offset (ofConstruct line k) = [] ∨
    ∃ f, foundAt offset (ofConstruct line k) = [f] ∧ f.offset = offset ∧ f.node.line = line ∧
      ∀ after, BeginsTag (k.written ++ after) f.node.tag := by
  cases k with
  | script name attributes body closing =>
      obtain ⟨htag, hscript, -⟩ := hk
      refine .inr ⟨_, rfl, rfl, rfl, fun after => ?_⟩
      rw [written, List.append_assoc, List.append_assoc]
      exact beginsTag_of_isTag htag (congrArg String.ofList hscript) _
  | startTag name attributes =>
      have hbegins := beginsTag_of_isTag hk.1 (rfl : _ = String.ofList (Text.lower name))
      unfold ofConstruct
      dsimp only
      split
      next =>
        split
        next => exact .inr ⟨_, rfl, rfl, rfl, hbegins⟩
        next => exact .inl rfl
      next =>
        split
        next => exact .inr ⟨_, rfl, rfl, rfl, hbegins⟩
        next => exact .inl rfl
  | _ => exact .inl rfl

/-- A node is found where a construct begins. -/
theorem mem_findings (hks : AllStand rest ks) (hf : f ∈ findings offset line ks) : ∃ before k after,
    ks = before ++ k :: after ∧ f.offset = offset + (writtenAll before).length ∧
      f.node.line = line + (writtenAll before).count '\n' ∧
      BeginsTag (k.written ++ (writtenAll after ++ rest)) f.node.tag := by
  induction ks generalizing offset line with
  | nil => cases hf
  | cons k ks ih =>
      rcases List.mem_append.mp hf with hf | hf
      · rcases foundAt_cases offset line hks.1 with hnone | ⟨g, hone, hoffset, hline, htag⟩
        · rw [hnone] at hf
          cases hf
        · obtain rfl : f = g := by simpa [hone] using hf
          exact ⟨[], k, ks, rfl, hoffset, hline, htag _⟩
      · obtain ⟨before, k', after, rfl, hoffset, hline, htag⟩ := ih hks.2 hf
        refine ⟨k :: before, k', after, rfl, ?_, ?_, htag⟩
        · rw [hoffset, writtenAll_cons, List.length_append, Nat.add_assoc]
        · rw [hline, writtenAll_cons, List.count_append, Nat.add_assoc, Text.newlines]

theorem findings_increasing (hks : AllStand rest ks) (offset line : Nat) :
    (findings offset line ks).Pairwise (·.offset < ·.offset) := by
  induction ks generalizing offset line with
  | nil => exact .nil
  | cons k ks ih =>
      have hlater {line : Nat} : ∀ f ∈ findings (offset + k.written.length) line ks, offset < f.offset := by
        intro f hf
        obtain ⟨_, _, _, -, hoffset, -⟩ := mem_findings hks.2 hf
        have := List.length_pos_iff.mpr k.written_ne_nil
        omega
      rw [findings, List.pairwise_append]
      rcases foundAt_cases offset line hks.1 with hnone | ⟨g, hone, hoffset, -⟩
      · rw [hnone]
        exact ⟨.nil, ih hks.2 .., by simp⟩
      · rw [hone]
        refine ⟨List.pairwise_singleton .., ih hks.2 .., fun f hf f' hf' => ?_⟩
        rw [List.mem_singleton.mp hf, hoffset]
        exact hlater f' hf'

/-- What begins where a construct begins is inside no other construct. -/
theorem outside_of_offset {before after : List Construct} (hks : ks = before ++ k :: after)
    (hoffset : f.offset = (writtenAll before).length) : f.Outside ks := by
  intro before' k' after' hks'
  rw [hoffset]
  rcases List.append_eq_append_iff.mp (hks.symm.trans hks') with ⟨l, rfl, -⟩ | ⟨l, rfl, hl⟩
  · exact .inl (by simp [writtenAll])
  · cases l with
    | nil => exact .inl (by simp)
    | cons k'' l =>
        obtain ⟨rfl, -⟩ := List.cons.inj hl
        exact .inr (by simp [writtenAll])

theorem read_eq_error {text : String} {fault : SyntaxFault} (h : read text = .error fault) :
    ∃ ks cut, readAll text.toList = (ks, some cut) ∧ fault = ⟨1 + (writtenAll ks).count '\n', cut.reason⟩ := by
  unfold read at h
  split at h
  next => cases h
  next ks cut hks =>
    cases h
    exact ⟨ks, cut, hks, rfl⟩

/-- Every node of a document is really there: its tag begins at its place and on its line, and no construct of the text
goes on there. If a document is refused, every construct before the one that is reported ends, and the line is that of
the latter. -/
theorem read_places (text : String) :
    (∀ s, read text = .ok s → ∃ ks found, (∀ ks', Cuts text.toList ks' [] ↔ ks' = ks) ∧ s = collect found ∧
      found.Pairwise (·.offset < ·.offset) ∧ ∀ f ∈ found, f.Stands text.toList ∧ f.Outside ks) ∧
    ∀ fault, read text = .error fault → ∃ ks rest, ∃ cut : Unterminated,
      (∀ ks' rest' cut', Cuts text.toList ks' rest' ∧ Unterminated.Begins rest' cut' ↔
        ks' = ks ∧ rest' = rest ∧ cut' = cut) ∧
      fault = ⟨1 + (writtenAll ks).count '\n', cut.reason⟩ := by
  constructor
  · intro s hs
    obtain ⟨ks, hks, rfl⟩ := read_eq_ok hs
    obtain ⟨_, hcuts, rfl⟩ := readAll_eq_iff.mp hks
    have hstops : Stops [] none := rfl
    refine ⟨ks, findings 0 1 ks, fun ks' => ⟨fun h => (h.unique hstops hcuts hstops).1, fun h => h ▸ hcuts⟩,
      (collect_findings ..).symm, findings_increasing hcuts.stand .., fun f hf => ?_⟩
    obtain ⟨before, k, after, hsplit, hoffset, hline, htag⟩ := mem_findings hcuts.stand hf
    rw [Nat.zero_add] at hoffset
    have htext : text.toList = writtenAll before ++ (k.written ++ (writtenAll after ++ [])) := by
      rw [hcuts.written, hsplit]
      simp [writtenAll]
    refine ⟨⟨?_, ?_⟩, outside_of_offset hsplit hoffset⟩
    · rwa [htext, hoffset, List.drop_left]
    · rwa [htext, hoffset, List.take_left]
  · intro fault hfault
    obtain ⟨ks, cut, hks, rfl⟩ := read_eq_error hfault
    obtain ⟨rest, hcuts, hbegins⟩ := readAll_eq_iff.mp hks
    refine ⟨ks, rest, cut, fun ks' rest' cut' => ⟨?_, ?_⟩, rfl⟩
    · rintro ⟨hcuts', hbegins'⟩
      have hstops' : Stops rest' (some cut') := hbegins'
      obtain ⟨hks', hrest', hcut'⟩ := hcuts'.unique hstops' hcuts hbegins
      exact ⟨hks', hrest', Option.some.inj hcut'⟩
    · rintro ⟨rfl, rfl, rfl⟩
      exact ⟨hcuts, hbegins⟩

/-- What looks like a tag in a comment or in a script is none. -/
theorem read_places_of_script :
    let text := "<!--<link>--><dom-module id=x>\n<SCRIPT>'<link>'</script>"
    let s : Structure := ⟨[⟨"script", [], some "'<link>'", 2⟩], [], [⟨"dom-module", [("id", "x")], none, 1⟩]⟩
    (read text = .ok s ∧ ∃ ks found, Cuts text.toList ks [] ∧ s = collect found ∧
      ∀ f ∈ found, f.Stands text.toList ∧ f.Outside ks) ∧
    read "<br>\n<script\n>" = .error ⟨2, "unterminated <script> element"⟩ ∧
      ∃ ks rest, ∃ cut : Unterminated, Cuts "<br>\n<script\n>".toList ks rest ∧ cut.Begins rest ∧
        (writtenAll ks).count '\n' = 1 ∧ cut.reason = "unterminated <script> element" := by
  have hread : read "<!--<link>--><dom-module id=x>\n<SCRIPT>'<link>'</script>" = .ok
      ⟨[⟨"script", [], some "'<link>'", 2⟩], [], [⟨"dom-module", [("id", "x")], none, 1⟩]⟩ := by decide +kernel
  have hopen : read "<br>\n<script\n>" = .error ⟨2, "unterminated <script> element"⟩ := by decide +kernel
  obtain ⟨ks, found, hks, hs, -, hfound⟩ := (read_places _).1 _ hread
  refine ⟨⟨hread, ks, found, (hks ks).mpr rfl, hs, hfound⟩, hopen, ?_⟩
  obtain ⟨ks, rest, cut, hcut, hfault⟩ := (read_places _).2 _ hopen
  obtain ⟨hcuts, hbegins⟩ := (hcut ks rest cut).mpr ⟨rfl, rfl, rfl⟩
  obtain ⟨hline, hreason⟩ := SyntaxFault.mk.inj hfault
  exact ⟨ks, rest, cut, hcuts, hbegins, by omega, hreason.symm⟩

end Structure

end ImportTree
