import ImportTree.Proofs.Markup.Search
import ImportTree.Proofs.Script.Written

/-!
# Masking well-formed scripts

The reader of pieces keeps one character in mind, the last solid one. In a well-formed script that is enough to read
every item for what it was written as, so its comments are blanked and nothing else.
-/

namespace ImportTree.Script

variable {c d quote : Char} {cs body rest : List Char} {before before' : Option Char}

/-! ## Bytes -/

theorem bytes_append (cs cs' : List Char) : bytes (cs ++ cs') = bytes cs ++ bytes cs' :=
  List.flatMap_append

theorem notMem_utf8EncodeChar (h : c ≠ '\n') : 0x0A ∉ String.utf8EncodeChar c := by
  have hc : c.val.toNat ≠ 10 := fun he => h (Char.ext (UInt32.toNat_inj.mp he))
  intro hmem
  obtain hmem : 10 ∈ (String.utf8EncodeChar c).map UInt8.toNat := List.mem_map.mpr ⟨_, hmem, rfl⟩
  simp only [String.utf8EncodeChar] at hmem
  repeat' split at hmem
  all_goals
    simp only [List.map_cons, List.map_nil, List.mem_cons, List.not_mem_nil, or_false, UInt8.toNat_ofNat'] at hmem
    omega

theorem bytes_blankOut (c : Char) : bytes (blankOut c) = (String.utf8EncodeChar c).map blankByte := by
  by_cases hc : c = '\n'
  · subst hc
    decide
  · have hblank : ∀ b ∈ String.utf8EncodeChar c, blankByte b = 0x20 := by
      intro b hb
      refine if_neg ?_
      rintro rfl
      exact notMem_utf8EncodeChar hc hb
    rw [List.map_congr_left hblank, List.map_const', String.length_utf8EncodeChar, blankOut, if_neg hc]
    induction c.utf8Size with
    | zero => rfl
    | succ n ih => rw [List.replicate_succ, List.replicate_succ, ← ih]; rfl

/-- Characters are blanked byte by byte. -/
theorem bytes_flatMap_blankOut (cs : List Char) : bytes (cs.flatMap blankOut) = (bytes cs).map blankByte := by
  induction cs with
  | nil => rfl
  | cons c cs ih =>
      rw [List.flatMap_cons, bytes_append, ih, bytes_blankOut, ← List.map_append]
      rfl

namespace Piece

/-! ## Quoted literals -/

theorem cutQuote?_quote {oneLine : Bool} (hquote : quote ≠ '\\') (rest : List Char) :
    cutQuote? quote oneLine (quote :: rest) = some ([], rest) := by
  cases rest <;> simp [cutQuote?, hquote]

theorem cutQuote?_escape {oneLine : Bool} (h : cutQuote? quote oneLine cs = some (body, rest)) (c : Char) :
    cutQuote? quote oneLine ('\\' :: c :: cs) = some ('\\' :: c :: body, rest) := by
  simp [cutQuote?, h]

theorem cutQuote?_plain {oneLine : Bool} (h : cutQuote? quote oneLine cs = some (body, rest)) (hescape : c ≠ '\\')
    (hquote : c ≠ quote) (hline : oneLine = true → c ≠ '\n') :
    cutQuote? quote oneLine (c :: cs) = some (c :: body, rest) := by
  cases cs with
  | nil => cases h
  | cons d cs =>
      have hopen : ¬(oneLine = true ∧ c = '\n') := fun hl => hline hl.1 hl.2
      rw [cutQuote?, if_neg hescape, if_neg hquote, if_neg hopen, h]

theorem cutQuote?_escaped {oneLine : Bool} {plain : Char → Prop} (hquote : quote ≠ '\\')
    (hplain : ∀ c, plain c → c ≠ quote ∧ (oneLine = true → c ≠ '\n')) (h : Escaped plain body) (rest : List Char) :
    cutQuote? quote oneLine (body ++ quote :: rest) = some (body, rest) := by
  induction h with
  | nil => exact cutQuote?_quote hquote rest
  | plain hescape hc _ ih => exact cutQuote?_plain ih hescape (hplain _ hc).1 (hplain _ hc).2
  | escape _ ih => exact cutQuote?_escape ih _

/-! ## Regular expressions -/

theorem cutRegex?_slash (rest : List Char) : cutRegex? false ('/' :: rest) = some ([], rest) := by
  cases rest <;> simp [cutRegex?]

theorem cutRegex?_escape {inClass : Bool} (h : cutRegex? inClass cs = some (body, rest)) (c : Char) :
    cutRegex? inClass ('\\' :: c :: cs) = some ('\\' :: c :: body, rest) := by
  simp [cutRegex?, h]

theorem cutRegex?_plain {inClass : Bool}
    (h : cutRegex? (if c = '[' then true else if c = ']' then false else inClass) cs = some (body, rest))
    (hline : c ≠ '\n') (hescape : c ≠ '\\') (hslash : c = '/' → inClass = true) :
    cutRegex? inClass (c :: cs) = some (c :: body, rest) := by
  cases cs with
  | nil => cases h
  | cons d cs =>
      have hopen : ¬(c = '/' ∧ (!inClass) = true) := by simpa using hslash
      rw [cutRegex?, if_neg hline, if_neg hescape, if_neg hopen, h]

theorem cutRegex?_class {inner : List Char} (h : Escaped (· ≠ ']') inner) (hline : '\n' ∉ inner)
    (hrest : cutRegex? false cs = some (body, rest)) :
    cutRegex? true (inner ++ ']' :: cs) = some (inner ++ ']' :: body, rest) := by
  induction h with
  | nil => exact cutRegex?_plain hrest (by decide) (by decide) (by decide)
  | @plain c inner hescape hc _ ih =>
      obtain ⟨hc', hline⟩ := not_or.mp (List.mem_cons.not.mp hline)
      refine cutRegex?_plain ?_ (Ne.symm hc') hescape fun _ => rfl
      simpa [hc] using ih hline
  | escape _ ih =>
      exact cutRegex?_escape (ih fun h => hline (List.mem_cons_of_mem _ (List.mem_cons_of_mem _ h))) _

theorem cutRegex?_body (h : RegexBody body) (hline : '\n' ∉ body) (rest : List Char) :
    cutRegex? false (body ++ '/' :: rest) = some (body, rest) := by
  induction h with
  | nil => exact cutRegex?_slash rest
  | @plain c cs hc _ ih =>
      obtain ⟨hc', hline⟩ := not_or.mp (List.mem_cons.not.mp hline)
      simp only [List.mem_cons, List.not_mem_nil, or_false, not_or] at hc
      refine cutRegex?_plain ?_ (Ne.symm hc') hc.1 fun hslash => absurd hslash hc.2.1
      simpa [hc.2.2] using ih hline
  | escape _ ih =>
      exact cutRegex?_escape (ih fun h => hline (List.mem_cons_of_mem _ (List.mem_cons_of_mem _ h))) _
  | @charClass inner cs hinner _ ih =>
      have hlines : '\n' ∉ inner ∧ '\n' ∉ cs := by simpa using hline
      have hclass := cutRegex?_class hinner hlines.1 (ih hlines.2)
      have hopen : cutRegex? false ('[' :: _) = some (_, rest) :=
        cutRegex?_plain hclass (by decide) (by decide) (by decide)
      simpa using hopen

/-! ## Reading a piece -/

theorem regexMayFollow_iff : regexMayFollow before = true ↔ RegexPlace before := by
  cases before <;> simp [regexMayFollow, RegexPlace]

theorem readAll_cons {p : Piece} (h : read before c cs = .ok (p, rest)) : readAll before (c :: cs) =
    (p :: (readAll (p.significant? before) rest).1, (readAll (p.significant? before) rest).2) := by
  rw [readAll]
  split
  next p' rest' h' =>
    cases h.symm.trans h'
    rfl
  next cut h' => cases h.symm.trans h'

theorem readAll_cut {cut : Unterminated} (h : read before c cs = .error cut) :
    readAll before (c :: cs) = ([], some cut) := by
  rw [readAll]
  split
  next h' => cases h.symm.trans h'
  next h' =>
    cases h.symm.trans h'
    rfl

/-- Of what stands before a text, only this counts: whether a regular expression may stand behind it. -/
theorem readAll_congr (h : RegexPlace before ↔ RegexPlace before') (cs : List Char) :
    readAll before cs = readAll before' cs := by
  have hmay {b b' : Option Char} (h : RegexPlace b ↔ RegexPlace b') : regexMayFollow b = regexMayFollow b' := by
    rw [Bool.eq_iff_iff, regexMayFollow_iff, regexMayFollow_iff, h]
  have hread {b b' : Option Char} (h : RegexPlace b ↔ RegexPlace b') (c : Char) (cs : List Char) :
      read b c cs = read b' c cs := by
    simp only [read, readSlash, hmay h]
  induction before, cs using readAll.induct generalizing before' with
  | case1 => rw [readAll, readAll]
  | case2 before c cs p rest hp ih =>
      have hsignificant : RegexPlace (p.significant? before) ↔ RegexPlace (p.significant? before') := by
        cases p <;> first | exact h | exact Iff.rfl
      rw [readAll_cons hp, readAll_cons ((hread h c cs).symm.trans hp), ih hsignificant]
  | case3 before c cs cut hp => rw [readAll_cut hp, readAll_cut ((hread h c cs).symm.trans hp)]

theorem read_blank (h : Text.isAsciiBlank c = true) (cs : List Char) : read before c cs = .ok (.blank c, cs) := by
  simp only [Text.isAsciiBlank, Bool.or_eq_true, beq_iff_eq, or_assoc] at h
  rcases h with rfl | rfl | rfl | rfl | rfl <;> rfl

theorem read_opening (bracket : Bracket) (cs : List Char) :
    read before bracket.opener cs = .ok (.opening bracket, cs) := by
  cases bracket <;> rfl

theorem read_closing (bracket : Bracket) (cs : List Char) :
    read before bracket.closer cs = .ok (.closing bracket, cs) := by
  cases bracket <;> rfl

theorem read_other (hblank : Text.isAsciiBlank c = false)
    (h : c ∉ ['\'', '"', '`', '/', '(', ')', '[', ']', '\x7b', '\x7d']) (cs : List Char) :
    read before c cs = .ok (.other c, cs) := by
  have hopened : opened? c = none := by
    refine List.find?_eq_none.mpr fun b _ hb => ?_
    have hc : c = b.opener := (beq_iff_eq.mp hb).symm
    cases b <;> simp [hc, Bracket.opener] at h
  have hclosed : closed? c = none := by
    refine List.find?_eq_none.mpr fun b _ hb => ?_
    have hc : c = b.closer := (beq_iff_eq.mp hb).symm
    cases b <;> simp [hc, Bracket.closer] at h
  simp only [List.mem_cons, List.not_mem_nil, or_false, not_or] at h
  simp [read, h, hblank, hopened, hclosed]

theorem read_lineComment (h : '\n' ∉ body) (hrest : ∀ c ∈ rest.head?, c = '\n') :
    read before '/' ('/' :: (body ++ rest)) = .ok (.lineComment body, rest) := by
  have hbody : ∀ c ∈ body, (c != '\n') = true := fun c hc => bne_iff_ne.mpr fun he => h (he ▸ hc)
  have hstop : ∀ c ∈ rest.head?, (c != '\n') = false := fun c hc => by simp [hrest c hc]
  simp [read, readSlash, takeWhile_run hbody hstop, dropWhile_run hbody hstop]

theorem read_blockComment (h : ¬['*', '/'] <:+: body) (rest : List Char) :
    read before '/' ('*' :: (body ++ (['*', '/'] ++ rest))) = .ok (.blockComment body, rest) := by
  rw [read, if_pos rfl, readSlash, Text.cutAround?_first (by decide) h]

theorem read_string (hquote : quote = '\'' ∨ quote = '"') (h : Escaped (fun c => c ≠ quote ∧ c ≠ '\n') body)
    (rest : List Char) : read before quote (body ++ quote :: rest) = .ok (.string quote body, rest) := by
  have hescape : quote ≠ '\\' ∧ quote ≠ '/' := by
    rcases hquote with rfl | rfl <;> decide
  have hcut : cutQuote? quote true (body ++ quote :: rest) = some (body, rest) :=
    cutQuote?_escaped hescape.1 (fun c hc => ⟨hc.1, fun _ => hc.2⟩) h rest
  rw [read, if_neg hescape.2, if_pos hquote, hcut]

theorem read_template (h : Escaped (· ≠ '`') body) (rest : List Char) :
    read before '`' (body ++ '`' :: rest) = .ok (.template body, rest) := by
  have hplain (c : Char) (hc : c ≠ '`') : c ≠ '`' ∧ (false = true → c ≠ '\n') := ⟨hc, fun h => nomatch h⟩
  have hcut := cutQuote?_escaped (by decide) hplain h rest
  rw [read, if_neg (by decide), if_neg (by decide), if_pos rfl, hcut]

/-- A slash that begins no comment. -/
theorem readSlash_eq (h : ∀ c ∈ cs.head?, c ≠ '/' ∧ c ≠ '*') : readSlash before cs =
    match if regexMayFollow before then cutRegex? false cs else none with
    | some (body, rest) => .ok (.regex body (rest.takeWhile Char.isAlpha), rest.dropWhile Char.isAlpha)
    | none => .ok (.other '/', cs) := by
  cases cs with
  | nil => rfl
  | cons c cs =>
      obtain ⟨hslash, hstar⟩ := h c rfl
      unfold readSlash
      split
      next he => exact absurd (List.cons.inj he).1 hslash
      next he => exact absurd (List.cons.inj he).1 hstar
      next => rfl

theorem read_slash (hbefore : ¬RegexPlace before) (h : ∀ c ∈ cs.head?, c ≠ '/' ∧ c ≠ '*') :
    read before '/' cs = .ok (.other '/', cs) := by
  rw [read, if_pos rfl, readSlash_eq h, if_neg (regexMayFollow_iff.not.mpr hbefore)]

/-- A regular expression takes the letters behind it as its flags. -/
theorem read_regex (hbefore : RegexPlace before) (filled : body ≠ []) (start : ∀ c ∈ body.head?, c ≠ '/' ∧ c ≠ '*')
    (oneLine : '\n' ∉ body) (h : RegexBody body) (rest : List Char) : read before '/' (body ++ '/' :: rest) =
      .ok (.regex body (rest.takeWhile Char.isAlpha), rest.dropWhile Char.isAlpha) := by
  have hhead : ∀ c ∈ (body ++ '/' :: rest).head?, c ≠ '/' ∧ c ≠ '*' := by
    rwa [List.head?_append_of_ne_nil _ filled]
  rw [read, if_pos rfl, readSlash_eq hhead, if_pos (regexMayFollow_iff.mpr hbefore), cutRegex?_body h oneLine]

end Piece

/-! ## Outlines -/

/-- What counts of a text that is cut into pieces. -/
structure Outline where
  masked : List Char
  marks : List Mark
  cut? : Option Unterminated

def outline (before : Option Char) (cs : List Char) : Outline where
  masked := (Piece.readAll before cs).1.flatMap Piece.masked
  marks := marks (Piece.readAll before cs).1
  cut? := (Piece.readAll before cs).2

/-- The outline of a text with one more item in front of it. -/
def Outline.behind (o : Outline) (masked : List Char) (mark? : Option Mark) : Outline :=
  { o with masked := masked ++ o.masked, marks := mark?.toList ++ o.marks }

theorem Outline.behind_behind (o : Outline) (m m' : List Char) :
    (o.behind m' none).behind m none = o.behind (m ++ m') none := by
  simp [behind]

theorem outline_cons {p : Piece} (h : Piece.read before c cs = .ok (p, rest)) :
    outline before (c :: cs) = (outline (p.significant? before) rest).behind p.masked p.mark? := by
  rw [outline, Piece.readAll_cons h]
  cases hmark : p.mark? <;> simp [outline, Outline.behind, marks, hmark]

theorem outline_congr (h : RegexPlace before ↔ RegexPlace before') (cs : List Char) :
    outline before cs = outline before' cs := by
  rw [outline, Piece.readAll_congr h, outline]

theorem outline_blanks {run : List Char} (h : ∀ c ∈ run, Text.isAsciiBlank c = true) (rest : List Char) :
    outline before (run ++ rest) = (outline before rest).behind run none := by
  induction run with
  | nil => rfl
  | cons c run ih =>
      rw [List.cons_append, outline_cons (Piece.read_blank (h c (List.mem_cons_self ..)) _)]
      exact (congrArg (Outline.behind · [c] none) (ih fun d hd => h d (List.mem_cons_of_mem _ hd))).trans
        (Outline.behind_behind ..)

theorem outline_others {run : List Char}
    (h : ∀ c ∈ run, Text.isAsciiBlank c = false ∧ c ∉ ['\'', '"', '`', '/', '(', ')', '[', ']', '\x7b', '\x7d'])
    (rest : List Char) : outline before (run ++ rest) = (outline (run.getLast?.or before) rest).behind run none := by
  induction run generalizing before with
  | nil => rfl
  | cons c run ih =>
      have hc := h c (List.mem_cons_self ..)
      have hrun := @ih (some c) fun d hd => h d (List.mem_cons_of_mem _ hd)
      rw [List.cons_append, outline_cons (Piece.read_other hc.1 hc.2 _), getLast?_cons_or]
      exact (congrArg (Outline.behind · [c] none) hrun).trans (Outline.behind_behind ..)

theorem not_regexPlace_of_alpha (h : c.isAlpha = true) : ¬RegexPlace (some c) := by
  intro hc
  simp only [RegexPlace, List.mem_cons, List.not_mem_nil, or_false] at hc
  rcases hc with rfl | rfl | rfl | rfl | rfl | rfl | rfl | rfl | rfl | rfl | rfl | rfl <;> exact absurd h (by decide)

theorem not_regexPlace_letters {letters : List Char} (h : ∀ c ∈ letters, c.isAlpha = true)
    (hbefore : ¬RegexPlace before) : ¬RegexPlace (letters.getLast?.or before) := by
  cases hlast : letters.getLast? with
  | none => exact hbefore
  | some c => exact not_regexPlace_of_alpha (h c (List.mem_of_getLast? hlast))

theorem alpha_other (h : c.isAlpha = true) :
    Text.isAsciiBlank c = false ∧ c ∉ ['\'', '"', '`', '/', '(', ')', '[', ']', '\x7b', '\x7d'] := by
  constructor
  · by_contra hblank
    simp only [Bool.not_eq_false, Text.isAsciiBlank, Bool.or_eq_true, beq_iff_eq, or_assoc] at hblank
    rcases hblank with rfl | rfl | rfl | rfl | rfl <;> exact absurd h (by decide)
  · intro hc
    simp only [List.mem_cons, List.not_mem_nil, or_false] at hc
    rcases hc with rfl | rfl | rfl | rfl | rfl | rfl | rfl | rfl | rfl | rfl <;> exact absurd h (by decide)

theorem outline_quoted {quote : Char} {body : List Char} {p : Piece}
    (h : Piece.read before quote (body ++ quote :: rest) = .ok (p, rest)) (hsolid : p.significant? before = some quote)
    (hmasked : p.masked = quote :: (body ++ [quote])) (hmark : p.mark? = none) :
    outline before (quote :: (body ++ [quote]) ++ rest) =
      (outline ((quote :: (body ++ [quote])).getLast?.or before) rest).behind (quote :: (body ++ [quote])) none := by
  have hwritten : quote :: (body ++ [quote]) ++ rest = quote :: (body ++ quote :: rest) := by simp
  have hlast : (quote :: (body ++ [quote])).getLast?.or before = some quote := by simp [List.getLast?_cons]
  rw [hwritten, outline_cons h, hsolid, hmasked, hmark, hlast]

/-- Letters behind the flags of a regular expression are read as flags too. They are as solid as the slash, so nothing
behind them differs. -/
theorem outline_regex {body flags : List Char} (h : RegexPlace before) (filled : body ≠ [])
    (start : ∀ c ∈ body.head?, c ≠ '/' ∧ c ≠ '*') (oneLine : '\n' ∉ body) (hbody : RegexBody body)
    (hflags : ∀ c ∈ flags, c.isAlpha = true) (rest : List Char) :
    outline before ('/' :: (body ++ '/' :: flags) ++ rest) =
      (outline (('/' :: (body ++ '/' :: flags)).getLast?.or before) rest).behind ('/' :: (body ++ '/' :: flags))
        none := by
  have hread := outline_cons (Piece.read_regex h filled start oneLine hbody (flags ++ rest))
  rw [List.takeWhile_append_of_pos hflags, List.dropWhile_append_of_pos hflags] at hread
  have hwritten : '/' :: (body ++ '/' :: flags) ++ rest = '/' :: (body ++ '/' :: (flags ++ rest)) := by simp
  have hlast : ('/' :: (body ++ '/' :: flags)).getLast?.or before = flags.getLast?.or (some '/') := by
    rw [← List.cons_append, List.getLast?_append_of_ne_nil _ (by simp), getLast?_cons_or]
  have hslash : ¬RegexPlace (some '/') := by simp [RegexPlace]
  have hletters : ∀ c ∈ rest.takeWhile Char.isAlpha, c.isAlpha = true := List.all_eq_true.mp List.all_takeWhile
  have hplace := not_regexPlace_letters hflags hslash
  have hsolid (cs : List Char) :
      outline ((rest.takeWhile Char.isAlpha).getLast?.or (flags.getLast?.or (some '/'))) cs = outline (some '/') cs :=
    outline_congr (iff_of_false (not_regexPlace_letters hletters hplace) hslash) cs
  have hrest : outline (flags.getLast?.or (some '/'))
      (rest.takeWhile Char.isAlpha ++ rest.dropWhile Char.isAlpha) = _ :=
    outline_others (fun c hc => alpha_other (hletters c hc)) _
  rw [List.takeWhile_append_dropWhile, hsolid] at hrest
  have hmasked : Piece.masked (.regex body (flags ++ rest.takeWhile Char.isAlpha)) =
      '/' :: (body ++ '/' :: flags) ++ rest.takeWhile Char.isAlpha := by
    simp [Piece.masked, Piece.written]
  rw [hwritten, hread, hlast, hrest, hmasked]
  exact (Outline.behind_behind ..).symm

/-! ## Items -/

/-- The text of an item, with that of a comment blanked. -/
def Item.masked (item : Item) : List Char :=
  if item.isComment then item.written.flatMap blankOut else item.written

theorem Item.bytes_masked (item : Item) : bytes item.masked = item.maskedBytes := by
  unfold masked maskedBytes
  split
  · exact bytes_flatMap_blankOut _
  · rfl

/-- Where an item may stand, it is read for what it is, and what follows is read as behind its last solid character. -/
theorem outline_item (item : Item) (h : item.Fits before rest) : outline before (item.written ++ rest) =
    (outline (item.solid.getLast?.or before) rest).behind item.masked item.mark? := by
  cases item with
  | blanks run hrun => exact outline_blanks hrun rest
  | opening bracket => exact outline_cons (Piece.read_opening bracket rest)
  | closing bracket => exact outline_cons (Piece.read_closing bracket rest)
  | lineComment body hbody => exact outline_cons (Piece.read_lineComment hbody h)
  | blockComment body hbody =>
      have hread : outline before ('/' :: '*' :: (body ++ (['*', '/'] ++ rest))) = _ :=
        outline_cons (Piece.read_blockComment hbody rest)
      have hwritten : '/' :: '*' :: (body ++ ['*', '/']) ++ rest = '/' :: '*' :: (body ++ (['*', '/'] ++ rest)) := by
        simp
      have hmasked : Piece.masked (.blockComment body) = Item.masked (.blockComment body hbody) := by
        change _ = ('/' :: '*' :: (body ++ ['*', '/'])).flatMap blankOut
        rw [List.flatMap_cons, List.flatMap_cons, List.flatMap_append]
        rfl
      change outline before ('/' :: '*' :: (body ++ ['*', '/']) ++ rest) = _
      rw [hwritten, hread, hmasked]
      rfl
  | string quote body hquote hbody => exact outline_quoted (Piece.read_string hquote hbody rest) rfl rfl rfl
  | template body hbody => exact outline_quoted (Piece.read_template hbody rest) rfl rfl rfl
  | regex body flags filled start oneLine hbody hflags => exact outline_regex h filled start oneLine hbody hflags rest
  | slash => exact outline_cons (Piece.read_slash h.1 h.2)
  | others run hrun => exact outline_others hrun rest

theorem outline_items (items : List Item) (h : Placed before items) : outline before (writtenItems items) =
    ⟨items.flatMap Item.masked, items.filterMap Item.mark?, none⟩ := by
  induction items generalizing before with
  | nil => rw [writtenItems, List.flatMap_nil, outline, Piece.readAll]; rfl
  | cons item items ih =>
      obtain ⟨hitem, hitems⟩ := h
      change outline before (item.written ++ writtenItems items) = _
      rw [outline_item item hitem, ih hitems]
      cases hmark : item.mark? <;> simp [Outline.behind, hmark]

/-- A well-formed script is masked if and only if its brackets are balanced, and then its comments are blanked and
nothing else is changed. -/
theorem mask_items {items : List Item} (h : Placed none items) :
    ((∃ masked, mask (String.ofList (writtenItems items)) = .ok masked) ↔ Balanced (items.filterMap Item.mark?)) ∧
      ∀ masked, mask (String.ofList (writtenItems items)) = .ok masked →
        bytes masked = items.flatMap Item.maskedBytes := by
  have houtline := outline_items items h
  simp only [outline, Outline.mk.injEq] at houtline
  obtain ⟨hmasked, hmarks, hcut⟩ := houtline
  simp only [mask_eq_ok_iff, String.toList_ofList, hmasked, hmarks, hcut, true_and]
  refine ⟨⟨fun ⟨_, hbalanced, _⟩ => hbalanced, fun hbalanced => ⟨_, hbalanced, rfl⟩⟩, ?_⟩
  rintro masked ⟨_, rfl⟩
  rw [bytes, List.flatMap_assoc]
  exact List.flatMap_congr fun item _ => item.bytes_masked

/-- The brackets in the regular expression and in the comment do not count, nor does the quote between them. -/
theorem mask_items_of_regex :
    let regex : RegexBody ['[', '/', '\'', '(', ']'] :=
      .charClass (.plain (by decide) (by decide) (.plain (by decide) (by decide) (.plain (by decide) (by decide) .nil)))
        .nil
    let items : List Item := [.opening .round,
      .regex ['[', '/', '\'', '(', ']'] ['g'] (by decide) (by simp) (by decide) regex (by simp), .closing .round,
      .slash, .blanks ['\n'] (by simp [Text.isAsciiBlank]), .lineComment ['é', ')'] (by decide),
      .blanks ['\n'] (by simp [Text.isAsciiBlank])]
    writtenItems items = "(/[/'(]/g)/\n//é)\n".toList ∧ Placed none items ∧
      ∃ masked, mask "(/[/'(]/g)/\n//é)\n" = .ok masked ∧ bytes masked = bytes "(/[/'(]/g)/\n     \n".toList := by
  intro regex items
  have hplaced : Placed none items := by
    refine ⟨trivial, ?_, trivial, ⟨?_, ?_⟩, trivial, ?_, trivial, trivial⟩
    · exact List.mem_cons_self ..
    · simp [Item.solid, Item.isComment, Item.written, Bracket.closer, RegexPlace]
    · rintro c ⟨⟩
      decide
    · rintro c ⟨⟩
      rfl
  have hbalanced : Balanced (items.filterMap Item.mark?) := .nest .round .nil .nil
  obtain ⟨masked, hmasked⟩ := (mask_items hplaced).1.mpr hbalanced
  refine ⟨rfl, hplaced, masked, hmasked, ?_⟩
  rw [(mask_items hplaced).2 masked hmasked]
  decide

end ImportTree.Script
