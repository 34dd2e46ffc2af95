import ImportTree.Proofs.Markup.Tags
import ImportTree.Proofs.Scan.Offsets

/-!
# Attributes by offset

The attributes of a tag and the references in their values are read by offset, with searches that run ahead and jumps
behind what they find. Every part that is cut out begins and ends at an ASCII character or at the end of the text.
-/

namespace ImportTree.Scan

open Script (bytes)
open Markup

variable {P : Advance → Prop} {cs front rest name after : List Char} {c d : Char}

/-! ## References -/

def meaning (name : List Char) : Run (Option Char) :=
  if name = "amp".toList then return some '&'
  else if name = "lt".toList then return some '<'
  else if name = "gt".toList then return some '>'
  else if name = "quot".toList then return some '"'
  else if name = "apos".toList ∨ name = "#39".toList then return some '\''
  else if "#x".toList <+: name ∨ "#X".toList <+: name then do
    let digits ← slice name 2 (bytes name).length
    return (Reference.number? 16 digits).bind Reference.scalar?
  else if "#".toList <+: name then do
    let digits ← slice name 1 (bytes name).length
    return (Reference.number? 10 digits).bind Reference.scalar?
  else return none

/-- The character of the reference that a text begins with, and the offset of its semicolon. -/
def reference (rest : List Char) : Run (Option (Char × Nat)) :=
  match find? (bytes [';']) (bytes rest) with
  | none => return none
  | some semicolon => do
    let name ← slice rest 1 semicolon
    let c? ← meaning name
    return c?.map (·, semicolon)

/-- Passes over a reference and puts its character in its place, or over the ampersand alone. -/
def replace (out rest : List Char) : Option (Char × Nat) → Run (Turn (List Char × List Char) (List Char))
  | some (c, semicolon) => do
    let after ← slice rest (semicolon + 1) (bytes rest).length
    return .next (out ++ [c], after)
  | none => do
    let after ← slice rest 1 (bytes rest).length
    return .next (out ++ ['&'], after)

/-- Copies what stands before the next ampersand, and replaces the reference that begins there. -/
def decodeTurn (s : List Char × List Char) : Run (Turn (List Char × List Char) (List Char)) :=
  match find? (bytes ['&']) (bytes s.2) with
  | none => return .stop (s.1 ++ s.2)
  | some ampersand => do
    let front ← slice s.2 0 ampersand
    let rest ← slice s.2 ampersand (bytes s.2).length
    let found ← reference rest
    replace (s.1 ++ front) rest found

def decode (value : List Char) : Run (List Char) :=
  match find? (bytes ['&']) (bytes value) with
  | none => return value
  | some _ => loop (bytes value) (fun s => (bytes value).length - (bytes s.2).length) decodeTurn ([], value)

theorem ends_meaning (name : List Char) : Ends P (meaning name) (Reference.meaning? name) := by
  unfold meaning
  split
  next h => subst h; exact ends_pure _
  split
  next h => subst h; exact ends_pure _
  split
  next h => subst h; exact ends_pure _
  split
  next h => subst h; exact ends_pure _
  split
  next h => rcases h with rfl | rfl <;> exact ends_pure _
  split
  next h =>
    rcases h with ⟨digits, rfl⟩ | ⟨digits, rfl⟩ <;> exact (ends_slice_end _ digits rfl).bind (ends_pure _)
  next hhex =>
    split
    next h =>
      obtain ⟨digits, rfl⟩ := h
      have hdecimal : Reference.meaning? ('#' :: digits) = (Reference.number? 10 digits).bind Reference.scalar? := by
        rw [Reference.meaning?]
        all_goals
          rintro tail rfl
          exact hhex (by simp)
      exact (ends_slice_end ['#'] digits rfl).bind (hdecimal ▸ ends_pure _)
    next h =>
      have hnone : Reference.meaning? name = none := by
        unfold Reference.meaning?
        split <;> simp_all
      rw [hnone]
      exact ends_pure _

theorem ends_reference (cs : List Char) : ∃ found : Option (Char × Nat), Ends P (reference ('&' :: cs)) found ∧
    ((found = none ∧ Reference.read? cs = none) ∨ ∃ d name after, cs = name ++ ';' :: after ∧
      found = some (d, (bytes ('&' :: name)).length) ∧ Reference.read? cs = some (d, after)) := by
  by_cases hsemicolon : ';' ∈ cs
  · obtain ⟨name, after, rfl, hname⟩ := List.eq_append_cons_of_mem hsemicolon
    have hname' : ∀ d ∈ name, (d != ';') = true := fun d hd => bne_iff_ne.mpr fun heq => hname (heq ▸ hd)
    have hstop : ∀ d ∈ (';' :: after).head?, (d != ';') = false := by simp
    have hread : Reference.read? (name ++ ';' :: after) = (Reference.meaning? name).map (·, after) := by
      rw [Reference.read?, dropWhile_run hname' hstop, takeWhile_run hname' hstop]
      dsimp only
      cases Reference.meaning? name <;> rfl
    have hfind : find? (bytes [';']) (bytes ('&' :: (name ++ ';' :: after))) = some (bytes ('&' :: name)).length :=
      find?_char (by decide) ('&' :: name) (by simp [hname]) after
    refine ⟨(Reference.meaning? name).map (·, (bytes ('&' :: name)).length), ?_, ?_⟩
    · rw [reference, hfind]
      exact (ends_slice ['&'] name (';' :: after) rfl rfl).bind ((ends_meaning name).bind (ends_pure _))
    · rw [hread]
      cases Reference.meaning? name with
      | none => exact .inl ⟨rfl, rfl⟩
      | some d => exact .inr ⟨d, name, after, rfl, rfl, rfl⟩
  · have hread : Reference.read? cs = none := by
      rw [Reference.read?, List.dropWhile_eq_nil_iff.mpr]
      exact fun d hd => bne_iff_ne.mpr fun heq => hsemicolon (heq ▸ hd)
    refine ⟨none, ?_, .inl ⟨rfl, hread⟩⟩
    rw [reference, find?_char_none (by decide) (by simp [hsemicolon])]
    exact ends_pure _

theorem decode_front (hfront : '&' ∉ front) (cs : List Char) :
    Reference.decode (front ++ cs) = front ++ Reference.decode cs := by
  induction front with
  | nil => rfl
  | cons c front ih =>
      obtain ⟨hc, hfront⟩ := not_or.mp (List.mem_cons.not.mp hfront)
      rw [List.cons_append, Reference.decode_plain (Ne.symm hc), ih hfront, List.cons_append]

/-- The text that a turn leaves is what stands behind an ampersand or behind a whole reference. -/
theorem ends_decodeTurn (hfront : '&' ∉ front) (out cs : List Char) : ∃ done rest, '&' :: cs = done ++ rest ∧
    done ≠ [] ∧ ∃ c, Ends P (decodeTurn (out, front ++ '&' :: cs)) (.next (out ++ front ++ [c], rest)) ∧
      Reference.decode ('&' :: cs) = c :: Reference.decode rest := by
  have hfind := find?_char (d := '&') (by decide) front hfront cs
  obtain ⟨found, hfound, hread⟩ := ends_reference (P := P) cs
  have hturn {t : Turn (List Char × List Char) (List Char)}
      (h : Ends P (replace (out ++ front) ('&' :: cs) found) t) : Ends P (decodeTurn (out, front ++ '&' :: cs)) t := by
    rw [decodeTurn, hfind]
    exact (ends_slice [] front _ rfl rfl).bind ((ends_slice_end front _ rfl).bind (hfound.bind h))
  rcases hread with ⟨rfl, hread⟩ | ⟨d, name, after, rfl, rfl, hread⟩
  · refine ⟨['&'], cs, rfl, by simp, '&', hturn ?_, ?_⟩
    · exact (ends_slice_end ['&'] cs rfl).bind (ends_pure _)
    · rw [Reference.decode, if_pos rfl]
      split
      next h => cases hread.symm.trans h
      next => rfl
  · refine ⟨'&' :: (name ++ [';']), after, by simp, by simp, d, hturn ?_, ?_⟩
    · have hsplit : '&' :: (name ++ ';' :: after) = '&' :: (name ++ [';']) ++ after := by simp
      have hlength : (bytes ('&' :: name)).length + 1 = (bytes ('&' :: (name ++ [';']))).length :=
        (length_append_singleton (by decide) ('&' :: name)).symm
      rw [hsplit]
      exact (ends_slice_end _ after hlength).bind (ends_pure _)
    · rw [Reference.decode, if_pos rfl]
      split
      next h =>
        cases hread.symm.trans h
        rfl
      next h => cases hread.symm.trans h

theorem decode_plain (h : '&' ∉ cs) : Reference.decode cs = cs := by
  have hdecode := decode_front h []
  rwa [List.append_nil, Reference.decode, List.append_nil] at hdecode

/-- What is expected where the rest of a value is left: what is done already, and the rest decoded. -/
def Decoding (value : List Char) (s : List Char × List Char) (a : List Char) : Prop :=
  ∃ done, value = done ++ s.2 ∧ a = s.1 ++ Reference.decode s.2

theorem leads_decodeTurn {value done out : List Char} (hvalue : value = done ++ cs) :
    Leads Advance.Inside (bytes value) (fun s => (bytes value).length - (bytes s.2).length) decodeTurn
      (Decoding value) (out, cs) (out ++ Reference.decode cs) := by
  by_cases hampersand : '&' ∈ cs
  · obtain ⟨front, behind, rfl, hfront⟩ := List.eq_append_cons_of_mem hampersand
    obtain ⟨read, rest, hsplit, hread, c, hturn, hdecode⟩ := ends_decodeTurn (P := Advance.Inside) hfront out behind
    refine .next hturn ⟨?_, Nat.sub_le ..⟩ ⟨done ++ (front ++ read), ?_, ?_⟩
    · have hpos := List.length_pos_iff.mpr (Script.bytes_ne_nil hread)
      simp only [hvalue, hsplit, length_bytes_append]
      omega
    · rw [hvalue, hsplit]
      simp
    · rw [decode_front hfront, hdecode]
      simp
  · refine .stop ?_
    rw [decodeTurn, find?_char_none (by decide) hampersand, decode_plain hampersand]
    exact ends_pure _

theorem ends_decode (value : List Char) : Ends Advance.Inside (decode value) (Reference.decode value) := by
  rw [decode]
  split
  next hfind =>
    have hampersand : '&' ∉ value := fun hmem => by
      obtain ⟨front, behind, rfl, hfront⟩ := List.eq_append_cons_of_mem hmem
      rw [find?_char (by decide) front hfront] at hfind
      cases hfind
    rw [decode_plain hampersand]
    exact ends_pure _
  next =>
    refine ends_loop (Decoding value) forward_inside (fun s a h => ?_) ⟨[], rfl, rfl⟩
    obtain ⟨done, hvalue, rfl⟩ := h
    exact leads_decodeTurn hvalue

/-! ## Attributes -/

def isGapByte (b : UInt8) : Bool :=
  Script.Bytewise.isBlank b || b == '/'.toUInt8

def isNameByte (b : UInt8) : Bool :=
  !Script.Bytewise.isBlank b && !(['=', '>', '/', '"', '\''].map Char.toUInt8).contains b

def standsAt (bs : List UInt8) (byte : UInt8) (pos : Nat) : Run Bool :=
  if pos < bs.length then do
    let b ← byteAt bs pos
    return b == byte
  else return false

/-- The value that begins at an offset, and the offset behind it. -/
def attributeValue (input : List Char) (pos : Nat) : Run (List Char × Nat) :=
  match (bytes input)[pos]? with
  | none => return ([], pos)
  | some quote =>
    if quote = '"'.toUInt8 ∨ quote = '\''.toUInt8 then do
      let tail ← between (bytes input) (pos + 1) (bytes input).length
      let last := match find? [quote] tail with
        | some offset => pos + 1 + offset
        | none => (bytes input).length
      let value ← slice input (pos + 1) last
      return (value, min (last + 1) (bytes input).length)
    else do
      let last ← skipWhile (bytes input) (!Script.Bytewise.isBlank ·) pos
      let value ← slice input pos last
      return (value, last)

/-- Passes over what stands behind a name and its blanks: a value, if there is an equals sign. -/
def assignmentTurn (input name : List Char) (pos : Nat) (found : List (String × String)) :
    Run (Turn (Nat × List (String × String)) (List (String × String))) := do
  let equals ← standsAt (bytes input) '='.toUInt8 pos
  if equals then do
    let first ← skipWhile (bytes input) Script.Bytewise.isBlank (pos + 1)
    let (value, behind) ← attributeValue input first
    let decoded ← decode value
    return .next (behind, found ++ [(String.ofList (Text.lower name), String.ofList decoded)])
  else return .next (pos, found ++ [(String.ofList (Text.lower name), "")])

/-- Passes over an attribute, or over a character that begins none. -/
def attributeTurn (input : List Char) (first : Nat) (found : List (String × String)) :
    Run (Turn (Nat × List (String × String)) (List (String × String))) := do
  let last ← skipWhile (bytes input) isNameByte first
  if last = first then return .next (last + 1, found)
  else do
    let name ← slice input first last
    let pos ← skipWhile (bytes input) Script.Bytewise.isBlank last
    assignmentTurn input name pos found

/-- Passes over a gap, and then over what stands behind it. -/
def attributesTurn (input : List Char) (s : Nat × List (String × String)) :
    Run (Turn (Nat × List (String × String)) (List (String × String))) :=
  if s.1 < (bytes input).length then do
    let first ← skipWhile (bytes input) isGapByte s.1
    if (bytes input).length ≤ first then return .leave (first, s.2) s.2 else attributeTurn input first s.2
  else return .stop s.2

def attributes (input : List Char) : Run (List (String × String)) :=
  loop (bytes input) Prod.fst (attributesTurn input) (0, [])

theorem gap_utf8EncodeChar (c : Char) (b : UInt8) (hb : b ∈ String.utf8EncodeChar c) :
    isGapByte b = (Text.isAsciiBlank c || c == '/') := by
  refine forall_mem_utf8EncodeChar (p := isGapByte) (P := fun c => Text.isAsciiBlank c || c == '/') false
    (by decide +kernel) (forall_byte (by decide +kernel)) (fun c hc => ?_) c b hb
  have hslash : c ∉ ['/'] := Script.Bytewise.notMem_of_high hc (by decide)
  simpa [not_blank_of_high hc] using hslash

theorem name_utf8EncodeChar (c : Char) (b : UInt8) (hb : b ∈ String.utf8EncodeChar c) :
    isNameByte b = Attribute.isNameChar c := by
  refine forall_mem_utf8EncodeChar (p := isNameByte) true (by decide +kernel) (forall_byte (by decide +kernel))
    (fun c hc => ?_) c b hb
  have hmark : c ∉ ['=', '>', '/', '"', '\''] := Script.Bytewise.notMem_of_high hc (by decide)
  simpa [Attribute.isNameChar, not_blank_of_high hc, and_assoc] using hmark

section Values

variable {input : List Char}

theorem ends_attributeValue_quote {quote : Char} {text : List Char} {last : Nat} (hquote : quote = '"' ∨ quote = '\'')
    (hinput : input = front ++ quote :: cs) (hlast : (match find? (bytes [quote]) (bytes cs) with
      | some offset => (bytes front).length + 1 + offset
      | none => (bytes input).length) = last)
    (htext : Ends P (slice input ((bytes front).length + 1) last) text) :
    Ends P (attributeValue input (bytes front).length) (text, min (last + 1) (bytes input).length) := by
  have hascii : quote.toNat < 0x80 := by rcases hquote with rfl | rfl <;> decide
  have hbyte : (bytes input)[(bytes front).length]? = some quote.toUInt8 := by
    rw [hinput, getElem?_bytes, Script.bytes_cons_ascii hascii]
    rfl
  have hbranch : quote.toUInt8 = '"'.toUInt8 ∨ quote.toUInt8 = '\''.toUInt8 := hquote.imp (congrArg _) (congrArg _)
  have htail : Ends P (between (bytes input) ((bytes front).length + 1) (bytes input).length) (bytes cs) := by
    rw [hinput, List.append_cons, ← length_append_singleton hascii]
    exact ends_behind _ _
  have hquote' : bytes [quote] = [quote.toUInt8] := Script.bytes_cons_ascii hascii []
  rw [hquote'] at hlast
  subst hlast
  unfold attributeValue
  rw [hbyte]
  dsimp only
  rw [if_pos hbranch]
  exact htail.bind (htext.bind (ends_pure _))

theorem ends_quoted_closed {quote : Char} {text rest : List Char} (hquote : quote = '"' ∨ quote = '\'')
    (hinput : input = front ++ quote :: (text ++ quote :: rest)) (htext : quote ∉ text) :
    Ends P (attributeValue input (bytes front).length)
      (text, (bytes (front ++ (quote :: text ++ [quote]))).length) := by
  have hascii : quote.toNat < 0x80 := by rcases hquote with rfl | rfl <;> decide
  have hfirst := (length_append_singleton hascii front).symm
  have hlast : (bytes front).length + 1 + (bytes text).length = (bytes (front ++ [quote] ++ text)).length := by
    rw [hfirst, length_bytes_append (front ++ [quote])]
  have hbehind : min ((bytes (front ++ [quote] ++ text)).length + 1) (bytes input).length =
      (bytes (front ++ (quote :: text ++ [quote]))).length := by
    have hsplit : front ++ (quote :: text ++ [quote]) = front ++ [quote] ++ text ++ [quote] := by simp
    have hinput' : input = front ++ [quote] ++ text ++ [quote] ++ rest := by simp [hinput]
    rw [← length_append_singleton hascii, hsplit, hinput', length_bytes_append _ rest]
    exact Nat.min_eq_left (Nat.le_add_right ..)
  have hslice := ends_slice (P := P) (front ++ [quote]) text (quote :: rest) hfirst rfl
  rw [List.append_assoc, List.singleton_append, ← hinput] at hslice
  rw [← hbehind]
  refine ends_attributeValue_quote hquote hinput ?_ hslice
  rw [find?_char hascii text htext rest]
  exact hlast

/-- Without a second quote a value goes up to the end of the text. -/
theorem ends_quoted_open {quote : Char} (hquote : quote = '"' ∨ quote = '\'')
    (hinput : input = front ++ quote :: cs) (hcs : quote ∉ cs) :
    Ends P (attributeValue input (bytes front).length) (cs, (bytes input).length) := by
  have hascii : quote.toNat < 0x80 := by rcases hquote with rfl | rfl <;> decide
  have hslice := ends_slice_end (P := P) (front ++ [quote]) cs (length_append_singleton hascii front).symm
  rw [List.append_assoc, List.singleton_append, ← hinput] at hslice
  have hvalue := ends_attributeValue_quote hquote hinput (by rw [find?_char_none hascii hcs]) hslice
  rwa [Nat.min_eq_right (Nat.le_succ _)] at hvalue

theorem ends_quoted {quote : Char} (hquote : quote = '"' ∨ quote = '\'') (hinput : input = front ++ quote :: cs) :
    ∃ text, Ends P (attributeValue input (bytes front).length)
      (text, (bytes (front ++ (Attribute.readValue (quote :: cs)).1.written)).length) ∧
        (Attribute.readValue (quote :: cs)).1.decoded = Reference.decode text := by
  by_cases hclosed : quote ∈ cs
  · obtain ⟨text, rest, rfl, htext⟩ := List.eq_append_cons_of_mem hclosed
    rw [Attribute.readValue_quoted hquote htext]
    exact ⟨text, ends_quoted_closed hquote hinput htext, rfl⟩
  · have hcs : ∀ d ∈ cs, (d != quote) = true := fun d hd => bne_iff_ne.mpr fun heq => hclosed (heq ▸ hd)
    have hread : Attribute.readValue (quote :: cs) = (.quoted quote cs false, []) := by
      simp only [Attribute.readValue, if_pos hquote, List.dropWhile_eq_nil_iff.mpr hcs,
        List.takeWhile_eq_self_iff.mpr hcs]
    have hend : input = front ++ (Attribute.Value.quoted quote cs false).written := by
      rw [hinput, Attribute.Value.written]
      simp
    rw [hread, ← hend]
    exact ⟨cs, ends_quoted_open hquote hinput hclosed, rfl⟩

theorem ends_attributeValue (hinput : input = front ++ cs) (hcs : ∀ c ∈ cs.head?, Text.isAsciiBlank c = false) :
    ∃ text, Ends Advance.Inside (attributeValue input (bytes front).length)
      (text, (bytes (front ++ (Attribute.readValue cs).1.written)).length) ∧
        (Attribute.readValue cs).1.decoded = Reference.decode text := by
  cases cs with
  | nil =>
      refine ⟨[], ?_, by rw [Reference.decode]; rfl⟩
      have hend : (bytes input)[(bytes front).length]? = none := by
        rw [hinput, getElem?_bytes]
        rfl
      rw [attributeValue, hend, Attribute.readValue, Attribute.Value.written, List.append_nil]
      exact ends_pure _
  | cons c cs =>
      by_cases hquote : c = '"' ∨ c = '\''
      · exact ends_quoted hquote hinput
      · obtain ⟨b, hbyte, hb⟩ := exists_getElem?_bytes front c cs
        have hbranch : ¬(b = '"'.toUInt8 ∨ b = '\''.toUInt8) := by
          rwa [hb '"' (by decide), hb '\'' (by decide)]
        have hblank : ∀ c, ∀ b ∈ String.utf8EncodeChar c,
            (!Script.Bytewise.isBlank b) = !Text.isAsciiBlank c := fun c b hb => by rw [blank_utf8EncodeChar c b hb]
        obtain ⟨text, rest, hsplit, htext, hrest⟩ := exists_run (!Text.isAsciiBlank ·) (c :: cs)
        have hread : Attribute.readValue (c :: cs) = (.bare text, rest) := by
          rw [Attribute.readValue, if_neg hquote, hsplit, takeWhile_run htext hrest, dropWhile_run htext hrest]
        rw [hread]
        refine ⟨text, ?_, rfl⟩
        unfold attributeValue
        rw [hinput, hbyte]
        dsimp only
        rw [if_neg hbranch, hsplit]
        refine (ends_skipWhile_run hblank rfl htext hrest).bind ?_
        exact (ends_slice front text rest rfl rfl).bind (ends_pure _)

end Values

section Attributes

variable {input others : List Char}

theorem ends_standsAt (hd : d.toNat < 0x80) (front cs : List Char) :
    Ends P (standsAt (bytes (front ++ cs)) d.toUInt8 (bytes front).length) (decide (cs.head? = some d)) := by
  cases cs with
  | nil =>
      rw [standsAt, if_neg (by simp)]
      exact ends_pure _
  | cons c cs =>
      obtain ⟨b, hbyte, hb⟩ := exists_getElem?_bytes front c cs
      obtain ⟨hinside, -⟩ := List.getElem?_eq_some_iff.mp hbyte
      have heq : (b == d.toUInt8) = decide ((c :: cs).head? = some d) := by
        rw [Bool.eq_iff_iff, beq_iff_eq, decide_eq_true_eq, hb d hd]
        simp
      rw [standsAt, if_pos hinside, ← heq]
      exact (ends_byteAt hbyte).bind (ends_pure _)

theorem ofText_cons (c : Char) (cs : List Char) : Attribute.ofText (c :: cs) =
    (Attribute.readPart c cs).1.attribute?.toList ++ Attribute.ofText (Attribute.readPart c cs).2 := by
  rw [Attribute.ofText, Attribute.parts, List.filterMap_cons, Attribute.ofText]
  cases (Attribute.readPart c cs).1.attribute? <;> rfl

theorem readPart_flag {blanks : List Char} (hname : ∀ d ∈ c :: name, Attribute.isNameChar d = true)
    (hblanks : ∀ d ∈ blanks, Text.isAsciiBlank d = true)
    (hstop : ∀ d ∈ (blanks ++ rest).head?, Attribute.isNameChar d = false)
    (hrest : ∀ d ∈ rest.head?, Text.isAsciiBlank d = false) (hequals : rest.head? ≠ some '=') :
    Attribute.readPart c (name ++ (blanks ++ rest)) = (.flag (c :: name), blanks ++ rest) := by
  have hothers : ∀ d ∈ name, Attribute.isNameChar d = true := fun d hd => hname d (List.mem_cons_of_mem _ hd)
  simp only [Attribute.readPart, hname c (List.mem_cons_self ..), if_true, takeWhile_run hothers hstop,
    dropWhile_run hothers hstop, dropWhile_run hblanks hrest]
  split
  next h => exact absurd rfl hequals
  next => rfl

theorem ends_assignmentTurn_flag (hinput : input = front ++ rest) (hequals : rest.head? ≠ some '=')
    (name : List Char) (found : List (String × String)) :
    Ends Advance.Inside (assignmentTurn input name (bytes front).length found)
      (.next ((bytes front).length, found ++ [(String.ofList (Text.lower name), "")])) := by
  have hstands := ends_standsAt (P := Advance.Inside) (d := '=') (by decide) front rest
  rw [decide_eq_false hequals, ← hinput] at hstands
  exact hstands.bind (ends_pure _)

theorem ends_assignmentTurn {blanks value : List Char} (hinput : input = front ++ '=' :: (blanks ++ value))
    (hblanks : ∀ d ∈ blanks, Text.isAsciiBlank d = true) (hvalue : ∀ d ∈ value.head?, Text.isAsciiBlank d = false)
    (name : List Char) (found : List (String × String)) :
    Ends Advance.Inside (assignmentTurn input name (bytes front).length found)
      (.next ((bytes (front ++ '=' :: (blanks ++ (Attribute.readValue value).1.written))).length,
        found ++ [(String.ofList (Text.lower name), String.ofList (Attribute.readValue value).1.decoded)])) := by
  have hstands := ends_standsAt (P := Advance.Inside) (d := '=') (by decide) front ('=' :: (blanks ++ value))
  rw [List.head?_cons, decide_eq_true rfl, ← hinput] at hstands
  have hstart := (length_append_singleton (d := '=') (by decide) front).symm
  have hinput' : input = front ++ ['='] ++ blanks ++ value := by simp [hinput]
  obtain ⟨text, htext, hdecoded⟩ := ends_attributeValue hinput' hvalue
  have hend : front ++ ['='] ++ blanks ++ (Attribute.readValue value).1.written =
      front ++ '=' :: (blanks ++ (Attribute.readValue value).1.written) := by simp
  rw [hend] at htext
  refine hstands.bind ?_
  rw [if_pos rfl, hstart, hdecoded]
  refine (ends_skipWhile_run blank_utf8EncodeChar (by simp [hinput]) hblanks hvalue).bind (htext.bind ?_)
  exact (ends_decode text).bind (ends_pure _)

/-- Behind a name and the blanks that follow it comes what is assigned to it. -/
theorem ends_attributeTurn_name {blanks : List Char}
    {t : Turn (Nat × List (String × String)) (List (String × String))} {found : List (String × String)}
    (hinput : input = front ++ (c :: name ++ (blanks ++ rest)))
    (hname : ∀ d ∈ c :: name, Attribute.isNameChar d = true)
    (hstop : ∀ d ∈ (blanks ++ rest).head?, Attribute.isNameChar d = false)
    (hblanks : ∀ d ∈ blanks, Text.isAsciiBlank d = true) (hrest : ∀ d ∈ rest.head?, Text.isAsciiBlank d = false)
    (h : Ends Advance.Inside
      (assignmentTurn input (c :: name) (bytes (front ++ c :: name ++ blanks)).length found) t) :
    Ends Advance.Inside (attributeTurn input (bytes front).length found) t := by
  have hlonger : (bytes (front ++ c :: name)).length ≠ (bytes front).length := by
    have hpos := List.length_pos_iff.mpr (Script.bytes_ne_nil (List.cons_ne_nil c name))
    rw [length_bytes_append]
    omega
  refine (ends_skipWhile_run name_utf8EncodeChar (by simpa using hinput) hname hstop).bind ?_
  rw [if_neg hlonger, hinput]
  refine (ends_slice front (c :: name) (blanks ++ rest) rfl rfl).bind ?_
  rw [← hinput]
  exact (ends_skipWhile_run blank_utf8EncodeChar (by simp [hinput]) hblanks hrest).bind h

/-- Where no name begins, the turn passes over one byte, which is a whole character. -/
theorem ends_attributeTurn_stray (hinput : input = front ++ c :: others) (hname : Attribute.isNameChar c = false)
    (found : List (String × String)) : Ends Advance.Inside (attributeTurn input (bytes front).length found)
      (.next ((bytes (front ++ [c])).length, found)) := by
  have hascii : c.toNat < 0x80 := by
    by_contra hc
    have hmark : c ∉ ['=', '>', '/', '"', '\''] := Script.Bytewise.notMem_of_high hc (by decide)
    simp_all [Attribute.isNameChar, not_blank_of_high hc]
  have hinput' : input = front ++ ([] ++ c :: others) := hinput
  have hskip := ends_skipWhile_run name_utf8EncodeChar hinput' (by simp) (by simpa using hname)
  rw [List.append_nil] at hskip
  refine hskip.bind ?_
  rw [if_pos rfl, length_append_singleton hascii]
  exact ends_pure _

/-- A turn of the loop takes one attribute, or a character that begins none, from the text. -/
theorem ends_attributeTurn (hinput : input = front ++ c :: others) (found : List (String × String)) :
    ∃ read rest more, c :: others = read ++ rest ∧ read ≠ [] ∧
      Ends Advance.Inside (attributeTurn input (bytes front).length found)
        (.next ((bytes (front ++ read)).length, found ++ more)) ∧
      Attribute.ofText (c :: others) = more ++ Attribute.ofText rest := by
  by_cases hname : Attribute.isNameChar c = true
  · obtain ⟨name, tail, rfl, hname', hstop⟩ := exists_run Attribute.isNameChar others
    have hchars : ∀ d ∈ c :: name, Attribute.isNameChar d = true := List.forall_mem_cons.mpr ⟨hname, hname'⟩
    obtain ⟨before, tail, rfl, hbefore, htail⟩ := exists_run Text.isAsciiBlank tail
    by_cases hequals : tail.head? = some '='
    · obtain ⟨tail, rfl⟩ := List.head?_eq_some_iff.mp hequals
      obtain ⟨after, value, rfl, hafter, hvalue⟩ := exists_run Text.isAsciiBlank tail
      have hpart := Attribute.readPart_assign hchars hbefore hafter hvalue
      have hinput' : input = front ++ c :: name ++ before ++ '=' :: (after ++ value) := by simp [hinput]
      have hassign := ends_assignmentTurn hinput' hafter hvalue (c :: name) found
      have hturn := ends_attributeTurn_name hinput hchars hstop hbefore htail hassign
      refine ⟨c :: name ++ (before ++ '=' :: (after ++ (Attribute.readValue value).1.written)),
        (Attribute.readValue value).2,
        [(String.ofList (Text.lower (c :: name)), String.ofList (Attribute.readValue value).1.decoded)],
        ?_, by simp, by simpa using hturn, ?_⟩
      · simp [Attribute.readValue_written]
      · rw [ofText_cons, hpart]
        rfl
    · have hpart := readPart_flag hchars hbefore hstop htail hequals
      have hinput' : input = front ++ c :: name ++ before ++ tail := by simp [hinput]
      have hflag := ends_assignmentTurn_flag hinput' hequals (c :: name) found
      have hturn := ends_attributeTurn_name hinput hchars hstop hbefore htail hflag
      refine ⟨c :: name ++ before, tail, [(String.ofList (Text.lower (c :: name)), "")], by simp, by simp,
        by simpa using hturn, ?_⟩
      rw [ofText_cons, hpart, Attribute.ofText_gap fun d hd => Attribute.not_nameChar_of_blank (hbefore d hd)]
      rfl
  · rw [Bool.not_eq_true] at hname
    have hgap : ∀ d ∈ [c], Attribute.isNameChar d = false := by simpa using hname
    have hturn := ends_attributeTurn_stray hinput hname found
    exact ⟨[c], others, [], rfl, by simp, by simpa using hturn, Attribute.ofText_gap hgap⟩

/-- What is expected where some attributes are found: those, and the attributes of the rest of the text. -/
def Splitting (input : List Char) (s : Nat × List (String × String)) (a : List (String × String)) : Prop :=
  ∃ front cs, input = front ++ cs ∧ s.1 = (bytes front).length ∧ a = s.2 ++ Attribute.ofText cs

theorem leads_attributesTurn (hinput : input = front ++ cs) (found : List (String × String)) :
    Leads Advance.Inside (bytes input) Prod.fst (attributesTurn input) (Splitting input)
      ((bytes front).length, found) (found ++ Attribute.ofText cs) := by
  have hnil : found ++ Attribute.ofText [] = found := by simp [Attribute.ofText, Attribute.parts]
  by_cases hcs : cs = []
  · subst hcs
    refine .stop ?_
    rw [attributesTurn, if_neg (by simp [hinput]), hnil]
    exact ends_pure _
  · have hinside : (bytes front).length < (bytes input).length :=
      (inside_characters front cs [] (hinput.trans (by simp)) hcs).begins
    obtain ⟨gap, rest, rfl, hgap, hrest⟩ := exists_run (fun c => Text.isAsciiBlank c || c == '/') cs
    have hskip := ends_skipWhile_run gap_utf8EncodeChar hinput hgap hrest
    have hskipped : Attribute.ofText (gap ++ rest) = Attribute.ofText rest :=
      Attribute.ofText_gap fun d hd => Attribute.not_nameChar_of_tail (by simpa using hgap d hd)
    rw [← List.append_assoc] at hinput
    cases rest with
    | nil =>
        rw [List.append_nil] at hinput
        refine .leave (t := ((bytes input).length, found)) ?_ ⟨hinside, le_rfl⟩
        rw [attributesTurn, if_pos hinside, hskipped, hnil]
        refine hskip.bind ?_
        rw [if_pos (by rw [hinput]), hinput]
        exact ends_pure _
    | cons c others =>
        obtain ⟨read, rest, more, hread, hne, hturn, hmore⟩ :=
          ends_attributeTurn hinput found
        rw [hread] at hinput
        have hopen := inside_characters (front ++ gap) read rest hinput hne
        have hadvance := inside_characters front (gap ++ read) rest (hinput.trans (by simp))
          (List.append_ne_nil_of_right_ne_nil gap hne)
        rw [← List.append_assoc] at hadvance
        refine .next (t := ((bytes (front ++ gap ++ read)).length, found ++ more)) ?_ hadvance
          ⟨front ++ gap ++ read, rest, by simp [hinput], rfl, by simp [hskipped, hmore]⟩
        rw [attributesTurn, if_pos hinside]
        refine hskip.bind ?_
        rw [if_neg hopen.begins.not_ge]
        exact hturn

/-- The attributes of a tag are read within the bounds of their text. -/
theorem ends_attributes (input : List Char) : Ends Advance.Inside (attributes input) (Attribute.ofText input) := by
  refine ends_loop (Splitting input) forward_inside (fun s a h => ?_) ⟨[], input, rfl, rfl, rfl⟩
  obtain ⟨front, cs, hinput, hoffset, rfl⟩ := h
  obtain ⟨offset, found⟩ := s
  cases hoffset
  exact leads_attributesTurn hinput found

end Attributes

end ImportTree.Scan
