import ImportTree.Proofs.Markup.Places
import ImportTree.Proofs.Scan.Attributes

/-!
# Documents by offset

A document is read by offset: searches in its bytes lead to the next bracket, and searches in the same bytes in lower
case to the end of an element. Both have the same offsets, since no letter has another length in lower case.
-/

namespace ImportTree.Scan

open Script (bytes)
open Markup

variable {P : Advance → Prop} {text cs front rest name : List Char} {c d : Char} {b : UInt8} {hs : List UInt8}

/-! ## The end of a tag -/

/-- What a reader of bytes remembers inside a tag. -/
structure Quoting where
  /-- The quote that encloses the value. -/
  quote? : Option UInt8
  /-- Whether only blanks stand behind an equals sign. -/
  afterEquals : Bool
deriving DecidableEq

namespace Quoting

def closes (s : Quoting) (b : UInt8) : Bool :=
  s.quote?.isNone && b == '>'.toUInt8

def next (s : Quoting) (b : UInt8) : Quoting :=
  match s.quote? with
  | some quote => if b = quote then { s with quote? := none } else s
  | none =>
    if b = '='.toUInt8 then { s with afterEquals := true }
    else if (b = '"'.toUInt8 ∨ b = '\''.toUInt8) ∧ s.afterEquals then ⟨some b, false⟩
    else if Script.Bytewise.isBlank b then s
    else { s with afterEquals := false }

/-- The number of bytes up to the bracket that ends the tag. -/
def end? (s : Quoting) : List UInt8 → Option Nat
  | [] => none
  | b :: bs => if s.closes b then some 0 else ((s.next b).end? bs).map (· + 1)

def ofState : TagState → Quoting
  | .plain => ⟨none, false⟩
  | .afterEquals => ⟨none, true⟩
  | .quoted quote => ⟨some quote.toUInt8, false⟩

end Quoting

def tagEndTurn (tail : List UInt8) (s : Nat × Quoting) : Run (Turn (Nat × Quoting) (Option Nat)) :=
  if s.1 < tail.length then do
    let b ← byteAt tail s.1
    if s.2.closes b then return .stop (some s.1) else return .next (s.1 + 1, s.2.next b)
  else return .stop none

def tagEnd? (bs : List UInt8) (start : Nat) : Run (Option Nat) := do
  let tail ← between bs start bs.length
  let index? ← loop tail Prod.fst (tagEndTurn tail) (0, ⟨none, false⟩)
  return index?.map (start + ·)

namespace Quoting

variable {s : TagState}

def AsciiQuote (s : TagState) : Prop :=
  ∀ quote, s = .quoted quote → quote.toNat < 0x80

theorem asciiQuote_next (hs : AsciiQuote s) (c : Char) : AsciiQuote (s.next c) := by
  intro quote hquote
  cases s with
  | plain =>
      rw [TagState.next] at hquote
      split at hquote <;> cases hquote
  | afterEquals =>
      rw [TagState.next] at hquote
      split at hquote
      next h =>
        cases hquote
        rcases h with rfl | rfl <;> decide
      next => split at hquote <;> cases hquote
  | quoted quote' =>
      rw [TagState.next] at hquote
      split at hquote <;> cases hquote
      exact hs _ rfl

theorem closes_ofState (hc : c.toNat < 0x80) : (ofState s).closes c.toUInt8 = decide (c = '>' ∧ s.closes = true) := by
  have hiff := Script.toUInt8_eq_iff hc (d := '>') (by decide)
  rw [Bool.eq_iff_iff]
  cases s <;> simp [ofState, closes, TagState.closes, hiff]

theorem next_ofState (hs : AsciiQuote s) (hc : c.toNat < 0x80) : (ofState s).next c.toUInt8 = ofState (s.next c) := by
  cases s with
  | plain =>
      exact Script.forall_ascii (P := fun c => (ofState .plain).next c.toUInt8 = ofState (TagState.plain.next c))
        (by decide +kernel) hc
  | afterEquals =>
      exact Script.forall_ascii
        (P := fun c => (ofState .afterEquals).next c.toUInt8 = ofState (TagState.afterEquals.next c))
        (by decide +kernel) hc
  | quoted quote =>
      have hiff := Script.toUInt8_eq_iff hc (hs quote rfl)
      simp only [ofState, next, TagState.next, hiff]
      split <;> rfl

/-- No byte of a character beyond ASCII is a quote, a blank, a bracket or an equals sign. -/
theorem next_high (hs : AsciiQuote s) (hb : 0x80 ≤ b.toNat) (hc : ¬c.toNat < 0x80) :
    (ofState s).closes b = false ∧ (ofState s).next b = ofState (s.next c) := by
  have hbyte (d : Char) (hd : d.toNat < 0x80) : b ≠ d.toUInt8 := Script.ne_toUInt8 hb hd
  have hchar (d : Char) (hd : d.toNat < 0x80) : c ≠ d := fun heq => hc (heq ▸ hd)
  have hblank : Script.Bytewise.isBlank b = false := decide_eq_false (Script.Bytewise.notMem_map_of_high hb (by decide))
  have hclose := hbyte '>' (by decide)
  have hequals := hbyte '=' (by decide)
  have hdouble := hbyte '"' (by decide)
  have hsingle := hbyte '\'' (by decide)
  cases s with
  | plain => simp [ofState, closes, next, TagState.next, hclose, hequals, hblank, hchar '=' (by decide)]
  | afterEquals =>
      simp [ofState, closes, next, TagState.next, hclose, hequals, hdouble, hsingle, hblank, not_blank_of_high hc,
        hchar '=' (by decide), hchar '"' (by decide), hchar '\'' (by decide)]
  | quoted quote =>
      simp [ofState, closes, next, TagState.next, hbyte quote (hs quote rfl), hchar quote (hs quote rfl)]

theorem next_next_high (hs : AsciiQuote s) (hc : ¬c.toNat < 0x80) : (s.next c).next c = s.next c := by
  have hchar (d : Char) (hd : d.toNat < 0x80) : c ≠ d := fun heq => hc (heq ▸ hd)
  cases s with
  | plain => simp [TagState.next, hchar '=' (by decide)]
  | afterEquals =>
      simp [TagState.next, not_blank_of_high hc, hchar '=' (by decide), hchar '"' (by decide), hchar '\'' (by decide)]
  | quoted quote => simp [TagState.next, hchar quote (hs quote rfl)]

theorem end?_utf8EncodeChar (hs : AsciiQuote s) (hc : ¬(c = '>' ∧ s.closes = true)) (bs : List UInt8) :
    (ofState s).end? (String.utf8EncodeChar c ++ bs) =
      ((ofState (s.next c)).end? bs).map (· + (String.utf8EncodeChar c).length) := by
  by_cases hascii : c.toNat < 0x80
  · rw [Script.utf8EncodeChar_ascii hascii, List.singleton_append, end?, closes_ofState hascii, decide_eq_false hc,
      next_ofState hs hascii]
    rfl
  · have hstay (b : UInt8) (bs : List UInt8) (hb : 0x80 ≤ b.toNat) :
        (ofState (s.next c)).end? (b :: bs) = ((ofState (s.next c)).end? bs).map (· + 1) := by
      obtain ⟨hclose, hnext⟩ := next_high (asciiQuote_next hs c) hb hascii
      rw [end?, hclose, hnext, next_next_high hs hascii]
      rfl
    -- The first byte changes the state as the character does, and the others leave it as it is.
    obtain ⟨b, hs', hbytes, hhigh⟩ := Script.utf8EncodeChar_cons c
    have hb := Script.high_utf8EncodeChar hascii b (hbytes ▸ List.mem_cons_self ..)
    obtain ⟨hclose, hnext⟩ := next_high hs hb hascii
    rw [hbytes, List.cons_append, end?, hclose, hnext, Script.Bytewise.find_high hstay hhigh]
    simp [Function.comp_def, Nat.add_assoc]

/-- The bytes of a tag end where its characters do. -/
theorem end?_bytes (hs : AsciiQuote s) (cs : List Char) :
    (ofState s).end? (bytes cs) = (cutTag? s cs).map fun cut => (bytes cut.1).length := by
  induction cs generalizing s with
  | nil => rfl
  | cons c cs ih =>
      rw [cutTag?]
      split
      next hclose =>
        obtain ⟨rfl, hstate⟩ := hclose
        rw [Script.bytes_cons_ascii (by decide), end?, closes_ofState (by decide), decide_eq_true ⟨rfl, hstate⟩]
        rfl
      next hopen =>
        rw [Script.bytes_cons, end?_utf8EncodeChar hs hopen, ih (asciiQuote_next hs c)]
        cases cutTag? (s.next c) cs with
        | none => rfl
        | some cut =>
            simp only [Option.map_some, Script.bytes_cons, List.length_append, Option.some.injEq]
            omega

end Quoting

theorem ends_tagEndTurns (tail : List UInt8) (start : Quoting) :
    Ends Advance.Inside (loop tail Prod.fst (tagEndTurn tail) (0, start)) (start.end? tail) := by
  have hstart : start.end? tail = (start.end? tail).map (0 + ·) := by simp
  refine ends_loop (fun s a => ∃ pre post, tail = pre ++ post ∧ s.1 = pre.length ∧
    a = (s.2.end? post).map (pre.length + ·)) forward_inside (fun s a h => ?_) ⟨[], tail, rfl, rfl, hstart⟩
  obtain ⟨pre, post, htail, hindex, rfl⟩ := h
  cases post with
  | nil =>
      refine .stop ?_
      rw [tagEndTurn, if_neg (by simp [htail, hindex])]
      exact ends_pure _
  | cons b post =>
      have hinside : s.1 < tail.length := by simp [htail, hindex]
      have hbyte : tail[s.1]? = some b := by simp [htail, hindex]
      cases hclose : s.2.closes b with
      | true =>
          refine .stop ?_
          rw [tagEndTurn, if_pos hinside, Quoting.end?, if_pos hclose]
          refine (ends_byteAt hbyte).bind ?_
          rw [if_pos hclose, hindex]
          exact ends_pure _
      | false =>
          have hopen := Bool.eq_false_iff.mp hclose
          refine .next (t := (s.1 + 1, s.2.next b)) ?_ ⟨Nat.lt_succ_self _, hinside⟩
            ⟨pre ++ [b], post, by simp [htail], by simp [hindex], ?_⟩
          · rw [tagEndTurn, if_pos hinside]
            refine (ends_byteAt hbyte).bind ?_
            rw [if_neg hopen]
            exact ends_pure _
          · rw [Quoting.end?, if_neg hopen, Option.map_map]
            refine congrArg (Option.map · _) (funext fun n => ?_)
            rw [Function.comp_apply, List.length_append, List.length_singleton]
            omega

theorem ends_tagEnd (front tail : List Char) : Ends Advance.Inside
    (tagEnd? (bytes (front ++ tail)) (bytes front).length)
    ((cutTag? .plain tail).map fun cut => (bytes (front ++ cut.1)).length) := by
  have hloop := ends_tagEndTurns (bytes tail) (Quoting.ofState .plain)
  have hascii : Quoting.AsciiQuote .plain := fun _ h => nomatch h
  rw [Quoting.end?_bytes hascii] at hloop
  have hmap : (cutTag? .plain tail).map (fun cut => (bytes (front ++ cut.1)).length) =
      ((cutTag? .plain tail).map fun cut => (bytes cut.1).length).map ((bytes front).length + ·) := by
    rw [Option.map_map]
    refine congrArg (Option.map · _) (funext fun cut => ?_)
    rw [Function.comp_apply, length_bytes_append]
  rw [hmap]
  exact (ends_behind front tail).bind (hloop.bind (ends_pure _))

/-! ## Lines -/

/-- The last offset of which the line was asked for, and that line. -/
structure Lines where
  offset : Nat
  line : Nat

/-- Counts on from the last offset to one that is not before it. -/
def lineAt (bs : List UInt8) (lines : Lines) (offset : Nat) : Run Lines :=
  if lines.offset < offset then do
    let passed ← between bs lines.offset offset
    return ⟨offset, lines.line + passed.count '\n'.toUInt8⟩
  else return lines

def fault (bs : List UInt8) (offset : Nat) (reason : String) : Run SyntaxFault := do
  let passed ← between bs 0 offset
  return ⟨1 + passed.count '\n'.toUInt8, reason⟩

/-- Whether lines were counted somewhere in some characters, or behind them. -/
def Lines.Within (lines : Lines) (front : List Char) : Prop :=
  ∃ passed ahead, front = passed ++ ahead ∧ lines = ⟨(bytes passed).length, 1 + Text.newlines passed⟩

theorem Lines.Within.append {lines : Lines} (h : lines.Within front) (more : List Char) :
    lines.Within (front ++ more) := by
  obtain ⟨passed, ahead, rfl, hlines⟩ := h
  exact ⟨passed, ahead ++ more, List.append_assoc .., hlines⟩

theorem Lines.within_self (front : List Char) : Lines.Within ⟨(bytes front).length, 1 + Text.newlines front⟩ front :=
  ⟨front, [], (List.append_nil front).symm, rfl⟩

theorem newlines_append (cs cs' : List Char) : Text.newlines (cs ++ cs') = Text.newlines cs + Text.newlines cs' :=
  List.count_append

theorem ends_lineAt {lines : Lines} (h : lines.Within front) (cs : List Char) :
    Ends P (lineAt (bytes (front ++ cs)) lines (bytes front).length)
      ⟨(bytes front).length, 1 + Text.newlines front⟩ := by
  obtain ⟨passed, ahead, rfl, rfl⟩ := h
  have hlines : (bytes ahead).count '\n'.toUInt8 = Text.newlines ahead := Script.count_bytes ahead
  by_cases hahead : ahead = []
  · subst hahead
    rw [List.append_nil, lineAt, if_neg (lt_irrefl _)]
    exact ends_pure _
  · have hlonger := inside_characters passed ahead [] rfl hahead
    rw [lineAt, if_pos hlonger.forward, newlines_append, ← Nat.add_assoc, ← hlines,
      Script.bytes_append (passed ++ ahead), Script.bytes_append, List.append_assoc]
    exact (ends_between _ _ _ rfl rfl).bind (ends_pure _)

theorem ends_fault (front cs : List Char) (reason : String) :
    Ends P (fault (bytes (front ++ cs)) (bytes front).length reason) ⟨1 + Text.newlines front, reason⟩ := by
  have hlines : (bytes front).count '\n'.toUInt8 = Text.newlines front := Script.count_bytes front
  rw [fault, ← hlines, Script.bytes_append]
  exact (ends_between [] (bytes front) (bytes cs) rfl rfl).bind (ends_pure _)

/-! ## Elements -/

def isTagNameByte (b : UInt8) : Bool :=
  Script.Bytewise.isAlpha b || ('0'.toUInt8 ≤ b && b ≤ '9'.toUInt8) ||
    (['-', '_', ':', '.'].map Char.toUInt8).contains b

/-- Reads a script up to and with its end tag, and adds the content to its node. -/
def scriptElement (text : List Char) (start after : Nat) (node : Node) :
    Run (Except SyntaxFault (Nat × Structure)) := do
  let lower := (bytes text).map lowerByte
  let tail ← between lower after lower.length
  match find? (bytes "</script".toList) tail with
  | none => return .error (← fault (bytes text) start Unterminated.script.reason)
  | some close => do
    let body ← slice text after (after + close)
    let closing ← between (bytes text) (after + close) (bytes text).length
    let last := match find? (bytes ['>']) closing with
      | some offset => after + close + offset + 1
      | none => (bytes text).length
    return .ok (last, { scripts := [{ node with text? := Structure.scriptText? body }] })

/-- Reads plain text up to the end tag of its element. -/
def rawTextElement (text : List Char) (after : Nat) (tag : List Char) : Run Nat := do
  let lower := (bytes text).map lowerByte
  let tail ← between lower after lower.length
  return match find? (bytes ('<' :: '/' :: tag)) tail with
    | some close => after + close
    | none => (bytes text).length

/-- The structure of a tag that only its node is kept of, if anything. -/
def ofTag (node : Node) : Structure :=
  if node.tag = "link" then
    if Structure.isImportLink node then { imports := [node] } else {}
  else if node.tag = "dom-module" then { templates := [node] }
  else {}

/-- Reads what belongs to an element behind its start tag. -/
def content (text : List Char) (start after : Nat) (tag : List Char) (node : Node) :
    Run (Except SyntaxFault (Nat × Structure)) :=
  if tag = "script".toList then scriptElement text start after node
  else if Construct.rawTextNames.contains tag then do
    let last ← rawTextElement text after tag
    return .ok (last, {})
  else return .ok (after, ofTag node)

/-- Where a reader of a document stands, and what it has found. -/
structure Reader where
  offset : Nat
  lines : Lines
  found : Structure

def startTag (text : List Char) (s : Reader) (start : Nat) : Run (Except SyntaxFault Reader) := do
  let last ← skipWhile (bytes text) isTagNameByte (start + 1)
  let name ← slice text (start + 1) last
  let tag := Text.lower name
  match ← tagEnd? (bytes text) last with
  | none => return .error (← fault (bytes text) start (Unterminated.startTag tag).reason)
  | some tagEnd => do
    let lines ← lineAt (bytes text) s.lines start
    let inner ← slice text last tagEnd
    let entries ← attributes inner
    match ← content text start (tagEnd + 1) tag ⟨String.ofList tag, entries, none, lines.line⟩ with
    | .error fault => return .error fault
    | .ok (offset, more) => return .ok ⟨offset, lines, s.found.append more⟩

/-- What becomes of a construct behind some characters, or of one that does not end. -/
def made (front : List Char) : Except Unterminated (Construct × List Char) → Except SyntaxFault (Nat × Structure)
  | .ok (k, _) => .ok ((bytes (front ++ k.written)).length, Structure.ofConstruct (1 + Text.newlines front) k)
  | .error cut => .error ⟨1 + Text.newlines front, cut.reason⟩

theorem tagName_utf8EncodeChar (c : Char) (b : UInt8) (hb : b ∈ String.utf8EncodeChar c) :
    isTagNameByte b = Construct.isTagNameChar c := by
  refine forall_mem_utf8EncodeChar (p := isTagNameByte) false (by decide +kernel) (forall_byte (by decide +kernel))
    (fun c hc => ?_) c b hb
  by_contra h
  simp only [Construct.isTagNameChar, Bool.not_eq_false, Bool.or_eq_true, beq_iff_eq, or_assoc] at h
  rcases h with h | h
  · exact hc ((Script.nameChar_range (.inl h)).2.trans_lt (by decide))
  · rcases h with rfl | rfl | rfl | rfl <;> exact hc (by decide)

/-- An end tag goes up to its bracket, or to the end of the text. -/
theorem behind_throughBracket (front cs : List Char) : (match find? (bytes ['>']) (bytes cs) with
    | some offset => (bytes front).length + offset + 1
    | none => (bytes (front ++ cs)).length) = (bytes (front ++ (Construct.throughBracket cs).1)).length := by
  by_cases hbracket : '>' ∈ cs
  · obtain ⟨junk, rest, rfl, hjunk⟩ := List.eq_append_cons_of_mem hbracket
    rw [find?_char (by decide) junk hjunk rest, Construct.throughBracket_first hjunk]
    dsimp only
    rw [← List.append_assoc, length_append_singleton (by decide), length_bytes_append]
  · rw [find?_char_none (by decide) hbracket, Construct.throughBracket_all hbracket]

theorem ends_scriptElement {attributes : List Char} {node : Node} (hname : Text.lower name = "script".toList)
    (htext : text = front ++ Construct.writtenTag name attributes ++ rest)
    (hnode : node = ⟨"script", Attribute.ofText attributes, none, 1 + Text.newlines front⟩) :
    Ends P (scriptElement text (bytes front).length (bytes (front ++ Construct.writtenTag name attributes)).length node)
      (made front (Construct.readContent name attributes rest)) := by
  have hfind : find? (bytes "</script".toList) ((bytes rest).map lowerByte) =
      (Text.cutBefore? (Text.startsWithLetters "</script".toList) rest).map fun cut => (bytes cut.1).length :=
    find?_lower (by decide) (by decide) (by decide) rest
  subst htext hnode
  rw [scriptElement, Construct.readContent, if_pos hname]
  refine (ends_behind_lower _ rest).bind ?_
  rw [hfind]
  cases hcut : Text.cutBefore? (Text.startsWithLetters "</script".toList) rest with
  | none =>
      rw [List.append_assoc]
      exact (ends_fault front _ _).bind (ends_pure _)
  | some cut =>
      obtain ⟨body, after⟩ := cut
      obtain rfl := Text.cutBefore?_append hcut
      have hclose : (bytes (front ++ Construct.writtenTag name attributes)).length + (bytes body).length =
          (bytes (front ++ Construct.writtenTag name attributes ++ body)).length :=
        (length_bytes_append _ body).symm
      have hwritten : front ++ (Construct.script name attributes body (Construct.throughBracket after).1).written =
          front ++ Construct.writtenTag name attributes ++ body ++ (Construct.throughBracket after).1 := by
        simp [Construct.written]
      dsimp only [Option.map_some]
      refine (ends_slice _ body after rfl hclose).bind ?_
      rw [hclose, ← List.append_assoc]
      refine (ends_behind _ after).bind ?_
      rw [behind_throughBracket, made, hwritten]
      exact ends_pure _

theorem ends_rawTextElement (hname : Text.lower name ∈ Construct.rawTextNames) (front rest : List Char) :
    Ends P (rawTextElement (front ++ rest) (bytes front).length (Text.lower name))
      (match Text.cutBefore? (Text.startsWithLetters ('<' :: '/' :: Text.lower name)) rest with
        | some (content, _) => (bytes (front ++ content)).length
        | none => (bytes (front ++ rest)).length) := by
  have hmarks : ∀ name ∈ Construct.rawTextNames, Ascii ('<' :: '/' :: name) := by decide
  have hlower := Construct.lower_endMark (List.mem_cons_of_mem _ hname)
  rw [rawTextElement]
  refine (ends_behind_lower front rest).bind ?_
  rw [find?_lower (hmarks _ hname) (List.cons_ne_nil _ _) hlower]
  cases Text.cutBefore? (Text.startsWithLetters ('<' :: '/' :: Text.lower name)) rest with
  | none => exact ends_pure _
  | some cut =>
      dsimp only [Option.map_some]
      rw [length_bytes_append front cut.1]
      exact ends_pure _

theorem ends_content {attributes : List Char} (htext : text = front ++ Construct.writtenTag name attributes ++ rest) :
    Ends P (content text (bytes front).length (bytes (front ++ Construct.writtenTag name attributes)).length
      (Text.lower name) ⟨String.ofList (Text.lower name), Attribute.ofText attributes, none, 1 + Text.newlines front⟩)
      (made front (Construct.readContent name attributes rest)) := by
  rw [content]
  split
  next hname => exact ends_scriptElement hname htext (by rw [hname, String.ofList_toList])
  next hname =>
    rw [Construct.readContent, if_neg hname]
    by_cases hraw : Text.lower name ∈ Construct.rawTextNames
    · rw [htext, if_pos (List.contains_iff_mem.mpr hraw), if_pos hraw]
      refine (ends_rawTextElement hraw _ rest).bind ?_
      cases Text.cutBefore? (Text.startsWithLetters ('<' :: '/' :: Text.lower name)) rest with
      | none =>
          rw [List.append_assoc]
          exact ends_pure _
      | some cut =>
          dsimp only
          rw [List.append_assoc]
          exact ends_pure _
    · rw [if_neg (List.contains_iff_mem.not.mpr hraw), if_neg hraw]
      exact ends_pure _

theorem ends_startTag (s : Reader) (hc : c.isAlpha = true) (others : List Char) (hlines : s.lines.Within front) :
    ∃ lines, lines.Within front ∧
      Ends Advance.Inside (startTag (front ++ '<' :: c :: others) s (bytes front).length)
        ((made front (Construct.read '<' (c :: others))).map fun p => ⟨p.1, lines, s.found.append p.2⟩) := by
  obtain ⟨name, tail, hsplit, -, hchars, hends⟩ := Construct.exists_name others hc
  refine ⟨⟨(bytes front).length, 1 + Text.newlines front⟩, Lines.within_self front, ?_⟩
  have hname : front ++ '<' :: (name ++ tail) = front ++ ['<'] ++ (name ++ tail) := by simp
  have htail : front ++ '<' :: (name ++ tail) = front ++ ['<'] ++ name ++ tail := by simp
  have htagEnd := ends_tagEnd (front ++ ['<'] ++ name) tail
  rw [← htail] at htagEnd
  rw [Construct.read_letter hc, hsplit, startTag, ← length_append_singleton (d := '<') (by decide)]
  refine (ends_skipWhile_run tagName_utf8EncodeChar hname hchars hends).bind ?_
  conv in slice _ => rw [hname]
  refine (ends_slice _ name tail rfl rfl).bind (htagEnd.bind ?_)
  cases hcut : cutTag? .plain tail with
  | none =>
      rw [Construct.readElement_open hchars hends hcut]
      exact (ends_fault front _ _).bind (ends_pure _)
  | some cut =>
      obtain ⟨attributes, rest⟩ := cut
      obtain rfl := cutTag?_append hcut
      have hinner : front ++ '<' :: (name ++ (attributes ++ '>' :: rest)) =
          front ++ ['<'] ++ name ++ (attributes ++ '>' :: rest) := htail
      have htag : front ++ '<' :: (name ++ (attributes ++ '>' :: rest)) =
          front ++ Construct.writtenTag name attributes ++ rest := by simp [Construct.writtenTag]
      have hafter : (bytes (front ++ ['<'] ++ name ++ attributes)).length + 1 =
          (bytes (front ++ Construct.writtenTag name attributes)).length := by
        rw [← length_append_singleton (d := '>') (by decide)]
        simp [Construct.writtenTag]
      rw [Construct.readElement_closed hchars hends hcut]
      dsimp only [Option.map_some]
      refine (ends_lineAt hlines _).bind ?_
      conv in slice _ => rw [hinner]
      refine (ends_slice _ attributes _ rfl rfl).bind ((ends_attributes attributes).bind ?_)
      rw [hafter]
      refine (ends_content htag).bind ?_
      cases made front (Construct.readContent name attributes rest) <;> exact ends_pure _

/-! ## Documents -/

def comment (text : List Char) (s : Reader) (start : Nat) : Run (Except SyntaxFault Reader) := do
  let tail ← between (bytes text) (start + 4) (bytes text).length
  match find? (bytes ['-', '-', '>']) tail with
  | none => return .error (← fault (bytes text) start Unterminated.comment.reason)
  | some last => return .ok { s with offset := start + 4 + last + 3 }

/-- Passes over the declaration or end tag that begins at an offset. -/
def declaration (text : List Char) (s : Reader) (start : Nat) (rest : List UInt8) : Run (Except SyntaxFault Reader) :=
  match find? (bytes ['>']) rest with
  | none => do return .error (← fault (bytes text) start Unterminated.declaration.reason)
  | some last => return .ok { s with offset := start + last + 1 }

def construct (text : List Char) (s : Reader) (start : Nat) : Run (Except SyntaxFault Reader) := do
  let rest ← between (bytes text) start (bytes text).length
  if bytes "<!--".toList <+: rest then comment text s start
  else if bytes "<!".toList <+: rest ∨ bytes "<?".toList <+: rest ∨ bytes "</".toList <+: rest then
    declaration text s start rest
  else if rest[1]?.any Script.Bytewise.isAlpha then startTag text s start
  else return .ok { s with offset := start + 1 }

def resumed : Except SyntaxFault Reader → Turn Reader (Except SyntaxFault Structure)
  | .error fault => .stop (.error fault)
  | .ok s => .next s

/-- Goes on to the next opening bracket, and reads what it begins. -/
def documentTurn (text : List Char) (s : Reader) : Run (Turn Reader (Except SyntaxFault Structure)) := do
  let tail ← between (bytes text) s.offset (bytes text).length
  match find? (bytes ['<']) tail with
  | none => return .stop (.ok s.found)
  | some offset => do
    let read ← construct text s (s.offset + offset)
    return resumed read

def document (text : List Char) : Run (Except SyntaxFault Structure) :=
  loop (bytes text) Reader.offset (documentTurn text) ⟨0, ⟨0, 1⟩, {}⟩

/-- What has no nodes only moves the reader on. -/
theorem map_made {k : Construct} {offset : Nat} (hoffset : offset = (bytes (front ++ k.written)).length)
    (hk : Structure.ofConstruct (1 + Text.newlines front) k = {}) (s : Reader) (rest : List Char) :
    (made front (.ok (k, rest))).map (fun p => (⟨p.1, s.lines, s.found.append p.2⟩ : Reader)) =
      .ok { s with offset := offset } := by
  rw [made, hk, hoffset]
  simp [Except.map]

theorem ends_comment (front body : List Char) (s : Reader) :
    Ends P (comment (front ++ '<' :: '!' :: '-' :: '-' :: body) s (bytes front).length)
      ((made front (Construct.readComment body)).map fun p => ⟨p.1, s.lines, s.found.append p.2⟩) := by
  have hsplit : front ++ '<' :: '!' :: '-' :: '-' :: body = front ++ ['<', '!', '-', '-'] ++ body := by simp
  have hstart : (bytes front).length + 4 = (bytes (front ++ ['<', '!', '-', '-'])).length :=
    (length_bytes_append front ['<', '!', '-', '-']).symm
  rw [comment, hstart, hsplit]
  refine (ends_behind _ body).bind ?_
  rw [find?_around (by decide) (by decide), Construct.readComment]
  cases Text.cutAround? ['-', '-', '>'] body with
  | none =>
      rw [← hsplit]
      exact (ends_fault front _ _).bind (ends_pure _)
  | some cut =>
      have hlast : (bytes (front ++ ['<', '!', '-', '-'])).length + (bytes cut.1).length + 3 =
          (bytes (front ++ (Construct.comment cut.1).written)).length := by
        have hwritten : front ++ (Construct.comment cut.1).written =
            front ++ ['<', '!', '-', '-'] ++ cut.1 ++ ['-', '-', '>'] := by simp [Construct.written]
        rw [hwritten, length_bytes_append _ ['-', '-', '>'], length_bytes_append _ cut.1]
        rfl
      rw [map_made hlast rfl]
      exact ends_pure _

theorem ends_declaration (front cs : List Char) (s : Reader) :
    Ends P (declaration (front ++ '<' :: cs) s (bytes front).length (bytes ('<' :: cs)))
      ((made front (Construct.readDeclaration cs)).map fun p => ⟨p.1, s.lines, s.found.append p.2⟩) := by
  rw [declaration]
  by_cases hbracket : '>' ∈ cs
  · obtain ⟨body, rest, rfl, hbody⟩ := List.eq_append_cons_of_mem hbracket
    have hfind : find? (bytes ['>']) (bytes ('<' :: (body ++ '>' :: rest))) = some (bytes ('<' :: body)).length :=
      find?_char (by decide) ('<' :: body) (by simp [hbody]) rest
    have hlast : (bytes front).length + (bytes ('<' :: body)).length + 1 =
        (bytes (front ++ (Construct.declaration body).written)).length := by
      rw [← length_bytes_append, ← length_append_singleton (d := '>') (by decide)]
      simp [Construct.written]
    rw [hfind, Construct.readDeclaration_first hbody, map_made hlast rfl]
    exact ends_pure _
  · rw [find?_char_none (by decide) (by simpa using hbracket), readDeclaration_eq_error_iff.mpr ⟨rfl, hbracket⟩]
    exact (ends_fault front _ _).bind (ends_pure _)

theorem any_isAlpha (cs : List Char) :
    (bytes ('<' :: cs))[1]?.any Script.Bytewise.isAlpha = cs.head?.any Char.isAlpha := by
  have hbyte : (bytes ('<' :: cs))[1]? = (bytes cs).head? := getElem?_bytes ['<'] cs
  rw [hbyte]
  cases cs with
  | nil => rfl
  | cons c cs =>
      obtain ⟨b, hs, hbytes, -⟩ := Script.utf8EncodeChar_cons c
      rw [Script.bytes_cons, hbytes]
      exact Script.Bytewise.isAlpha_utf8EncodeChar c b (hbytes ▸ List.mem_cons_self ..)

theorem commentMark_iff (cs : List Char) :
    bytes "<!--".toList <+: bytes ('<' :: cs) ↔ ∃ inner, cs = '!' :: inner ∧ ['-', '-'] <+: inner := by
  rw [bytes_prefix_iff (by decide)]
  constructor
  · rintro ⟨body, hbody⟩
    exact ⟨'-' :: '-' :: body, (List.cons.inj hbody).2.symm, List.prefix_append ['-', '-'] body⟩
  · rintro ⟨inner, rfl, hdashes⟩
    exact List.cons_prefix_cons.mpr ⟨rfl, List.cons_prefix_cons.mpr ⟨rfl, hdashes⟩⟩

theorem declarationMark_iff (cs : List Char) : bytes "<!".toList <+: bytes ('<' :: cs) ∨
    bytes "<?".toList <+: bytes ('<' :: cs) ∨ bytes "</".toList <+: bytes ('<' :: cs) ↔
      ∃ d ∈ cs.head?, Construct.IsMark d := by
  rw [bytes_prefix_iff (by decide), bytes_prefix_iff (by decide), bytes_prefix_iff (by decide)]
  cases cs <;> simp [Construct.IsMark, List.cons_prefix_cons, eq_comm]

theorem ends_construct {s : Reader} (hlines : s.lines.Within front) (cs : List Char) : ∃ lines, lines.Within front ∧
    Ends Advance.Inside (construct (front ++ '<' :: cs) s (bytes front).length)
      ((made front (Construct.read '<' cs)).map fun p => ⟨p.1, lines, s.found.append p.2⟩) := by
  have hunmarked (h : ∀ d ∈ cs.head?, ¬Construct.IsMark d) : ¬bytes "<!--".toList <+: bytes ('<' :: cs) ∧
      ¬(bytes "<!".toList <+: bytes ('<' :: cs) ∨ bytes "<?".toList <+: bytes ('<' :: cs) ∨
        bytes "</".toList <+: bytes ('<' :: cs)) := by
    rw [commentMark_iff, declarationMark_iff]
    refine ⟨?_, fun ⟨d, hd, hmark⟩ => h d hd hmark⟩
    rintro ⟨inner, rfl, -⟩
    exact h '!' rfl (.inl rfl)
  unfold construct
  cases Construct.lead cs with
  | comment body =>
      refine ⟨s.lines, hlines, (ends_behind front _).bind ?_⟩
      rw [if_pos ((commentMark_iff _).mpr ⟨'-' :: '-' :: body, rfl, List.prefix_append ['-', '-'] body⟩)]
      exact ends_comment front body s
  | @declaration mark inner hmark hopen =>
      have hcomment : ¬bytes "<!--".toList <+: bytes ('<' :: mark :: inner) := by
        rw [commentMark_iff]
        rintro ⟨inner', hinner, hdashes⟩
        cases hinner
        exact hopen rfl hdashes
      refine ⟨s.lines, hlines, (ends_behind front _).bind ?_⟩
      rw [if_neg hcomment, if_pos ((declarationMark_iff _).mpr ⟨mark, rfl, hmark⟩), Construct.read_mark hmark hopen]
      exact ends_declaration front (mark :: inner) s
  | @tag c others hc =>
      have hletter : ∀ d ∈ (c :: others).head?, ¬Construct.IsMark d := by
        rintro d ⟨⟩ (rfl | rfl | rfl) <;> exact absurd hc (by decide)
      obtain ⟨hcomment, hmark⟩ := hunmarked hletter
      obtain ⟨lines, hwithin, hstart⟩ := ends_startTag s hc others hlines
      refine ⟨lines, hwithin, (ends_behind front _).bind ?_⟩
      rw [if_neg hcomment, if_neg hmark, if_pos (by simpa [any_isAlpha] using hc)]
      exact hstart
  | nothing hnothing =>
      obtain ⟨hcomment, hmark⟩ := hunmarked fun d hd => (hnothing d hd).1
      have hletter : ¬(bytes ('<' :: cs))[1]?.any Script.Bytewise.isAlpha = true := by
        rw [any_isAlpha, Option.any_eq_true]
        rintro ⟨d, hd, hc⟩
        exact absurd hc (Bool.eq_false_iff.mp (hnothing d hd).2)
      refine ⟨s.lines, hlines, (ends_behind front _).bind ?_⟩
      rw [if_neg hcomment, if_neg hmark, if_neg hletter, Construct.read_nothing hnothing,
        map_made (length_append_singleton (by decide) front).symm rfl]
      exact ends_pure _

/-- What is read from a rest, on the line where it begins and behind what is found already. -/
def readFrom (line : Nat) (found : Structure) (cs : List Char) : Except SyntaxFault Structure :=
  match Construct.readAll cs with
  | (ks, none) => .ok (found.append (Structure.ofConstructs line ks))
  | (ks, some cut) => .error ⟨line + Text.newlines (Construct.writtenAll ks), cut.reason⟩

theorem readFrom_nil (line : Nat) (found : Structure) : readFrom line found [] = .ok found := by
  rw [readFrom, Construct.readAll]
  exact congrArg Except.ok (Structure.append_empty found)

theorem readFrom_cons {k : Construct} (h : Construct.read c cs = .ok (k, rest)) (line : Nat) (found : Structure) :
    readFrom line found (c :: cs) =
      readFrom (line + Text.newlines k.written) (found.append (Structure.ofConstruct line k)) rest := by
  rw [readFrom, Construct.readAll_cons h, readFrom]
  cases Construct.readAll rest with
  | mk ks cut? =>
      cases cut? with
      | none => simp only [Structure.ofConstructs, Structure.append_assoc]
      | some cut => simp only [Construct.writtenAll_cons, newlines_append, Nat.add_assoc]

theorem readFrom_error {cut : Unterminated} (h : Construct.read c cs = .error cut) (line : Nat) (found : Structure) :
    readFrom line found (c :: cs) = .error ⟨line, cut.reason⟩ := by
  rw [readFrom, Construct.readAll_error h]
  rfl

theorem readFrom_text {run : List Char} (h : '<' ∉ run) (line : Nat) (found : Structure) (rest : List Char) :
    readFrom line found (run ++ rest) = readFrom (line + Text.newlines run) found rest := by
  induction run generalizing line with
  | nil => rfl
  | cons c run ih =>
      obtain ⟨hc, hrun⟩ := not_or.mp (List.mem_cons.not.mp h)
      have hfound : found.append (Structure.ofConstruct line (.text c)) = found := Structure.append_empty found
      rw [List.cons_append, readFrom_cons (Construct.read_text (Ne.symm hc) _), hfound, ih hrun, Nat.add_assoc,
        ← newlines_append]
      rfl

/-- What is expected where a reader stands: what it has found, and what is read from the rest. -/
def Reading (text : List Char) (s : Reader) (a : Except SyntaxFault Structure) : Prop :=
  ∃ front cs, text = front ++ cs ∧ s.offset = (bytes front).length ∧ s.lines.Within front ∧
    a = readFrom (1 + Text.newlines front) s.found cs

theorem leads_documentTurn {s : Reader} (htext : text = front ++ cs) (hoffset : s.offset = (bytes front).length)
    (hlines : s.lines.Within front) : Leads Advance.Inside (bytes text) Reader.offset (documentTurn text)
      (Reading text) s (readFrom (1 + Text.newlines front) s.found cs) := by
  have htail : Ends Advance.Inside (between (bytes text) s.offset (bytes text).length) (bytes cs) := by
    rw [htext, hoffset]
    exact ends_behind front cs
  by_cases hbracket : '<' ∈ cs
  · obtain ⟨run, behind, rfl, hrun⟩ := List.eq_append_cons_of_mem hbracket
    have hstart : s.offset + (bytes run).length = (bytes (front ++ run)).length := by
      rw [length_bytes_append, hoffset]
    rw [← List.append_assoc] at htext
    obtain ⟨lines, hwithin, hconstruct⟩ := ends_construct (hlines.append run) behind
    rw [← htext, ← hstart] at hconstruct
    have hturn : Ends Advance.Inside (documentTurn text s) (resumed
        ((made (front ++ run) (Construct.read '<' behind)).map fun p => ⟨p.1, lines, s.found.append p.2⟩)) := by
      refine htail.bind ?_
      rw [find?_char (by decide) run hrun behind]
      exact hconstruct.bind (ends_pure _)
    -- The text in front of the bracket is passed over in the same turn, whatever comes of the construct.
    rw [readFrom_text hrun, Nat.add_assoc, ← newlines_append]
    cases hread : Construct.read '<' behind with
    | error cut =>
        rw [hread] at hturn
        rw [readFrom_error hread]
        exact .stop hturn
    | ok p =>
        obtain ⟨k, rest⟩ := p
        have hread' : text = front ++ run ++ k.written ++ rest := by
          rw [List.append_assoc (front ++ run), Construct.read_written hread, htext]
        have hadvance := inside_characters front (run ++ k.written) rest (hread'.trans (by simp))
          (List.append_ne_nil_of_right_ne_nil run k.written_ne_nil)
        rw [← hoffset, ← List.append_assoc] at hadvance
        rw [hread] at hturn
        rw [readFrom_cons hread, Nat.add_assoc, ← newlines_append]
        exact .next hturn hadvance ⟨_, rest, hread', rfl, hwithin.append k.written, rfl⟩
  · refine .stop (htail.bind ?_)
    have hall := readFrom_text hbracket (1 + Text.newlines front) s.found []
    rw [List.append_nil, readFrom_nil] at hall
    rw [find?_char_none (by decide) hbracket, hall]
    exact ends_pure _

/-- A document is read within the bounds of its text, whatever it looks like. -/
theorem ends_document (text : String) : Ends Advance.Inside (document text.toList) (Structure.read text) := by
  have hread : Structure.read text = readFrom 1 {} text.toList := by
    rw [Structure.read, readFrom]
    cases Construct.readAll text.toList with
    | mk ks cut? => cases cut? <;> rfl
  rw [hread]
  refine ends_loop (Reading text.toList) forward_inside (fun s a h => ?_)
    ⟨[], text.toList, rfl, rfl, Lines.within_self [], rfl⟩
  obtain ⟨front, cs, htext, hoffset, hlines, rfl⟩ := h
  exact leads_documentTurn htext hoffset hlines

end ImportTree.Scan
