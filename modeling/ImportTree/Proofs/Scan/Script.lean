import ImportTree.Proofs.Scan.Document
import ImportTree.Proofs.Scan.Lexemes

/-!
# Scripts by offset

A script is masked byte by byte, with a stack of open brackets. The bytes of one character beyond ASCII are passed over
in as many turns, so that a turn may begin inside a character.
-/

namespace ImportTree.Scan

open Script (Bracket Fault OpenBrackets Piece Unterminated balance blankByte bytes unescapedNewlines)
open Script.Bytewise (isBlank lastBehind regexMayFollow)

variable {P : Advance → Prop} {bs : List UInt8} {b : UInt8} {c : Char} {cs front done body rest : List Char}
  {before : Option Char} {s : Masker}

/-! ## Turns -/

def opening? (b : UInt8) : Option Bracket :=
  [Bracket.round, .square, .curly].find? fun bracket => bracket.opener.toUInt8 == b

def closing? (b : UInt8) : Option Bracket :=
  [Bracket.round, .square, .curly].find? fun bracket => bracket.closer.toUInt8 == b

/-- What becomes of a script in a turn: its scan goes on, or it is masked or refused. -/
abbrev MaskTurn :=
  Turn Masker (Except SyntaxFault (List Char))

def refused (line : Nat) (reason : String) : MaskTurn :=
  .stop (.error ⟨line, reason⟩)

def Masker.passed (s : Masker) (b : UInt8) : Masker :=
  { s.moved 1 0 s.out with last := if isBlank b then s.last else some b }

/-- Passes over a comment, a regular expression or a single slash. -/
def slashTurn (bs : List UInt8) (s : Masker) : Run MaskTurn :=
  if bs[s.offset + 1]? = some '/'.toUInt8 then do
    let s' ← lineComment bs s
    return .next s'
  else if bs[s.offset + 1]? = some '*'.toUInt8 then do
    let out ← store s.out s.offset ' '.toUInt8
    let out ← store out (s.offset + 1) ' '.toUInt8
    match ← blockComment bs (s.moved 2 0 out) with
    | some s' => return .next s'
    | none => return refused s.line Unterminated.comment.reason
  else if regexMayFollow s.last then do
    match ← regexEnd bs s.offset with
    | some last => return .next { s with offset := last, last := some '/'.toUInt8 }
    | none => return .next (s.passed '/'.toUInt8)
  else return .next (s.passed '/'.toUInt8)

def quoteTurn (bs : List UInt8) (s : Masker) (quote : UInt8) (oneLine : Bool) (cut : Unterminated) : Run MaskTurn := do
  match ← literal bs quote oneLine (s.moved 1 0 s.out) with
  | some s' => return .next { s' with last := some quote }
  | none => return refused s.line cut.reason

/-- Passes over a bracket, or a byte that means nothing. -/
def byteTurn (s : Masker) (b : UInt8) : MaskTurn :=
  match opening? b, closing? b with
  | some bracket, _ => .next { s.passed b with opened := (bracket, s.line) :: s.opened }
  | none, some bracket =>
    match s.opened with
    | (expected, openedOn) :: opened =>
      if bracket = expected then .next { s.passed b with opened := opened }
      else refused s.line (Fault.mismatched bracket expected openedOn).reason
    | [] => refused s.line (Fault.unexpected bracket).reason
  | none, none => .next (s.passed b)

/-- The end of a script, which has to leave no bracket open. -/
def finish (s : Masker) : Except SyntaxFault (List Char) :=
  match s.opened with
  | (bracket, openedOn) :: _ => .error ⟨openedOn, (Fault.unclosed bracket).reason⟩
  | [] => .ok (Text.Utf8.decodeLossy s.out)

def maskTurn (bs : List UInt8) (s : Masker) : Run MaskTurn :=
  if s.offset < bs.length then do
    let b ← byteAt bs s.offset
    if b = '\n'.toUInt8 then return .next (s.moved 1 1 s.out)
    else if b = '/'.toUInt8 then slashTurn bs s
    else if b = '\''.toUInt8 ∨ b = '"'.toUInt8 then quoteTurn bs s b true .string
    else if b = '`'.toUInt8 then quoteTurn bs s b false .template
    else return byteTurn s b
  else return .stop (finish s)

def mask (text : List Char) : Run (Except SyntaxFault (List Char)) :=
  loop (bytes text) Masker.offset (maskTurn (bytes text)) ⟨0, bytes text, [], 1, none⟩

/-! ## Pieces -/

/-- What becomes of a script whose scan stands in front of a piece, or of one that does not end. -/
def turned (s : Masker) (done : List Char) (b : UInt8) : Except Unterminated (Piece × List Char) → MaskTurn
  | .ok (p, rest) =>
    match balance s.line s.opened [p] with
    | .ok (line, opened) =>
      .next ⟨s.offset + (bytes p.written).length, bytes (done ++ p.masked ++ rest), opened, line, lastBehind s.last b p⟩
    | .error (line, fault) => refused line fault.reason
  | .error cut => refused s.line cut.reason

/-- Whether a scan stands behind some characters, in front of others that are as they are in the script. -/
structure Masker.Stands (s : Masker) (front done cs : List Char) (before : Option Char) : Prop where
  offset : s.offset = (bytes front).length
  out : s.out = bytes (done ++ cs)
  length : (bytes done).length = (bytes front).length
  last : regexMayFollow s.last = Piece.regexMayFollow before

namespace Masker.Stands

theorem behind (h : s.Stands front done cs before) : s.Behind (bytes front) (bytes done) (bytes cs) where
  offset := h.offset
  out := h.out.trans (Script.bytes_append done cs)
  length := h.length

theorem getElem? (h : s.Stands front done (c :: cs) before) (hc : c.toNat < 0x80) :
    (bytes (front ++ c :: cs))[s.offset]? = some c.toUInt8 := by
  rw [h.offset, getElem?_bytes, Script.bytes_cons_ascii hc, List.head?_cons]

theorem drop_succ (h : s.Stands front done (c :: cs) before) (hc : c.toNat < 0x80) :
    (bytes (front ++ c :: cs)).drop (s.offset + 1) = bytes cs := by
  rw [h.offset, ← length_append_singleton hc, List.append_cons front c cs, Script.bytes_append _ cs, List.drop_left]

end Masker.Stands

/-- A piece that is no bracket only moves a scan on. -/
theorem turned_plain {p : Piece} (hp : balance s.line s.opened [p] = .ok (s.line + p.newlines, s.opened)) :
    turned s done b (.ok (p, rest)) = .next
      { s.moved (bytes p.written).length p.newlines (bytes (done ++ p.masked ++ rest)) with
        last := lastBehind s.last b p } := by
  rw [turned, hp]
  rfl

/-- A single byte is passed over as the piece that it is. -/
theorem passed_eq (h : s.Stands front done (c :: cs) before) (hc : c.toNat < 0x80) : s.passed c.toUInt8 =
    { s.moved (bytes [c]).length 0 (bytes (done ++ [c] ++ cs)) with
      last := if isBlank c.toUInt8 then s.last else some c.toUInt8 } := by
  have hone : (bytes [c]).length = 1 := by
    rw [Script.bytes_cons_ascii hc]
    rfl
  rw [Masker.passed, hone, h.out, List.append_cons done c cs]

/-! ## Literals -/

theorem unescapedLines_high {hs : List UInt8} (h : Script.High hs) (bs : List UInt8) :
    unescapedLines (hs ++ bs) = unescapedLines bs := by
  induction hs with
  | nil => rfl
  | cons b hs ih =>
      obtain ⟨hb, hs⟩ := List.forall_mem_cons.mp h
      rw [List.cons_append, unescapedLines_plain (Script.ne_toUInt8 hb (by decide)),
        if_neg (Script.ne_toUInt8 hb (by decide)), Nat.zero_add, ih hs]

theorem unescapedLines_utf8EncodeChar (h : c ≠ '\\') (bs : List UInt8) :
    unescapedLines (String.utf8EncodeChar c ++ bs) = (if c = '\n' then 1 else 0) + unescapedLines bs := by
  by_cases hc : c.toNat < 0x80
  · have hiff (d : Char) (hd : d.toNat < 0x80) : c.toUInt8 = d.toUInt8 ↔ c = d := Script.toUInt8_eq_iff hc hd
    rw [Script.utf8EncodeChar_ascii hc, List.singleton_append,
      unescapedLines_plain ((hiff '\\' (by decide)).not.mpr h)]
    simp only [hiff '\n' (by decide)]
  · have hline : c ≠ '\n' := by
      rintro rfl
      exact hc (by decide)
    rw [unescapedLines_high (Script.high_utf8EncodeChar hc), if_neg hline, Nat.zero_add]

/-- A jump into the middle of a character passes over no line feed. -/
theorem unescapedLines_bytes (cs : List Char) : unescapedLines (bytes cs) = unescapedNewlines cs := by
  have hnil : unescapedLines (bytes []) = 0 := by rw [bytes, List.flatMap_nil, unescapedLines]
  induction cs using Script.escapedNewlines.induct with
  | case1 => exact hnil
  | case2 c =>
      by_cases hc : c = '\\'
      · subst hc
        exact (unescapedLines_escape []).trans hnil
      · rw [Script.bytes_cons, unescapedLines_utf8EncodeChar hc, hnil]
        rfl
  | case3 d cs ih =>
      obtain ⟨b, hs, hbytes, hhigh⟩ := Script.utf8EncodeChar_cons d
      rw [Script.bytes_backslash, hbytes, unescapedLines_escape, List.cons_append, List.tail_cons,
        unescapedLines_high hhigh, ih, unescapedNewlines, if_pos rfl]
  | case4 c d cs hc ih =>
      rw [Script.bytes_cons, unescapedLines_utf8EncodeChar hc, ih, Script.unescapedNewlines_cons hc]

theorem unescapedNewlines_quote {quote : Char} {oneLine : Bool} (hline : quote ≠ '\n')
    (h : Piece.cutQuote? quote oneLine cs = some (body, rest)) :
    unescapedNewlines (body ++ [quote]) = unescapedNewlines body := by
  fun_induction Piece.cutQuote? quote oneLine cs generalizing body with
  | case1 => cases h
  | case2 =>
      cases h
      exact if_neg hline
  | case3 => cases h
  | case4 d cs body' rest' hcut ih =>
      cases h
      rw [List.cons_append, List.cons_append, unescapedNewlines, if_pos rfl, ih hcut, unescapedNewlines, if_pos rfl]
  | case5 => cases h
  | case6 =>
      cases h
      exact if_neg hline
  | case7 => cases h
  | case8 c d cs hescape hc hend body' rest' hcut ih =>
      cases h
      rw [List.cons_append, Script.unescapedNewlines_cons hescape, ih hcut, Script.unescapedNewlines_cons hescape]
  | case9 => cases h

section Quotes

variable {quote : Char} {oneLine : Bool}

/-- A literal is passed over with its quotes, and its lines are counted as they are in its characters. -/
theorem ends_quoteTurn (h : s.Stands front done (quote :: cs) before) (hquote : quote.toNat < 0x80)
    (hescape : quote ≠ '\\') (hline : quote ≠ '\n') (oneLine : Bool) (cut : Unterminated) :
    Ends Advance.Escaping (quoteTurn (bytes (front ++ quote :: cs)) s quote.toUInt8 oneLine cut)
      (match Piece.cutQuote? quote oneLine cs with
        | some (body, _) => .next { s.moved ((bytes body).length + 2) (unescapedNewlines body) s.out with
            last := some quote.toUInt8 }
        | none => refused s.line cut.reason) := by
  have hquote' : quote.toUInt8 ≠ '\n'.toUInt8 := (Script.toUInt8_eq_iff hquote (by decide)).not.mpr hline
  have hliteral := ends_literal (bytes (front ++ quote :: cs)) hquote' oneLine (s.moved 1 0 s.out)
  have hdrop : (bytes (front ++ quote :: cs)).drop (s.moved 1 0 s.out).offset = bytes cs := h.drop_succ hquote
  rw [hdrop, Script.Bytewise.quoteEnd?_bytes hquote hescape hline] at hliteral
  rw [quoteTurn]
  refine hliteral.bind ?_
  cases hcut : Piece.cutQuote? quote oneLine cs with
  | none => exact ends_pure _
  | some cut =>
      obtain ⟨body, rest⟩ := cut
      have hbytes : (bytes cs).take ((bytes body).length + 1) = bytes (body ++ [quote]) := by
        rw [← length_append_singleton hquote, ← Piece.cutQuote?_append hcut, List.append_cons body quote rest,
          Script.bytes_append _ rest, List.take_left]
      have hlines : unescapedLines ((bytes cs).take ((bytes body).length + 1)) = unescapedNewlines body := by
        rw [hbytes, unescapedLines_bytes, unescapedNewlines_quote hline hcut]
      dsimp only [Option.map_some]
      rw [Masker.moved_moved, hlines, Nat.add_comm 1, Nat.zero_add]
      exact ends_pure _

/-- A literal that is passed over leaves its bytes as they are. -/
theorem turned_quoted {p : Piece} (h : s.Stands front done (quote :: cs) before) (hquote : quote.toNat < 0x80)
    (hcut : Piece.cutQuote? quote oneLine cs = some (body, rest)) (hwritten : p.written = quote :: (body ++ [quote]))
    (hmasked : p.masked = p.written) (hlines : p.newlines = unescapedNewlines body)
    (hp : balance s.line s.opened [p] = .ok (s.line + p.newlines, s.opened)) (hlast : lastBehind s.last b p = some b) :
    turned s done b (.ok (p, rest)) = .next { s.moved ((bytes body).length + 2) (unescapedNewlines body) s.out with
      last := some b } := by
  have hlength : (bytes p.written).length = (bytes body).length + 2 := by
    rw [hwritten, Script.bytes_cons_ascii hquote, List.length_cons, length_append_singleton hquote]
  have hout : bytes (done ++ p.masked ++ rest) = s.out := by
    rw [h.out, hmasked, hwritten, ← Piece.cutQuote?_append hcut]
    simp
  rw [turned_plain hp, hlength, hlines, hout, hlast]

/-- A literal is passed over as the piece that it is, or refused. -/
theorem ends_quoteTurn_turned (h : s.Stands front done (quote :: cs) before) (hquote : quote.toNat < 0x80)
    (hescape : quote ≠ '\\') (hline : quote ≠ '\n') (cut : Unterminated) (piece : List Char → Piece)
    (hwritten : ∀ body, (piece body).written = quote :: (body ++ [quote]))
    (hmasked : ∀ body, (piece body).masked = (piece body).written)
    (hlines : ∀ body rest, Piece.cutQuote? quote oneLine cs = some (body, rest) →
      (piece body).newlines = unescapedNewlines body)
    (hpiece : ∀ body, balance s.line s.opened [piece body] = .ok (s.line + (piece body).newlines, s.opened))
    (hlast : ∀ body, lastBehind s.last quote.toUInt8 (piece body) = some quote.toUInt8) :
    Ends Advance.Escaping (quoteTurn (bytes (front ++ quote :: cs)) s quote.toUInt8 oneLine cut)
      (turned s done quote.toUInt8 (match Piece.cutQuote? quote oneLine cs with
        | some (body, rest) => .ok (piece body, rest)
        | none => .error cut)) := by
  have hturn := ends_quoteTurn h hquote hescape hline oneLine cut
  cases hcut : Piece.cutQuote? quote oneLine cs with
  | none =>
      rw [hcut] at hturn
      exact hturn
  | some read =>
      obtain ⟨body, rest⟩ := read
      rw [hcut] at hturn
      dsimp only at hturn ⊢
      rw [turned_quoted h hquote hcut (hwritten body) (hmasked body) (hlines body rest hcut) (hpiece body) (hlast body)]
      exact hturn

end Quotes

/-! ## Slashes -/

theorem newline_notMem_bytes (h : '\n' ∉ cs) : '\n'.toUInt8 ∉ bytes cs := by
  rw [← List.count_eq_zero, Script.count_bytes]
  exact List.count_eq_zero.mpr h

theorem bytes_masked_comment {p : Piece} (h : p.isComment = true) (done rest : List Char) :
    bytes (done ++ p.masked ++ rest) = bytes done ++ ((bytes p.written).map blankByte ++ bytes rest) := by
  rw [Piece.masked_of_isComment h, Script.bytes_append, Script.bytes_append, Script.bytes_flatMap_blankOut,
    List.append_assoc]

/-- Both slashes of a line comment are blanked with what is left of the line. -/
theorem ends_lineComment_slash (h : s.Stands front done ('/' :: '/' :: cs) before) :
    Ends Advance.Escaping (slashTurn (bytes (front ++ '/' :: '/' :: cs)) s)
      (turned s done '/'.toUInt8 (Piece.readSlash before ('/' :: cs))) := by
  obtain ⟨body, rest, rfl, hbody, hrest⟩ := exists_run (· != '\n') cs
  have hread : Piece.readSlash before ('/' :: (body ++ rest)) = .ok (.lineComment body, rest) := by
    rw [Piece.readSlash, takeWhile_run hbody hrest, dropWhile_run hbody hrest]
  have hwritten : '/' :: '/' :: (body ++ rest) = (Piece.lineComment body).written ++ rest := rfl
  have hline : '\n' ∉ (Piece.lineComment body).written := by
    simp only [Piece.written, List.mem_cons, not_or]
    exact ⟨by decide, by decide, fun hmem => absurd (hbody '\n' hmem) (by decide)⟩
  have hstop : ∀ b ∈ (bytes rest).head?, b = '\n'.toUInt8 := by
    cases rest with
    | nil => rintro b ⟨⟩
    | cons c rest =>
        obtain rfl : c = '\n' := by simpa using hrest c rfl
        rintro b ⟨⟩
        rfl
  have hbehind := h.behind
  rw [hwritten, Script.bytes_append] at hbehind
  have hcomment := ends_lineComment hbehind (newline_notMem_bytes hline) hstop
  rw [← Script.bytes_append, ← Script.bytes_append, ← hwritten] at hcomment
  have hnext : (bytes (front ++ '/' :: '/' :: (body ++ rest)))[s.offset + 1]? = some '/'.toUInt8 := by
    rw [← List.head?_drop, h.drop_succ (by decide)]
    rfl
  rw [hread, turned_plain rfl, slashTurn, if_pos hnext, bytes_masked_comment rfl]
  exact (hcomment.mono fun _ => Advance.Inside.escaping).bind (ends_pure _)

theorem ends_blockComment_slash (h : s.Stands front done ('/' :: '*' :: cs) before) :
    Ends Advance.Escaping (slashTurn (bytes (front ++ '/' :: '*' :: cs)) s)
      (turned s done '/'.toUInt8 (Piece.readSlash before ('*' :: cs))) := by
  have hnext : (bytes (front ++ '/' :: '*' :: cs))[s.offset + 1]? = some '*'.toUInt8 := by
    rw [← List.head?_drop, h.drop_succ (by decide)]
    rfl
  have hbehind : s.Behind (bytes front) (bytes done) ('/'.toUInt8 :: '*'.toUInt8 :: bytes cs) := h.behind
  have hslash := hbehind.step 0
  have hstar := hslash.step 0
  rw [Masker.moved_moved] at hstar
  have hcomment := (ends_blockComment hstar).mono fun _ => Advance.Inside.escaping
  have htext : bytes front ++ ['/'.toUInt8] ++ ['*'.toUInt8] ++ bytes cs = bytes (front ++ '/' :: '*' :: cs) := by
    rw [List.append_assoc, List.append_assoc, Script.bytes_append]
    rfl
  rw [htext, Masker.blanked, Script.Bytewise.commentEnd?_bytes] at hcomment
  rw [slashTurn, if_neg (by simp [hnext]; decide), if_pos hnext, Piece.readSlash]
  refine (hbehind.ends_store _).bind ((hslash.ends_store _).bind (hcomment.bind ?_))
  cases hcut : Text.cutAround? ['*', '/'] cs with
  | none => exact ends_pure _
  | some cut =>
      obtain ⟨body, rest⟩ := cut
      have hbody : bytes cs = bytes (body ++ ['*', '/']) ++ bytes rest := by
        rw [← Text.cutAround?_append hcut, Script.bytes_append]
      have hlength : (bytes body).length + 2 = (bytes (body ++ ['*', '/'])).length := by
        rw [length_bytes_append]
        rfl
      dsimp only [Option.map_some]
      rw [hbody, hlength, List.take_left, List.drop_left, Script.count_bytes, turned_plain rfl, Masker.moved_moved,
        bytes_masked_comment rfl]
      have hlines : (body ++ ['*', '/']).count '\n' = Text.newlines body := by
        rw [List.count_append]
        rfl
      have hwritten : bytes (Piece.blockComment body).written =
          '/'.toUInt8 :: '*'.toUInt8 :: bytes (body ++ ['*', '/']) := rfl
      rw [hlines, hwritten, Nat.add_comm (1 + 1), Nat.zero_add, List.append_assoc, List.append_assoc]
      exact ends_pure _

/-- A slash with no comment begins a regular expression, if one may stand here and ends, or it is a single one. -/
theorem ends_slashTurn (h : s.Stands front done ('/' :: cs) before) :
    Ends Advance.Escaping (slashTurn (bytes (front ++ '/' :: cs)) s)
      (turned s done '/'.toUInt8 (Piece.readSlash before cs)) := by
  by_cases hcomment : ∀ c ∈ cs.head?, c ≠ '/' ∧ c ≠ '*'
  · have hnext (d : Char) (hd : d.toNat < 0x80) (hcs : ∀ c ∈ cs.head?, c ≠ d) :
        ¬(bytes (front ++ '/' :: cs))[s.offset + 1]? = some d.toUInt8 := by
      rw [← List.head?_drop, h.drop_succ (by decide), Script.head?_bytes hd]
      exact fun hhead => hcs d hhead rfl
    have hpassed : Turn.next (s.passed '/'.toUInt8) = turned s done '/'.toUInt8 (.ok (.other '/', cs)) := by
      rw [turned_plain rfl, passed_eq h (by decide)]
      rfl
    rw [slashTurn, if_neg (hnext '/' (by decide) fun c hc => (hcomment c hc).1),
      if_neg (hnext '*' (by decide) fun c hc => (hcomment c hc).2), Piece.readSlash_eq hcomment, h.last]
    cases Piece.regexMayFollow before with
    | false => exact hpassed ▸ ends_pure _
    | true =>
        have hregex := ends_regexEnd (bytes (front ++ '/' :: cs)) s.offset
        rw [h.drop_succ (by decide), Script.Bytewise.regexEnd?_bytes] at hregex
        rw [if_pos rfl, if_pos rfl]
        -- What is no regular expression in the end is passed over as a single slash.
        refine hregex.bind ?_
        cases hcut : Piece.cutRegex? false cs with
        | none => exact hpassed ▸ ends_pure _
        | some cut =>
            obtain ⟨body, rest⟩ := cut
            have hcs : cs = body ++ '/' :: rest.takeWhile Char.isAlpha ++ rest.dropWhile Char.isAlpha := by
              simp [← Piece.cutRegex?_append hcut]
            have hout : s.out = bytes (done ++ '/' :: (body ++ '/' :: rest.takeWhile Char.isAlpha) ++
                rest.dropWhile Char.isAlpha) := by
              rw [h.out, hcs]
              simp
            have hlength : s.offset + 1 + ((bytes body).length + (1 + (bytes (rest.takeWhile Char.isAlpha)).length)) =
                s.offset + (bytes ('/' :: (body ++ '/' :: rest.takeWhile Char.isAlpha))).length := by
              rw [Script.bytes_cons_ascii (by decide), Script.bytes_append, Script.bytes_cons_ascii (by decide),
                List.length_cons, List.length_append, List.length_cons]
              omega
            rw [turned_plain rfl]
            dsimp only [Option.map_some, Piece.masked, Piece.written]
            rw [hlength, ← hout]
            exact ends_pure _
  · simp only [not_forall, not_and_or, not_not] at hcomment
    obtain ⟨c, hc, rfl | rfl⟩ := hcomment
    · obtain ⟨cs, rfl⟩ := List.head?_eq_some_iff.mp hc
      exact ends_lineComment_slash h
    · obtain ⟨cs, rfl⟩ := List.head?_eq_some_iff.mp hc
      exact ends_blockComment_slash h

/-! ## Single characters -/

theorem opening?_toUInt8 (hc : c.toNat < 0x80) : opening? c.toUInt8 = Piece.opened? c :=
  Script.forall_ascii (P := fun c => opening? c.toUInt8 = Piece.opened? c) (by decide +kernel) hc

theorem closing?_toUInt8 (hc : c.toNat < 0x80) : closing? c.toUInt8 = Piece.closed? c :=
  Script.forall_ascii (P := fun c => closing? c.toUInt8 = Piece.closed? c) (by decide +kernel) hc

theorem byteTurn_blank (h : s.Stands front done (c :: cs) before) (hblank : Text.isAsciiBlank c = true)
    (hline : c ≠ '\n') : byteTurn s c.toUInt8 = turned s done c.toUInt8 (.ok (.blank c, cs)) := by
  have hc : c.toNat < 0x80 := by
    by_contra hc
    rw [not_blank_of_high hc] at hblank
    cases hblank
  have hnone : opening? c.toUInt8 = none ∧ closing? c.toUInt8 = none ∧ isBlank c.toUInt8 = true := by
    simp only [Text.isAsciiBlank, Bool.or_eq_true, beq_iff_eq, or_assoc] at hblank
    rcases hblank with rfl | rfl | rfl | rfl | rfl <;> decide
  obtain ⟨hopening, hclosing, hblank⟩ := hnone
  have hlines : (Piece.blank c).newlines = 0 := if_neg hline
  rw [byteTurn, hopening, hclosing, turned_plain rfl, hlines, passed_eq h hc, hblank]
  rfl

/-- A character that is no blank and begins no longer piece is a bracket or means nothing. -/
theorem byteTurn_solid (h : s.Stands front done (c :: cs) before) (hc : c.toNat < 0x80)
    (hblank : Text.isAsciiBlank c = false) : byteTurn s c.toUInt8 = turned s done c.toUInt8
      (match Piece.opened? c, Piece.closed? c with
        | some bracket, _ => .ok (.opening bracket, cs)
        | none, some bracket => .ok (.closing bracket, cs)
        | none, none => .ok (.other c, cs)) := by
  have hsolid : isBlank c.toUInt8 = false := by
    have hbyte := blank_utf8EncodeChar c c.toUInt8 (Script.utf8EncodeChar_ascii hc ▸ List.mem_singleton_self _)
    rw [hbyte, hblank]
  have hpassed := passed_eq h hc
  rw [hsolid] at hpassed
  rw [byteTurn, opening?_toUInt8 hc, closing?_toUInt8 hc, hpassed]
  cases hopened : Piece.opened? c with
  | some bracket =>
      obtain rfl := Piece.opener_of_opened? hopened
      rfl
  | none =>
      cases hclosed : Piece.closed? c with
      | some bracket =>
          obtain rfl := Piece.closer_of_closed? hclosed
          cases hstack : s.opened with
          | nil =>
              rw [turned, hstack]
              rfl
          | cons innermost opened =>
              obtain ⟨expected, openedOn⟩ := innermost
              rw [turned, hstack]
              dsimp only
              by_cases hbracket : bracket = expected
              · have hbalance : balance s.line ((expected, openedOn) :: opened) [.closing bracket] =
                    .ok (s.line, opened) := if_pos hbracket
                rw [if_pos hbracket, hbalance]
                rfl
              · have hbalance : balance s.line ((expected, openedOn) :: opened) [.closing bracket] =
                    .error (s.line, .mismatched bracket expected openedOn) := if_neg hbracket
                rw [if_neg hbracket, hbalance]
      | none => rfl

/-- From the first character of a piece a scan comes behind the whole piece. -/
theorem ends_maskTurn (h : s.Stands front done (c :: cs) before) (hc : c.toNat < 0x80) :
    Ends Advance.Escaping (maskTurn (bytes (front ++ c :: cs)) s)
      (turned s done c.toUInt8 (Piece.read before c cs)) := by
  have hbyte := h.getElem? hc
  obtain ⟨hinside, -⟩ := List.getElem?_eq_some_iff.mp hbyte
  have hiff (d : Char) (hd : d.toNat < 0x80) : c.toUInt8 = d.toUInt8 ↔ c = d := Script.toUInt8_eq_iff hc hd
  rw [maskTurn, if_pos hinside]
  refine (ends_byteAt hbyte).bind ?_
  simp only [hiff '\n' (by decide), hiff '/' (by decide), hiff '\'' (by decide), hiff '"' (by decide),
    hiff '`' (by decide)]
  by_cases hline : c = '\n'
  · subst hline
    have hblank : (Piece.blank '\n').masked = ['\n'] := rfl
    rw [if_pos rfl, Piece.read_blank (by decide), turned_plain rfl, hblank, ← List.append_cons, ← h.out]
    exact ends_pure _
  rw [if_neg hline, Piece.read]
  split
  next hslash =>
    subst hslash
    exact ends_slashTurn h
  split
  next hquote =>
    have hescape : c ≠ '\\' := by rcases hquote with rfl | rfl <;> decide
    exact ends_quoteTurn_turned h hc hescape hline .string (.string c) (fun _ => rfl) (fun _ => rfl)
      (fun _ _ hcut => (Piece.unescapedNewlines_of_cutQuote? hcut).symm) (fun _ => rfl) (fun _ => rfl)
  split
  next htick =>
    subst htick
    exact ends_quoteTurn_turned h hc (by decide) hline .template .template (fun _ => rfl) (fun _ => rfl)
      (fun _ _ _ => rfl) (fun _ => rfl) (fun _ => rfl)
  split
  next hblank => exact byteTurn_blank h hblank hline ▸ ends_pure _
  next hblank => exact byteTurn_solid h hc (Bool.not_eq_true _ ▸ hblank) ▸ ends_pure _

/-- A byte of a character beyond ASCII means nothing. -/
theorem ends_maskTurn_high (hbyte : bs[s.offset]? = some b) (hb : 0x80 ≤ b.toNat) :
    Ends P (maskTurn bs s) (.next { s.moved 1 0 s.out with last := some b }) := by
  have hne (d : Char) (hd : d.toNat < 0x80) : b ≠ d.toUInt8 := Script.ne_toUInt8 hb hd
  have hbracket : opening? b = none ∧ closing? b = none ∧ isBlank b = false :=
    forall_byte (P := fun b => 0x80 ≤ b.toNat → opening? b = none ∧ closing? b = none ∧ isBlank b = false)
      (by decide +kernel) b hb
  obtain ⟨hopening, hclosing, hblank⟩ := hbracket
  have hturn : byteTurn s b = .next { s.moved 1 0 s.out with last := some b } := by
    rw [byteTurn, hopening, hclosing, Masker.passed, hblank]
    rfl
  obtain ⟨hinside, -⟩ := List.getElem?_eq_some_iff.mp hbyte
  rw [maskTurn, if_pos hinside]
  refine (ends_byteAt hbyte).bind ?_
  rw [if_neg (hne _ (by decide)), if_neg (hne _ (by decide)),
    if_neg (not_or.mpr ⟨hne _ (by decide), hne _ (by decide)⟩), if_neg (hne _ (by decide)), hturn]
  exact ends_pure _

/-! ## Whole scripts -/

/-- What is masked from a rest, on the line where it begins, with the brackets that are open and what is masked. -/
def maskFrom (line : Nat) (opened : OpenBrackets) (done : List Char) (before : Option Char) (cs : List Char) :
    Except SyntaxFault (List Char) :=
  match balance line opened (Piece.readAll before cs).1, (Piece.readAll before cs).2 with
  | .error (line, fault), _ => .error ⟨line, fault.reason⟩
  | .ok (line, _), some cut => .error ⟨line, cut.reason⟩
  | .ok (_, (bracket, openedOn) :: _), none => .error ⟨openedOn, (Fault.unclosed bracket).reason⟩
  | .ok (_, []), none => .ok (done ++ (Piece.readAll before cs).1.flatMap Piece.masked)

theorem maskFrom_start (text : String) : maskFrom 1 [] [] none text.toList = Script.mask text := by
  rw [maskFrom, Script.mask, Script.pieces?]
  obtain ⟨ps, cut?⟩ := Piece.readAll none text.toList
  dsimp only
  cases balance 1 [] ps with
  | error fault => rfl
  | ok state =>
      obtain ⟨line, opened⟩ := state
      cases cut? with
      | some cut => rfl
      | none => cases opened <;> rfl

theorem maskFrom_nil (hout : Text.Utf8.decodeLossy s.out = done) (line : Nat) (before : Option Char) :
    maskFrom line s.opened done before [] = finish s := by
  rw [maskFrom, Piece.readAll, finish, hout]
  cases s.opened with
  | nil => simp [balance]
  | cons innermost opened => rfl

theorem maskFrom_cut {cut : Unterminated} (h : Piece.read before c cs = .error cut) (line : Nat)
    (opened : OpenBrackets) : maskFrom line opened done before (c :: cs) = .error ⟨line, cut.reason⟩ := by
  rw [maskFrom, Piece.readAll_cut h]
  rfl

theorem maskFrom_cons {p : Piece} (h : Piece.read before c cs = .ok (p, rest)) (line : Nat) (opened : OpenBrackets) :
    maskFrom line opened done before (c :: cs) = match balance line opened [p] with
      | .ok (line, opened) => maskFrom line opened (done ++ p.masked) (p.significant? before) rest
      | .error (line, fault) => .error ⟨line, fault.reason⟩ := by
  have hbalance (ps : List Piece) : balance line opened (p :: ps) = _ := Script.balance_append [p] ps
  rw [maskFrom, Piece.readAll_cons h, hbalance]
  cases balance line opened [p] with
  | error fault => rfl
  | ok state => simp only [Except.bind, maskFrom, List.flatMap_cons, List.append_assoc]

/-- Whether a scan stands behind some characters, or inside the last of them with some of its bytes still ahead. -/
structure Masker.Amid (s : Masker) (front done cs : List Char) (before : Option Char) (pre ahead : List UInt8) :
    Prop where
  split : bytes front = pre ++ ahead
  high : Script.High ahead
  offset : s.offset = pre.length
  out : s.out = bytes (done ++ cs)
  length : (bytes done).length = (bytes front).length
  last : ahead = [] → regexMayFollow s.last = Piece.regexMayFollow before
  inside : ahead ≠ [] → Piece.regexMayFollow before = false

/-- What is expected where a scan stands. -/
def Masking (text : List Char) (s : Masker) (a : Except SyntaxFault (List Char)) : Prop :=
  ∃ front done cs before pre ahead, text = front ++ cs ∧ s.Amid front done cs before pre ahead ∧
    a = maskFrom s.line s.opened done before cs

section Leads

variable {text : List Char} {pre ahead : List UInt8}

theorem leads_ahead (htext : text = front ++ cs) (h : s.Amid front done cs before pre (b :: ahead)) :
    Leads Advance.Escaping (bytes text) Masker.offset (maskTurn (bytes text)) (Masking text) s
      (maskFrom s.line s.opened done before cs) := by
  obtain ⟨hb, hahead⟩ := List.forall_mem_cons.mp h.high
  have hbyte : (bytes text)[s.offset]? = some b := by
    rw [htext, Script.bytes_append, h.split, h.offset]
    simp
  refine .next (ends_maskTurn_high hbyte hb) (escaping_step hbyte) ⟨front, done, cs, before, pre ++ [b], ahead, htext,
    ⟨?_, hahead, ?_, h.out, h.length, fun _ => ?_, fun _ => ?_⟩, rfl⟩
  · rw [h.split, List.append_cons]
  · rw [List.length_append, ← h.offset]
    rfl
  · exact (Script.Bytewise.regexMayFollow_high hb).trans (h.inside (List.cons_ne_nil b ahead)).symm
  · exact h.inside (List.cons_ne_nil b ahead)

theorem length_masked (p : Piece) : (bytes p.masked).length = (bytes p.written).length := by
  rw [← p.shown_cells, Piece.cells, Script.Cell.ofBytes, List.length_map, List.length_map]

theorem leads_ascii (htext : text = front ++ c :: cs) (h : s.Stands front done (c :: cs) before) (hc : c.toNat < 0x80) :
    Leads Advance.Escaping (bytes text) Masker.offset (maskTurn (bytes text)) (Masking text) s
      (maskFrom s.line s.opened done before (c :: cs)) := by
  have hturn := ends_maskTurn h hc
  rw [← htext] at hturn
  cases hread : Piece.read before c cs with
  | error cut =>
      rw [hread] at hturn
      rw [maskFrom_cut hread]
      exact .stop hturn
  | ok read =>
      obtain ⟨p, rest⟩ := read
      rw [hread, turned] at hturn
      rw [maskFrom_cons hread]
      cases hbalance : balance s.line s.opened [p] with
      | error fault =>
          rw [hbalance] at hturn
          exact .stop hturn
      | ok state =>
          rw [hbalance] at hturn
          have htext' : text = front ++ p.written ++ rest := by
            rw [htext, List.append_assoc, Piece.read_written hread]
          have hoffset : s.offset + (bytes p.written).length = (bytes (front ++ p.written)).length := by
            rw [h.offset, length_bytes_append]
          have hadvance := inside_characters front p.written rest (htext'.trans (List.append_assoc ..)) p.written_ne_nil
          rw [← hoffset, ← h.offset] at hadvance
          refine .next hturn hadvance.escaping ⟨front ++ p.written, done ++ p.masked, rest, p.significant? before,
            bytes (front ++ p.written), [], htext',
            ⟨(List.append_nil _).symm, by simp [Script.High], hoffset, rfl, ?_, fun _ => ?_, ?_⟩, rfl⟩
          · rw [length_bytes_append, length_bytes_append, h.length, length_masked]
          · exact Script.Bytewise.lastBehind_read hc h.last hread
          · exact fun hne => absurd rfl hne

theorem leads_maskTurn (htext : text = front ++ cs) (h : s.Amid front done cs before pre ahead) :
    Leads Advance.Escaping (bytes text) Masker.offset (maskTurn (bytes text)) (Masking text) s
      (maskFrom s.line s.opened done before cs) := by
  cases ahead with
  | cons b ahead => exact leads_ahead htext h
  | nil =>
      have hfront : bytes front = pre := by rw [h.split, List.append_nil]
      have hstands : s.Stands front done cs before :=
        ⟨h.offset.trans (congrArg List.length hfront.symm), h.out, h.length, h.last rfl⟩
      cases cs with
      | nil =>
          have hout : Text.Utf8.decodeLossy s.out = done := by
            rw [h.out, List.append_nil, Script.bytes_eq_encode, Text.Utf8.decodeLossy_encode]
          refine .stop ?_
          rw [maskFrom_nil hout, maskTurn, if_neg (by simp [htext, hstands.offset])]
          exact ends_pure _
      | cons c cs =>
          by_cases hc : c.toNat < 0x80
          · exact leads_ascii htext hstands hc
          · -- The character is read at once, and its bytes are passed over one by one.
            have hread : maskFrom s.line s.opened done before (c :: cs) =
                maskFrom s.line s.opened (done ++ [c]) (some c) cs :=
              maskFrom_cons (Script.Bytewise.read_high hc cs) _ _
            have hchar (cs : List Char) : bytes (cs ++ [c]) = bytes cs ++ String.utf8EncodeChar c := by
              rw [Script.bytes_append, Script.bytes_cons]
              simp [bytes]
            have hamid : s.Amid (front ++ [c]) (done ++ [c]) cs (some c) (bytes front) (String.utf8EncodeChar c) := by
              refine ⟨hchar front, Script.high_utf8EncodeChar hc, hstands.offset, ?_, ?_, fun hnil => ?_, fun _ => ?_⟩
              · rw [hstands.out, List.append_cons]
              · rw [length_bytes_append, length_bytes_append, hstands.length]
              · exact absurd hnil (by simp [← List.length_eq_zero_iff, c.utf8Size_pos.ne'])
              · exact decide_eq_false (Script.Bytewise.notMem_of_high hc (by decide))
            obtain ⟨b, hs, hbytes, -⟩ := Script.utf8EncodeChar_cons c
            rw [List.append_cons] at htext
            rw [hread]
            exact leads_ahead htext (hbytes ▸ hamid)

end Leads

/-- A script is masked with no access beyond its bytes, whatever it looks like. -/
theorem ends_mask (text : String) : Ends Advance.Escaping (mask text.toList) (Script.mask text) := by
  rw [← maskFrom_start]
  refine ends_loop (Masking text.toList) forward_escaping (fun s a h => ?_)
    ⟨[], [], text.toList, none, [], [], rfl, ?_, rfl⟩
  · obtain ⟨front, done, cs, before, pre, ahead, htext, hamid, rfl⟩ := h
    exact leads_maskTurn htext hamid
  · exact ⟨rfl, (by simp [Script.High]), rfl, rfl, rfl, fun _ => rfl, fun h => absurd rfl h⟩

/-! ## All readers -/

/-- Every reader by offset comes to an end on every text, with the result of the reader of its characters. No part that
it takes is out of range or cuts a character, and no byte that it takes is missing. Every turn of its loops moves
forward. In markup none moves beyond the end. In a script one may, by a single byte behind a backslash at the end, and
then no turn follows. -/
theorem readers_end (text : String) :
    Ends Advance.Inside (document text.toList) (Structure.read text) ∧
      Ends Advance.Inside (attributes text.toList) (Markup.Attribute.ofText text.toList) ∧
      Ends Advance.Inside (decode text.toList) (Markup.Reference.decode text.toList) ∧
      Ends Advance.Escaping (mask text.toList) (Script.mask text) ∧
      ∀ start, Ends Advance.Escaping (regexEnd (bytes text.toList) start)
        ((Script.Bytewise.regexEnd? false ((bytes text.toList).drop (start + 1))).map (start + 1 + ·)) :=
  ⟨ends_document text, ends_attributes text.toList, ends_decode text.toList, ends_mask text,
    ends_regexEnd (bytes text.toList)⟩

end ImportTree.Scan
