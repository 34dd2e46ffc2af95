import ImportTree.Proofs.Script.Forms
import ImportTree.Proofs.Script.Masking

/-!
# Scanning the bytes of a script

The comments of a script can be blanked without reading its characters. A scan moves over the bytes of the script, over
two of them at a backslash, be it into the middle of a character or beyond the end. It finds the same comments all the
same, since the bytes of a character beyond ASCII mean nothing to it.
-/

namespace ImportTree.Script

variable {c d quote : Char} {cs body rest : List Char} {before : Option Char} {b : UInt8} {bs hs : List UInt8}
  {last : Option UInt8}

/-! ## The scan -/

namespace Bytewise

/-- The number of bytes up to the quote that ends a literal, which is counted as well. -/
def quoteEnd? (quote : UInt8) (oneLine : Bool) : List UInt8 → Option Nat
  | [] => none
  | b :: bs =>
    if b = '\\'.toUInt8 then (quoteEnd? quote oneLine bs.tail).map (· + 2)
    else if b = quote then some 1
    else if oneLine ∧ b = '\n'.toUInt8 then none
    else (quoteEnd? quote oneLine bs).map (· + 1)
termination_by bs => bs.length
decreasing_by all_goals simp only [List.length_cons, List.length_tail]; omega

def isAlpha (b : UInt8) : Bool :=
  ('A'.toUInt8 ≤ b && b ≤ 'Z'.toUInt8) || ('a'.toUInt8 ≤ b && b ≤ 'z'.toUInt8)

/-- The number of bytes up to the end of a regular expression and of its flags. -/
def regexEnd? (inClass : Bool) : List UInt8 → Option Nat
  | [] => none
  | b :: bs =>
    if b = '\n'.toUInt8 then none
    else if b = '\\'.toUInt8 then (regexEnd? inClass bs.tail).map (· + 2)
    else if b = '/'.toUInt8 ∧ !inClass then some (1 + (bs.takeWhile isAlpha).length)
    else
      (regexEnd? (if b = '['.toUInt8 then true else if b = ']'.toUInt8 then false else inClass) bs).map (· + 1)
termination_by bs => bs.length
decreasing_by all_goals simp only [List.length_cons, List.length_tail]; omega

/-- The number of bytes up to the end of a block comment. -/
def commentEnd? : List UInt8 → Option Nat
  | [] => none
  | b :: bs =>
    if b = '*'.toUInt8 ∧ bs.head? = some '/'.toUInt8 then some 2
    else (commentEnd? bs).map (· + 1)

def regexMayFollow : Option UInt8 → Bool
  | none => true
  | some b => b ∈ ['(', ',', '=', ':', '[', '!', '&', '|', '?', '\x7b', '\x7d', ';'].map Char.toUInt8

def isBlank (b : UInt8) : Bool :=
  b ∈ [' ', '\t', '\n', '\x0c', '\r'].map Char.toUInt8

/-- How a scan moves on from a byte. -/
structure Move where
  /-- The number of bytes behind it that are passed over with it. -/
  more : Nat
  /-- Whether they are a comment. -/
  comment : Bool
  /-- The last byte, from then on, that decides what a slash means. -/
  last : Option UInt8

/-- The move from a byte; there is none if a literal or a comment that begins with it does not end. -/
def move? (last : Option UInt8) (b : UInt8) (bs : List UInt8) : Option Move :=
  if b = '/'.toUInt8 then
    if bs.head? = some '/'.toUInt8 then some ⟨(bs.takeWhile (· != '\n'.toUInt8)).length, true, last⟩
    else if bs.head? = some '*'.toUInt8 then (commentEnd? bs.tail).map fun n => ⟨n + 1, true, last⟩
    else
      match if regexMayFollow last then regexEnd? false bs else none with
      | some n => some ⟨n, false, some b⟩
      | none => some ⟨0, false, some b⟩
  else if b = '\''.toUInt8 ∨ b = '"'.toUInt8 then (quoteEnd? b true bs).map fun n => ⟨n, false, some b⟩
  else if b = '`'.toUInt8 then (quoteEnd? b false bs).map fun n => ⟨n, false, some b⟩
  else some ⟨0, false, if isBlank b then last else some b⟩

end Bytewise

/-- A byte of a script, and whether a blank is put in its place. -/
structure Cell where
  byte : UInt8
  masked : Bool
  lines_stay : masked = true → byte ≠ '\n'.toUInt8
deriving DecidableEq

namespace Cell

def shown (cell : Cell) : UInt8 :=
  if cell.masked then ' '.toUInt8 else cell.byte

/-- All bytes of a comment are masked but its line feeds, and no others are. -/
def ofByte (comment : Bool) (b : UInt8) : Cell where
  byte := b
  masked := comment && b != '\n'.toUInt8
  lines_stay h := by
    simp only [Bool.and_eq_true, bne_iff_ne] at h
    exact h.2

def ofBytes (comment : Bool) (bs : List UInt8) : List Cell :=
  bs.map (ofByte comment)

theorem byte_ofBytes (comment : Bool) (bs : List UInt8) : (ofBytes comment bs).map byte = bs := by
  rw [ofBytes, List.map_map]
  exact List.map_id bs

theorem shown_code (bs : List UInt8) : (ofBytes false bs).map shown = bs := by
  rw [ofBytes, List.map_map]
  exact List.map_id bs

theorem shown_comment (bs : List UInt8) : (ofBytes true bs).map shown = bs.map blankByte := by
  rw [ofBytes, List.map_map]
  refine List.map_congr_left fun b _ => ?_
  by_cases hb : b = '\n'.toUInt8
  · subst hb
    rfl
  · have hblank : blankByte b = ' '.toUInt8 := if_neg hb
    simp [ofByte, shown, hblank, hb]

/-- What is shown has its line feeds where the text has them. -/
theorem shown_eq_newline (cell : Cell) : cell.shown = '\n'.toUInt8 ↔ cell.byte = '\n'.toUInt8 := by
  unfold shown
  cases h : cell.masked with
  | true => exact iff_of_false (by decide : ' '.toUInt8 ≠ '\n'.toUInt8) (cell.lines_stay h)
  | false => rfl

end Cell

namespace Bytewise

/-- The bytes of a script with those that are masked, unless a literal or a comment does not end. Brackets only decide
whether the script is refused, so they are bytes like others here. -/
def scan (last : Option UInt8) : List UInt8 → Option (List Cell)
  | [] => some []
  | b :: bs =>
    match move? last b bs with
    | some move =>
      (scan move.last (bs.drop move.more)).map (Cell.ofBytes move.comment (b :: bs.take move.more) ++ ·)
    | none => none
termination_by bs => bs.length
decreasing_by
  rw [List.length_drop]
  exact Nat.lt_succ_of_le (Nat.sub_le ..)

end Bytewise

/-! ## Bytes of characters -/

theorem utf8EncodeChar_ascii (h : c.toNat < 0x80) : String.utf8EncodeChar c = [c.toUInt8] := by
  have hc : c.val.toNat ≤ 0x7F := Nat.le_of_lt_succ h
  simp only [String.utf8EncodeChar, hc, if_true]
  rfl

def High (bs : List UInt8) : Prop :=
  ∀ b ∈ bs, 0x80 ≤ b.toNat

theorem high_utf8EncodeChar (h : ¬c.toNat < 0x80) : High (String.utf8EncodeChar c) := by
  intro b hb
  have hc : ¬c.val.toNat ≤ 0x7F := fun hc => h (Nat.lt_succ_of_le hc)
  simp only [String.utf8EncodeChar, hc, if_false] at hb
  obtain hb : b.toNat ∈ List.map UInt8.toNat _ := List.mem_map_of_mem hb
  repeat' split at hb
  all_goals
    simp only [List.map_cons, List.map_nil, List.mem_cons, List.not_mem_nil, or_false, UInt8.toNat_ofNat'] at hb
    omega

theorem utf8EncodeChar_cons (c : Char) : ∃ b hs, String.utf8EncodeChar c = b :: hs ∧ High hs := by
  by_cases hc : c.toNat < 0x80
  · exact ⟨_, [], utf8EncodeChar_ascii hc, by simp [High]⟩
  · have hhigh := high_utf8EncodeChar hc
    cases hbytes : String.utf8EncodeChar c with
    | nil =>
        have hsize := c.utf8Size_pos
        rw [← String.length_utf8EncodeChar, hbytes] at hsize
        cases hsize
    | cons b hs =>
        rw [hbytes] at hhigh
        exact ⟨b, hs, rfl, fun b hb => hhigh b (List.mem_cons_of_mem _ hb)⟩

theorem forall_ascii {P : Char → Prop} (h : ∀ n < 0x80, P (Char.ofNat n)) (hc : c.toNat < 0x80) : P c :=
  Char.ofNat_toNat c ▸ h c.toNat hc

theorem toNat_toUInt8 (h : c.toNat < 0x80) : c.toUInt8.toNat = c.toNat := by
  change c.toNat % 256 = c.toNat
  omega

theorem toUInt8_eq_iff (hc : c.toNat < 0x80) (hd : d.toNat < 0x80) : c.toUInt8 = d.toUInt8 ↔ c = d := by
  rw [← UInt8.toNat_inj, toNat_toUInt8 hc, toNat_toUInt8 hd, Char.toNat_inj]

theorem ne_toUInt8 (hb : 0x80 ≤ b.toNat) (hd : d.toNat < 0x80) : b ≠ d.toUInt8 := by
  rintro rfl
  rw [toNat_toUInt8 hd] at hb
  omega

theorem bytes_cons (c : Char) (cs : List Char) : bytes (c :: cs) = String.utf8EncodeChar c ++ bytes cs :=
  List.flatMap_cons

theorem bytes_cons_ascii (h : c.toNat < 0x80) (cs : List Char) : bytes (c :: cs) = c.toUInt8 :: bytes cs := by
  rw [bytes_cons, utf8EncodeChar_ascii h, List.singleton_append]

theorem bytes_backslash (c : Char) (cs : List Char) :
    bytes ('\\' :: c :: cs) = '\\'.toUInt8 :: (String.utf8EncodeChar c ++ bytes cs) :=
  rfl

theorem head?_bytes (hd : d.toNat < 0x80) (cs : List Char) :
    (bytes cs).head? = some d.toUInt8 ↔ cs.head? = some d := by
  cases cs with
  | nil => simp [bytes]
  | cons c cs =>
      by_cases hc : c.toNat < 0x80
      · rw [bytes_cons_ascii hc, List.head?_cons, List.head?_cons, Option.some.injEq, Option.some.injEq,
          toUInt8_eq_iff hc hd]
      · obtain ⟨b, hs, hbytes, _⟩ := utf8EncodeChar_cons c
        have hb : 0x80 ≤ b.toNat := high_utf8EncodeChar hc b (hbytes ▸ List.mem_cons_self ..)
        have hcd : c ≠ d := by
          rintro rfl
          exact hc hd
        simp [bytes_cons, hbytes, ne_toUInt8 hb hd, hcd]

theorem takeWhile_bytes {p : UInt8 → Bool} {P : Char → Bool} (h : ∀ c, ∀ b ∈ String.utf8EncodeChar c, p b = P c)
    (cs : List Char) : (bytes cs).takeWhile p = bytes (cs.takeWhile P) := by
  induction cs with
  | nil => rfl
  | cons c cs ih =>
      rw [bytes_cons, List.takeWhile_cons]
      cases hc : P c with
      | true =>
          rw [List.takeWhile_append_of_pos fun b hb => (h c b hb).trans hc, ih, if_pos rfl, bytes_cons]
      | false =>
          obtain ⟨b, hs, hbytes, _⟩ := utf8EncodeChar_cons c
          have hb := h c b (hbytes ▸ List.mem_cons_self ..)
          rw [hbytes, List.cons_append, List.takeWhile_cons, hb, hc]
          rfl

/-! ## Loops -/

namespace Bytewise

section Loops

variable {find : List UInt8 → Option Nat}
  (hfind : ∀ b bs, 0x80 ≤ b.toNat → find (b :: bs) = (find bs).map (· + 1))

include hfind

theorem find_high (hhigh : High hs) (bs : List UInt8) : find (hs ++ bs) = (find bs).map (· + hs.length) := by
  induction hs with
  | nil => simp
  | cons b hs ih =>
      obtain ⟨hb, hhigh⟩ := List.forall_mem_cons.mp hhigh
      rw [List.cons_append, hfind b _ hb, ih hhigh, Option.map_map, List.length_cons]
      rfl

theorem find_plain (hc : c.toNat < 0x80 → find (c.toUInt8 :: bs) = (find bs).map (· + 1)) :
    find (String.utf8EncodeChar c ++ bs) = (find bs).map (· + (String.utf8EncodeChar c).length) := by
  by_cases hascii : c.toNat < 0x80
  · rw [utf8EncodeChar_ascii hascii]
    exact hc hascii
  · exact find_high hfind (high_utf8EncodeChar hascii) bs

/-- A jump into the middle of a character is as good as one beyond it. -/
theorem find_escaped (hescape : ∀ b bs, find ('\\'.toUInt8 :: b :: bs) = (find bs).map (· + 2)) (c : Char)
    (bs : List UInt8) :
    find ('\\'.toUInt8 :: (String.utf8EncodeChar c ++ bs)) =
      (find bs).map (· + ((String.utf8EncodeChar c).length + 1)) := by
  obtain ⟨b, hs, hbytes, hhigh⟩ := utf8EncodeChar_cons c
  rw [hbytes, List.cons_append, hescape, find_high hfind hhigh, Option.map_map, List.length_cons]
  rfl

end Loops

theorem quoteEnd?_high {oneLine : Bool} (hquote : quote.toNat < 0x80) (b : UInt8) (bs : List UInt8)
    (hb : 0x80 ≤ b.toNat) :
    quoteEnd? quote.toUInt8 oneLine (b :: bs) = (quoteEnd? quote.toUInt8 oneLine bs).map (· + 1) := by
  rw [quoteEnd?, if_neg (ne_toUInt8 hb (by decide)), if_neg (ne_toUInt8 hb hquote),
    if_neg fun h => ne_toUInt8 hb (by decide) h.2]

theorem quoteEnd?_escape {quote : UInt8} {oneLine : Bool} (b : UInt8) (bs : List UInt8) :
    quoteEnd? quote oneLine ('\\'.toUInt8 :: b :: bs) = (quoteEnd? quote oneLine bs).map (· + 2) := by
  rw [quoteEnd?, if_pos rfl, List.tail_cons]

theorem quoteEnd?_quote {oneLine : Bool} (hquote : quote.toNat < 0x80) (hescape : quote ≠ '\\') (bs : List UInt8) :
    quoteEnd? quote.toUInt8 oneLine (quote.toUInt8 :: bs) = some 1 := by
  rw [quoteEnd?, if_neg ((toUInt8_eq_iff hquote (by decide)).not.mpr hescape), if_pos rfl]

theorem quoteEnd?_plain {oneLine : Bool} (hquote : quote.toNat < 0x80) (hescape : c ≠ '\\') (hc : c ≠ quote)
    (hline : ¬(oneLine = true ∧ c = '\n')) (bs : List UInt8) :
    quoteEnd? quote.toUInt8 oneLine (String.utf8EncodeChar c ++ bs) =
      (quoteEnd? quote.toUInt8 oneLine bs).map (· + (String.utf8EncodeChar c).length) := by
  refine find_plain (quoteEnd?_high hquote) fun hascii => ?_
  rw [quoteEnd?, if_neg ((toUInt8_eq_iff hascii (by decide)).not.mpr hescape),
    if_neg ((toUInt8_eq_iff hascii hquote).not.mpr hc),
    if_neg fun h => hline ⟨h.1, (toUInt8_eq_iff hascii (by decide)).mp h.2⟩]

theorem quoteEnd?_line (hquote : quote.toNat < 0x80) (hline : quote ≠ '\n') (bs : List UInt8) :
    quoteEnd? quote.toUInt8 true ('\n'.toUInt8 :: bs) = none := by
  rw [quoteEnd?, if_neg (by decide), if_neg ((toUInt8_eq_iff (by decide) hquote).not.mpr hline.symm),
    if_pos ⟨rfl, rfl⟩]

/-- The scan finds the end of a literal behind the bytes of the characters in it. -/
theorem quoteEnd?_bytes {oneLine : Bool} (hquote : quote.toNat < 0x80) (hescape : quote ≠ '\\') (hline : quote ≠ '\n')
    (cs : List Char) : quoteEnd? quote.toUInt8 oneLine (bytes cs) =
      (Piece.cutQuote? quote oneLine cs).map fun cut => (bytes cut.1).length + 1 := by
  have hnil : quoteEnd? quote.toUInt8 oneLine [] = none := by rw [quoteEnd?]
  fun_induction Piece.cutQuote? quote oneLine cs with
  | case1 => exact hnil
  | case2 c hc =>
      rw [hc.1, bytes_cons_ascii hquote, quoteEnd?_quote hquote hescape]
      rfl
  | case3 c hc =>
      -- The text ends with a character that is not the quote, whatever else it may be.
      by_cases hback : c = '\\'
      · rw [hback, bytes_cons_ascii (by decide), quoteEnd?, if_pos rfl]
        exact congrArg (Option.map _) hnil
      · by_cases hend : oneLine = true ∧ c = '\n'
        · obtain ⟨rfl, rfl⟩ := hend
          exact quoteEnd?_line hquote hline []
        · rw [bytes_cons, quoteEnd?_plain hquote hback (fun h => hc ⟨h, hback⟩) hend]
          exact congrArg (Option.map _) hnil
  | case4 d cs body rest hcut ih =>
      rw [bytes_backslash, find_escaped (quoteEnd?_high hquote) quoteEnd?_escape, ih, hcut]
      simp only [Option.map_some, bytes_backslash, List.length_cons, List.length_append, Option.some.injEq]
      omega
  | case5 d cs hcut ih =>
      rw [bytes_backslash, find_escaped (quoteEnd?_high hquote) quoteEnd?_escape, ih, hcut]
      rfl
  | case6 c cs hback =>
      rw [bytes_cons_ascii hquote, quoteEnd?_quote hquote hescape]
      rfl
  | case7 c d cs hback hc hend =>
      obtain ⟨rfl, rfl⟩ := hend
      exact quoteEnd?_line hquote hline _
  | case8 c d cs hback hc hend body rest hcut ih =>
      rw [bytes_cons, quoteEnd?_plain hquote hback hc hend, ih, hcut]
      simp only [Option.map_some, bytes_cons, List.length_append, Option.some.injEq]
      omega
  | case9 c d cs hback hc hend hcut ih =>
      rw [bytes_cons, quoteEnd?_plain hquote hback hc hend, ih, hcut]
      rfl

/-! ## Regular expressions -/

theorem regexEnd?_high {inClass : Bool} (b : UInt8) (bs : List UInt8) (hb : 0x80 ≤ b.toNat) :
    regexEnd? inClass (b :: bs) = (regexEnd? inClass bs).map (· + 1) := by
  have hne (c : Char) (hc : c.toNat < 0x80) : b ≠ c.toUInt8 := ne_toUInt8 hb hc
  rw [regexEnd?, if_neg (hne _ (by decide)), if_neg (hne _ (by decide)), if_neg fun h => hne _ (by decide) h.1,
    if_neg (hne _ (by decide)), if_neg (hne _ (by decide))]

theorem regexEnd?_escape {inClass : Bool} (b : UInt8) (bs : List UInt8) :
    regexEnd? inClass ('\\'.toUInt8 :: b :: bs) = (regexEnd? inClass bs).map (· + 2) := by
  rw [regexEnd?, if_neg (by decide), if_pos rfl, List.tail_cons]

theorem regexEnd?_plain {inClass : Bool} (hline : c ≠ '\n') (hescape : c ≠ '\\')
    (hslash : ¬(c = '/' ∧ (!inClass) = true)) (bs : List UInt8) :
    regexEnd? inClass (String.utf8EncodeChar c ++ bs) =
      (regexEnd? (if c = '[' then true else if c = ']' then false else inClass) bs).map
        (· + (String.utf8EncodeChar c).length) := by
  by_cases hascii : c.toNat < 0x80
  · have hiff (d : Char) (hd : d.toNat < 0x80) : c.toUInt8 = d.toUInt8 ↔ c = d := toUInt8_eq_iff hascii hd
    rw [utf8EncodeChar_ascii hascii, List.singleton_append, regexEnd?, if_neg ((hiff _ (by decide)).not.mpr hline),
      if_neg ((hiff _ (by decide)).not.mpr hescape), if_neg fun h => hslash ⟨(hiff _ (by decide)).mp h.1, h.2⟩]
    simp only [hiff '[' (by decide), hiff ']' (by decide)]
    rfl
  · have hne (d : Char) (hd : d.toNat < 0x80) : c ≠ d := by
      rintro rfl
      exact hascii hd
    rw [find_high regexEnd?_high (high_utf8EncodeChar hascii), if_neg (hne _ (by decide)), if_neg (hne _ (by decide))]

theorem isAlpha_utf8EncodeChar (c : Char) (b : UInt8) (hb : b ∈ String.utf8EncodeChar c) : isAlpha b = c.isAlpha := by
  by_cases hc : c.toNat < 0x80
  · rw [utf8EncodeChar_ascii hc, List.mem_singleton] at hb
    subst hb
    exact forall_ascii (P := fun c => isAlpha c.toUInt8 = c.isAlpha) (by decide +kernel) hc
  · have hbyte : isAlpha b = false := by
      have hb := high_utf8EncodeChar hc b hb
      have hle (d : Char) (hd : d.toNat < 0x80) : ¬b ≤ d.toUInt8 := by
        rw [UInt8.le_iff_toNat_le, toNat_toUInt8 hd]
        omega
      simp [isAlpha, hle]
    have hchar : c.isAlpha = false := by
      by_contra h
      have hrange := nameChar_range (c := c) (.inl (by simp [Char.isAlphanum, h]))
      omega
    rw [hbyte, hchar]

theorem regexEnd?_bytes {inClass : Bool} (cs : List Char) : regexEnd? inClass (bytes cs) =
    (Piece.cutRegex? inClass cs).map fun cut =>
      (bytes cut.1).length + (1 + (bytes (cut.2.takeWhile Char.isAlpha)).length) := by
  have hnil (inClass : Bool) : regexEnd? inClass [] = none := by rw [regexEnd?]
  have hslash (cs : List Char) : regexEnd? false (bytes ('/' :: cs)) =
      some (1 + (bytes (cs.takeWhile Char.isAlpha)).length) := by
    rw [bytes_cons_ascii (by decide), regexEnd?, if_neg (by decide), if_neg (by decide), if_pos (by decide),
      takeWhile_bytes isAlpha_utf8EncodeChar]
  fun_induction Piece.cutRegex? inClass cs with
  | case1 => exact hnil _
  | case2 inClass c hc =>
      obtain ⟨rfl, hclass⟩ := hc
      obtain rfl : inClass = false := by simpa using hclass
      exact hslash []
  | case3 inClass c hc =>
      by_cases hline : c = '\n'
      · rw [hline, bytes_cons_ascii (by decide), regexEnd?, if_pos rfl]
        rfl
      · by_cases hback : c = '\\'
        · rw [hback, bytes_cons_ascii (by decide), regexEnd?, if_neg (by decide), if_pos rfl]
          exact congrArg (Option.map _) (hnil _)
        · rw [bytes_cons, regexEnd?_plain hline hback hc]
          exact congrArg (Option.map _) (hnil _)
  | case4 inClass d cs =>
      rw [bytes_cons_ascii (by decide), regexEnd?, if_pos rfl]
      rfl
  | case5 inClass d cs body rest hcut _ ih =>
      rw [bytes_backslash, find_escaped regexEnd?_high regexEnd?_escape, ih, hcut]
      simp only [Option.map_some, bytes_backslash, List.length_cons, List.length_append, Option.some.injEq]
      omega
  | case6 inClass d cs hcut _ ih =>
      rw [bytes_backslash, find_escaped regexEnd?_high regexEnd?_escape, ih, hcut]
      rfl
  | case7 inClass c d cs hline hback hc =>
      obtain ⟨rfl, hclass⟩ := hc
      obtain rfl : inClass = false := by simpa using hclass
      exact (hslash _).trans (by simp [bytes])
  | case8 inClass c d cs hline hback hc body rest hcut ih =>
      rw [bytes_cons, regexEnd?_plain hline hback hc, ih, hcut]
      simp only [Option.map_some, bytes_cons, List.length_append, Option.some.injEq]
      omega
  | case9 inClass c d cs hline hback hc hcut ih =>
      rw [bytes_cons, regexEnd?_plain hline hback hc, ih, hcut]
      rfl

/-! ## Block comments -/

theorem commentEnd?_high (b : UInt8) (bs : List UInt8) (hb : 0x80 ≤ b.toNat) :
    commentEnd? (b :: bs) = (commentEnd? bs).map (· + 1) := by
  rw [commentEnd?, if_neg fun h => ne_toUInt8 hb (by decide) h.1]

theorem commentEnd?_plain (hc : ¬(c = '*' ∧ cs.head? = some '/')) :
    commentEnd? (String.utf8EncodeChar c ++ bytes cs) =
      (commentEnd? (bytes cs)).map (· + (String.utf8EncodeChar c).length) := by
  refine find_plain commentEnd?_high fun hascii => ?_
  rw [commentEnd?, if_neg fun h => hc ⟨(toUInt8_eq_iff hascii (by decide)).mp h.1, (head?_bytes (by decide) _).mp h.2⟩]

theorem commentEnd?_bytes (cs : List Char) : commentEnd? (bytes cs) =
    (Text.cutAround? ['*', '/'] cs).map fun cut => (bytes cut.1).length + 2 := by
  have hmark (cs : List Char) : ['*', '/'].isPrefixOf cs = true ↔ ∃ rest, cs = '*' :: '/' :: rest := by
    rw [List.isPrefixOf_iff_prefix]
    exact ⟨fun ⟨rest, h⟩ => ⟨rest, h.symm⟩, fun ⟨rest, h⟩ => ⟨rest, h.symm⟩⟩
  have hcut : commentEnd? (bytes cs) =
      (Text.cutBefore? ['*', '/'].isPrefixOf cs).map fun cut => (bytes cut.1).length + 2 := by
    induction cs with
    | nil => rfl
    | cons c cs ih =>
        rw [Text.cutBefore?]
        split
        next h =>
          obtain ⟨rest, hrest⟩ := (hmark _).mp h
          rw [hrest]
          rfl
        next h =>
          have hc : ¬(c = '*' ∧ cs.head? = some '/') := by
            rintro ⟨rfl, hhead⟩
            obtain ⟨rest, rfl⟩ := List.head?_eq_some_iff.mp hhead
            exact h ((hmark _).mpr ⟨rest, rfl⟩)
          rw [bytes_cons, commentEnd?_plain hc, ih]
          cases Text.cutBefore? ['*', '/'].isPrefixOf cs with
          | none => rfl
          | some cut =>
              simp only [Option.map_some, bytes_cons, List.length_append, Option.some.injEq]
              omega
  rw [hcut, Text.cutAround?]
  cases Text.cutBefore? ['*', '/'].isPrefixOf cs <;> rfl

/-! ## Moves -/

/-- The last byte that decides what a slash means, behind a piece that begins with a byte. -/
def lastBehind (last : Option UInt8) (b : UInt8) : Piece → Option UInt8
  | .blank _ | .lineComment _ | .blockComment _ => last
  | _ => some b

end Bytewise

def Piece.isComment : Piece → Bool
  | .lineComment _ | .blockComment _ => true
  | _ => false

/-- The bytes of a piece, with those that are masked. -/
def Piece.cells (p : Piece) : List Cell :=
  Cell.ofBytes p.isComment (bytes p.written)

namespace Bytewise

theorem newline_utf8EncodeChar (c : Char) (b : UInt8) (hb : b ∈ String.utf8EncodeChar c) :
    (b != '\n'.toUInt8) = (c != '\n') := by
  by_cases hc : c = '\n'
  · subst hc
    rw [utf8EncodeChar_ascii (by decide), List.mem_singleton] at hb
    rw [hb]
    rfl
  · have hne : b ≠ '\n'.toUInt8 := by
      rintro rfl
      exact notMem_utf8EncodeChar hc hb
    exact (bne_iff_ne.mpr hne).trans (bne_iff_ne.mpr hc).symm

def moveOver (last : Option UInt8) (b : UInt8) : Except Unterminated (Piece × List Char) → Option Move
  | .ok (p, _) => some ⟨(bytes p.written.tail).length, p.isComment, lastBehind last b p⟩
  | .error _ => none

theorem move?_slash (hlast : regexMayFollow last = Piece.regexMayFollow before) (cs : List Char) :
    move? last '/'.toUInt8 (bytes cs) = moveOver last '/'.toUInt8 (Piece.readSlash before cs) := by
  have hhead (d : Char) (hd : d.toNat < 0x80) (hcs : ∀ rest, cs ≠ d :: rest) : ¬(bytes cs).head? = some d.toUInt8 := by
    rw [head?_bytes hd, List.head?_eq_some_iff]
    exact fun ⟨rest, h⟩ => hcs rest h
  unfold Piece.readSlash
  split
  next rest =>
    rw [move?, if_pos rfl, if_pos ((head?_bytes (by decide) _).mpr rfl), takeWhile_bytes newline_utf8EncodeChar]
    rfl
  next rest =>
    have htail : (bytes ('*' :: rest)).tail = bytes rest := by
      rw [bytes_cons_ascii (by decide), List.tail_cons]
    rw [move?, if_pos rfl, if_neg (hhead '/' (by decide) (by simp)), if_pos ((head?_bytes (by decide) _).mpr rfl),
      htail, commentEnd?_bytes]
    cases Text.cutAround? ['*', '/'] rest with
    | none => rfl
    | some cut =>
        have hlength : (bytes ('*' :: (cut.1 ++ ['*', '/']))).length = (bytes cut.1).length + 2 + 1 := by
          rw [bytes_cons_ascii (by decide), List.length_cons, bytes_append, List.length_append]
          rfl
        simp only [Option.map_some, moveOver, Piece.written, List.tail_cons, hlength]
        rfl
  next hline hblock =>
    rw [move?, if_pos rfl, if_neg (hhead '/' (by decide) hline), if_neg (hhead '*' (by decide) hblock), hlast]
    cases Piece.regexMayFollow before with
    | false => rfl
    | true =>
        simp only [if_true, regexEnd?_bytes]
        cases Piece.cutRegex? false cs with
        | none => rfl
        | some cut =>
            have hlength : (bytes (cut.1 ++ '/' :: cut.2.takeWhile Char.isAlpha)).length =
                (bytes cut.1).length + (1 + (bytes (cut.2.takeWhile Char.isAlpha)).length) := by
              rw [bytes_append, bytes_cons_ascii (by decide), List.length_append, List.length_cons]
              omega
            simp only [Option.map_some, moveOver, Piece.written, List.tail_cons, hlength]
            rfl

/-- A scan passes over the bytes of a piece that begins with an ASCII character. -/
theorem move?_bytes (hc : c.toNat < 0x80) (hlast : regexMayFollow last = Piece.regexMayFollow before)
    (cs : List Char) : move? last c.toUInt8 (bytes cs) = moveOver last c.toUInt8 (Piece.read before c cs) := by
  have hiff (d : Char) (hd : d.toNat < 0x80) : c.toUInt8 = d.toUInt8 ↔ c = d := toUInt8_eq_iff hc hd
  have hquotes : c.toUInt8 = '\''.toUInt8 ∨ c.toUInt8 = '"'.toUInt8 ↔ c = '\'' ∨ c = '"' :=
    or_congr (hiff _ (by decide)) (hiff _ (by decide))
  have hquoted (body : List Char) : (bytes (body ++ [c])).length = (bytes body).length + 1 := by
    rw [bytes_append, bytes_cons_ascii hc, List.length_append]
    rfl
  unfold Piece.read
  split
  next hslash =>
    rw [hslash]
    exact move?_slash hlast cs
  next hslash =>
    split
    next hquote =>
      have hescape : c ≠ '\\' := by rcases hquote with rfl | rfl <;> decide
      have hline : c ≠ '\n' := by rcases hquote with rfl | rfl <;> decide
      rw [move?, if_neg ((hiff _ (by decide)).not.mpr hslash), if_pos (hquotes.mpr hquote),
        quoteEnd?_bytes hc hescape hline]
      cases Piece.cutQuote? c true cs with
      | none => rfl
      | some cut =>
          simp only [Option.map_some, moveOver, Piece.written, List.tail_cons, hquoted]
          rfl
    next hquote =>
      split
      next htick =>
        subst htick
        rw [move?, if_neg (by decide), if_neg (by decide), if_pos rfl, quoteEnd?_bytes hc (by decide) (by decide)]
        cases Piece.cutQuote? '`' false cs with
        | none => rfl
        | some cut =>
            simp only [Option.map_some, moveOver, Piece.written, List.tail_cons, hquoted]
            rfl
      next htick =>
        have hblank : isBlank c.toUInt8 = Text.isAsciiBlank c :=
          forall_ascii (P := fun c => isBlank c.toUInt8 = Text.isAsciiBlank c) (by decide +kernel) hc
        rw [move?, if_neg ((hiff _ (by decide)).not.mpr hslash), if_neg (hquotes.not.mpr hquote),
          if_neg ((hiff _ (by decide)).not.mpr htick), hblank]
        split
        next => rfl
        next => split <;> rfl

/-! ## Pieces -/

theorem scan_nil : scan last [] = some [] := by
  rw [scan]

theorem scan_move (more : List UInt8) {comment : Bool} {last' : Option UInt8}
    (h : move? last b (more ++ bs) = some ⟨more.length, comment, last'⟩) :
    scan last (b :: (more ++ bs)) = (scan last' bs).map (Cell.ofBytes comment (b :: more) ++ ·) := by
  rw [scan, h]
  simp only [List.drop_left, List.take_left]

theorem scan_cut (h : move? last b bs = none) : scan last (b :: bs) = none := by
  rw [scan, h]

theorem notMem_of_high {l : List Char} (hc : ¬c.toNat < 0x80) (hl : l.all (·.toNat < 0x80) = true) : c ∉ l :=
  fun hmem => hc (of_decide_eq_true (List.all_eq_true.mp hl c hmem))

theorem notMem_map_of_high {l : List Char} (hb : 0x80 ≤ b.toNat) (hl : l.all (·.toNat < 0x80) = true) :
    b ∉ l.map Char.toUInt8 := by
  intro hmem
  obtain ⟨c, hc, rfl⟩ := List.mem_map.mp hmem
  exact ne_toUInt8 hb (of_decide_eq_true (List.all_eq_true.mp hl c hc)) rfl

theorem move?_high (hb : 0x80 ≤ b.toNat) (bs : List UInt8) : move? last b bs = some ⟨0, false, some b⟩ := by
  have hne (c : Char) (hc : c.toNat < 0x80) : b ≠ c.toUInt8 := ne_toUInt8 hb hc
  have hblank : isBlank b = false := decide_eq_false (notMem_map_of_high hb (by decide))
  rw [move?, if_neg (hne _ (by decide)), if_neg (not_or.mpr ⟨hne _ (by decide), hne _ (by decide)⟩),
    if_neg (hne _ (by decide)), hblank]
  rfl

theorem regexMayFollow_high (hb : 0x80 ≤ b.toNat) : regexMayFollow (some b) = false :=
  decide_eq_false (notMem_map_of_high hb (by decide))

/-- A character beyond ASCII is passed over byte by byte. -/
theorem scan_high (last : Option UInt8) (hhigh : High (b :: hs)) (bs : List UInt8) :
    ∃ last', regexMayFollow last' = false ∧
      scan last (b :: (hs ++ bs)) = (scan last' bs).map (Cell.ofBytes false (b :: hs) ++ ·) := by
  induction hs generalizing last b with
  | nil =>
      have hb := hhigh b (List.mem_cons_self ..)
      exact ⟨some b, regexMayFollow_high hb, scan_move [] (move?_high hb _)⟩
  | cons b' hs ih =>
      obtain ⟨hb, hhigh⟩ := List.forall_mem_cons.mp hhigh
      obtain ⟨last', hlast', hscan⟩ := ih (some b) hhigh
      refine ⟨last', hlast', ?_⟩
      have hmove : scan last (b :: b' :: (hs ++ bs)) = _ := scan_move [] (move?_high hb _)
      rw [List.cons_append, hmove, hscan, Option.map_map]
      rfl

theorem read_high (hc : ¬c.toNat < 0x80) (cs : List Char) : Piece.read before c cs = .ok (.other c, cs) := by
  have hblank : c ∉ [' ', '\t', '\n', '\x0c', '\r'] := notMem_of_high hc (by decide)
  refine Piece.read_other ?_ (notMem_of_high hc (by decide)) cs
  simpa [Text.isAsciiBlank, and_assoc] using hblank

theorem lastBehind_read {p : Piece} (hc : c.toNat < 0x80) (hlast : regexMayFollow last = Piece.regexMayFollow before)
    (h : Piece.read before c cs = .ok (p, rest)) :
    regexMayFollow (lastBehind last c.toUInt8 p) = Piece.regexMayFollow (p.significant? before) := by
  have hascii : regexMayFollow (some c.toUInt8) = Piece.regexMayFollow (some c) :=
    forall_ascii (P := fun c => regexMayFollow (some c.toUInt8) = Piece.regexMayFollow (some c)) (by decide +kernel) hc
  have hfirst : (p.written ++ rest).head? = some c := congrArg List.head? (Piece.read_written h)
  cases p with
  | blank _ => exact hlast
  | lineComment _ => exact hlast
  | blockComment _ => exact hlast
  | _ =>
      cases hfirst
      exact hascii

theorem scan_read {p : Piece} (hlast : regexMayFollow last = Piece.regexMayFollow before)
    (h : Piece.read before c cs = .ok (p, rest)) : ∃ last',
      regexMayFollow last' = Piece.regexMayFollow (p.significant? before) ∧
        scan last (bytes (c :: cs)) = (scan last' (bytes rest)).map (p.cells ++ ·) := by
  by_cases hc : c.toNat < 0x80
  · -- The piece begins with a byte of its own, and one move passes over the others.
    refine ⟨_, lastBehind_read hc hlast h, ?_⟩
    have hmove := move?_bytes hc hlast cs
    rw [h] at hmove
    have hwritten := Piece.read_written h
    obtain ⟨c', tail, htail⟩ := List.exists_cons_of_ne_nil p.written_ne_nil
    rw [htail, List.cons_append] at hwritten
    obtain ⟨rfl, rfl⟩ := List.cons.inj hwritten
    rw [moveOver, htail, List.tail_cons, bytes_append] at hmove
    rw [Piece.cells, htail, bytes_cons_ascii hc, bytes_cons_ascii hc, bytes_append]
    exact scan_move (bytes tail) hmove
  · obtain ⟨b, hs, hbytes, _⟩ := utf8EncodeChar_cons c
    have hhigh := high_utf8EncodeChar hc
    rw [read_high hc] at h
    cases h
    rw [hbytes] at hhigh
    obtain ⟨last', hlast', hscan⟩ := scan_high last hhigh (bytes cs)
    have hbehind : Piece.regexMayFollow (some c) = false :=
      decide_eq_false (notMem_of_high hc (by decide))
    refine ⟨last', hlast'.trans hbehind.symm, ?_⟩
    have hcells : (Piece.other c).cells = Cell.ofBytes false (b :: hs) := by
      rw [← hbytes, ← List.append_nil (String.utf8EncodeChar c)]
      rfl
    rw [bytes_cons, hbytes, List.cons_append, hscan, hcells]

/-- A scan of the bytes finds what a reader of the characters finds. -/
theorem scan_readAll (hlast : regexMayFollow last = Piece.regexMayFollow before) (cs : List Char) :
    scan last (bytes cs) = match Piece.readAll before cs with
      | (ps, none) => some (ps.flatMap Piece.cells)
      | (_, some _) => none := by
  induction before, cs using Piece.readAll.induct generalizing last with
  | case1 => rw [Piece.readAll]; exact scan_nil
  | case2 before c cs p rest hread ih =>
      obtain ⟨last', hlast', hscan⟩ := scan_read hlast hread
      rw [Piece.readAll_cons hread, hscan, ih hlast']
      cases Piece.readAll (p.significant? before) rest with
      | mk ps cut? => cases cut? <;> rfl
  | case3 before c cs cut hread =>
      rw [Piece.readAll_cut hread]
      by_cases hc : c.toNat < 0x80
      · have hmove := move?_bytes hc hlast cs
        rw [hread] at hmove
        rw [bytes_cons_ascii hc, scan_cut hmove]
      · rw [read_high hc] at hread
        cases hread

theorem scan_byte {cells : List Cell} (h : scan last bs = some cells) : cells.map Cell.byte = bs := by
  induction last, bs using scan.induct generalizing cells with
  | case1 last =>
      rw [scan_nil] at h
      cases h
      rfl
  | case2 last b bs move hmove ih =>
      rw [scan, hmove] at h
      obtain ⟨tail, htail, rfl⟩ := Option.map_eq_some_iff.mp h
      rw [List.map_append, Cell.byte_ofBytes, ih htail, List.cons_append, List.take_append_drop]
  | case3 last b bs hmove =>
      rw [scan_cut hmove] at h
      cases h

end Bytewise

/-! ## What is shown -/

theorem Piece.masked_of_isComment {p : Piece} (h : p.isComment = true) : p.masked = p.written.flatMap blankOut := by
  cases p with
  | lineComment body => rfl
  | blockComment body =>
      rw [written, List.flatMap_cons, List.flatMap_cons, List.flatMap_append]
      rfl
  | _ => cases h

theorem Piece.shown_cells (p : Piece) : p.cells.map Cell.shown = bytes p.masked := by
  rw [cells]
  cases h : p.isComment with
  | true => rw [Cell.shown_comment, masked_of_isComment h, bytes_flatMap_blankOut]
  | false =>
      rw [Cell.shown_code]
      cases p <;> first | rfl | cases h

/-- What the scan of a script shows are the bytes of the masked script. -/
theorem Bytewise.scan_mask {text : String} {masked : List Char} (h : mask text = .ok masked) :
    ∃ cells, scan none (bytes text.toList) = some cells ∧ cells.map Cell.shown = bytes masked := by
  obtain ⟨hcut, _, rfl⟩ := mask_eq_ok_iff.mp h
  have hlast : regexMayFollow none = Piece.regexMayFollow none := rfl
  have hscan := scan_readAll hlast text.toList
  cases hread : Piece.readAll none text.toList with
  | mk ps cut? =>
      rw [hread] at hscan hcut
      obtain rfl : cut? = none := hcut
      refine ⟨_, hscan, ?_⟩
      rw [List.map_flatMap, bytes, List.flatMap_assoc]
      exact List.flatMap_congr fun p _ => p.shown_cells

end ImportTree.Script
