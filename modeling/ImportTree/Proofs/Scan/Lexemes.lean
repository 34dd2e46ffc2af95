import ImportTree.Proofs.Scan.Run
import ImportTree.Proofs.Script.Bytewise
import ImportTree.Proofs.Script.Lines

/-!
# Comments and literals by offset

A comment is blanked byte by byte, and a literal is passed over with jumps of two bytes at a backslash. Such a jump may
lead beyond the end of the script, and no turn follows it.
-/

namespace ImportTree.Scan

open Script (OpenBrackets bytes blankByte)
open Script.Bytewise (commentEnd? isAlpha quoteEnd? regexEnd?)

variable {P : Advance → Prop} {bs pre post shown : List UInt8} {b : UInt8} {i : Nat}

/-! ## Turns that may jump over the end -/

/-- Whether a turn begins inside the text and moves forward. Only behind a backslash at the end it comes beyond it, and
no turn begins there. -/
structure Advance.Escaping (t : Advance) : Prop where
  begins : t.before < t.bytes.length
  forward : t.before < t.after
  bounded : t.after ≤ t.bytes.length ∨ t.after = t.bytes.length + 1 ∧ t.bytes.getLast? = some '\\'.toUInt8

theorem forward_escaping : Forward Advance.Escaping := by
  intro t h
  refine ⟨h.forward, ?_⟩
  rcases h.bounded with hle | ⟨hend, -⟩
  · exact Nat.le_succ_of_le hle
  · exact hend.le

theorem Advance.Inside.escaping {t : Advance} (h : t.Inside) : t.Escaping :=
  ⟨h.begins, h.forward, .inl h.bounded⟩

theorem escaping_jump (h : bs[i]? = some '\\'.toUInt8) : Advance.Escaping ⟨bs, i, i + 2⟩ := by
  obtain ⟨hinside, -⟩ := List.getElem?_eq_some_iff.mp h
  refine ⟨hinside, by simp, ?_⟩
  rcases Nat.lt_or_ge (i + 1) bs.length with hlt | hge
  · exact .inl hlt
  · -- Nothing stands behind the backslash, which is the last byte.
    have hlast : bs.length - 1 = i := by omega
    refine .inr ⟨by simp only; omega, ?_⟩
    rw [List.getLast?_eq_getElem?, hlast, h]

theorem escaping_step (h : bs[i]? = some b) : Advance.Escaping ⟨bs, i, i + 1⟩ := by
  obtain ⟨hinside, -⟩ := List.getElem?_eq_some_iff.mp h
  exact ⟨hinside, Nat.lt_succ_self i, .inl hinside⟩

theorem drop_of_getElem? (h : bs[i]? = some b) : bs.drop i = b :: bs.drop (i + 1) := by
  obtain ⟨hinside, rfl⟩ := List.getElem?_eq_some_iff.mp h
  exact List.drop_eq_getElem_cons hinside

theorem drop_of_getElem?_none (h : bs[i]? = none) : bs.drop i = [] :=
  List.drop_eq_nil_iff.mpr (List.getElem?_eq_none_iff.mp h)

/-! ## The state of a scan -/

/-- Where the scan of a script stands. -/
structure Masker where
  offset : Nat
  /-- The bytes of the script, with blanks for the comments that are passed. -/
  out : List UInt8
  opened : OpenBrackets
  line : Nat
  /-- The last byte that decides what a slash means. -/
  last : Option UInt8

namespace Masker

variable {s : Masker} {lines : Nat}

/-- Moves on by some bytes and lines. -/
def moved (s : Masker) (n lines : Nat) (out : List UInt8) : Masker :=
  { s with offset := s.offset + n, line := s.line + lines, out := out }

theorem moved_self (s : Masker) : s.moved 0 0 s.out = s := rfl

theorem moved_moved (s : Masker) (m n k l : Nat) (out out' : List UInt8) :
    (s.moved m k out).moved n l out' = s.moved (m + n) (k + l) out' := by
  simp [moved, Nat.add_assoc]

/-- Whether a scan stands behind some bytes, with what is shown of them and all others as they are. -/
structure Behind (s : Masker) (pre shown post : List UInt8) : Prop where
  offset : s.offset = pre.length
  out : s.out = shown ++ post
  length : shown.length = pre.length

namespace Behind

/-- A byte that a comment leaves as it is, or that is blanked. -/
theorem step (h : s.Behind pre shown (b :: post)) (lines : Nat) :
    (s.moved 1 lines (shown ++ blankByte b :: post)).Behind (pre ++ [b]) (shown ++ [blankByte b]) post where
  offset := by simp [moved, h.offset]
  out := by simp [moved]
  length := by simp [h.length]

theorem ends_store (h : s.Behind pre shown (b :: post)) (new : UInt8) :
    Ends P (store s.out s.offset new) (shown ++ new :: post) := by
  rw [h.out]
  exact Scan.ends_store (h.offset.trans h.length.symm) new

theorem getElem? (h : s.Behind pre shown post) : (pre ++ post)[s.offset]? = post.head? := by
  rw [h.offset, List.getElem?_append_right le_rfl, Nat.sub_self, List.head?_eq_getElem?]

end Behind

end Masker

/-! ## Comments -/

def lineCommentTurn (bs : List UInt8) (s : Masker) : Run (Turn Masker Masker) :=
  if s.offset < bs.length then do
    let b ← byteAt bs s.offset
    if b = '\n'.toUInt8 then return .stop s
    else do
      let out ← store s.out s.offset ' '.toUInt8
      return .next (s.moved 1 0 out)
  else return .stop s

/-- Blanks what is left of a line. -/
def lineComment (bs : List UInt8) (s : Masker) : Run Masker :=
  loop bs Masker.offset (lineCommentTurn bs) s

def blockCommentTurn (bs : List UInt8) (s : Masker) : Run (Turn Masker (Option Masker)) :=
  match bs[s.offset]? with
  | none => return .stop none
  | some b =>
    if b = '*'.toUInt8 ∧ bs[s.offset + 1]? = some '/'.toUInt8 then do
      let out ← store s.out s.offset ' '.toUInt8
      let out ← store out (s.offset + 1) ' '.toUInt8
      return .leave (s.moved 2 0 out) (some (s.moved 2 0 out))
    else if b = '\n'.toUInt8 then return .next (s.moved 1 1 s.out)
    else do
      let out ← store s.out s.offset ' '.toUInt8
      return .next (s.moved 1 0 out)

/-- Blanks what is left of a block comment, unless it does not end. -/
def blockComment (bs : List UInt8) (s : Masker) : Run (Option Masker) :=
  loop bs Masker.offset (blockCommentTurn bs) s

section Comments

variable {s : Masker}

theorem blankByte_ne (h : b ≠ '\n'.toUInt8) : blankByte b = ' '.toUInt8 :=
  if_neg h

theorem ends_lineComment {body rest : List UInt8} (h : s.Behind pre shown (body ++ rest))
    (hbody : '\n'.toUInt8 ∉ body) (hrest : ∀ b ∈ rest.head?, b = '\n'.toUInt8) :
    Ends Advance.Inside (lineComment (pre ++ (body ++ rest)) s)
      (s.moved body.length 0 (shown ++ (body.map blankByte ++ rest))) := by
  refine ends_loop (fun s a => ∃ pre' shown body', pre ++ (body ++ rest) = pre' ++ (body' ++ rest) ∧
    s.Behind pre' shown (body' ++ rest) ∧ '\n'.toUInt8 ∉ body' ∧
    a = s.moved body'.length 0 (shown ++ (body'.map blankByte ++ rest)))
    forward_inside (fun s a h => ?_) ⟨pre, shown, body, rfl, h, hbody, rfl⟩
  obtain ⟨pre, shown, body, hbytes, hbehind, hbody, rfl⟩ := h
  rw [hbytes]
  have hhead := hbehind.getElem?
  cases body with
  | nil =>
      rw [List.nil_append] at hhead
      have hend : s.moved 0 0 (shown ++ rest) = s := hbehind.out ▸ s.moved_self
      have hstop : Ends Advance.Inside (lineCommentTurn (pre ++ rest) s) (.stop s) := by
        cases rest with
        | nil =>
            rw [lineCommentTurn, if_neg (by simp [hbehind.offset])]
            exact ends_pure _
        | cons b rest =>
            obtain rfl := hrest b rfl
            obtain ⟨hinside, -⟩ := List.getElem?_eq_some_iff.mp hhead
            rw [lineCommentTurn, if_pos hinside]
            refine (ends_byteAt hhead).bind ?_
            rw [if_pos rfl]
            exact ends_pure _
      exact .stop (hend.symm ▸ hstop)
  | cons b body =>
      obtain ⟨hinside, -⟩ := List.getElem?_eq_some_iff.mp hhead
      obtain ⟨hb, hbody⟩ := not_or.mp (List.mem_cons.not.mp hbody)
      refine .next (t := s.moved 1 0 (shown ++ blankByte b :: (body ++ rest))) ?_ ⟨Nat.lt_succ_self _, hinside⟩
        ⟨_, _, body, List.append_cons .., hbehind.step 0, hbody, ?_⟩
      · rw [lineCommentTurn, if_pos hinside]
        refine (ends_byteAt hhead).bind ?_
        rw [if_neg (Ne.symm hb)]
        refine (hbehind.ends_store _).bind ?_
        rw [blankByte_ne (Ne.symm hb)]
        exact ends_pure _
      · rw [Masker.moved_moved]
        simp [Nat.add_comm]

/-- Where a block comment leaves a scan, if it ends: all of it is blanked but for its line feeds, which are counted. -/
def Masker.blanked (s : Masker) (shown post : List UInt8) : Option Masker :=
  (commentEnd? post).map fun n =>
    s.moved n ((post.take n).count '\n'.toUInt8) (shown ++ ((post.take n).map blankByte ++ post.drop n))

/-- What is expected inside a block comment. -/
def Blanking (bs : List UInt8) (s : Masker) (a : Option Masker) : Prop :=
  ∃ pre shown post, bs = pre ++ post ∧ s.Behind pre shown post ∧ a = s.blanked shown post

theorem Blanking.step {lines : Nat} (h : s.Behind pre shown (b :: post))
    (hopen : ¬(b = '*'.toUInt8 ∧ post.head? = some '/'.toUInt8)) (hlines : lines = if b = '\n'.toUInt8 then 1 else 0) :
    Blanking (pre ++ b :: post) (s.moved 1 lines (shown ++ blankByte b :: post)) (s.blanked shown (b :: post)) := by
  refine ⟨_, _, post, List.append_cons .., h.step lines, ?_⟩
  rw [Masker.blanked, Masker.blanked, commentEnd?, if_neg hopen, Option.map_map]
  refine congrArg (Option.map · _) (funext fun n => ?_)
  rw [Function.comp_apply, Masker.moved_moved, List.take_succ_cons, List.drop_succ_cons, List.count_cons, hlines]
  simp [Nat.add_comm]

theorem leads_blockCommentTurn_end (hbs : bs = pre ++ '*'.toUInt8 :: '/'.toUInt8 :: post)
    (h : s.Behind pre shown ('*'.toUInt8 :: '/'.toUInt8 :: post)) :
    Leads Advance.Inside bs Masker.offset (blockCommentTurn bs) (Blanking bs) s
      (s.blanked shown ('*'.toUInt8 :: '/'.toUInt8 :: post)) := by
  have hstar : bs[s.offset]? = some '*'.toUInt8 := hbs ▸ h.getElem?
  have hslash : bs[s.offset + 1]? = some '/'.toUInt8 := by simp [hbs, h.offset]
  obtain ⟨hinside, -⟩ := List.getElem?_eq_some_iff.mp hslash
  have hout : shown ++ [' '.toUInt8] ++ ' '.toUInt8 :: post = shown ++ ' '.toUInt8 :: ' '.toUInt8 :: post := by simp
  refine .leave (t := s.moved 2 0 (shown ++ ' '.toUInt8 :: ' '.toUInt8 :: post)) ?_
    ⟨Nat.lt_add_of_pos_right Nat.two_pos, hinside⟩
  rw [blockCommentTurn, hstar]
  dsimp only
  rw [hslash, if_pos ⟨rfl, rfl⟩, Masker.blanked, commentEnd?, if_pos ⟨rfl, rfl⟩]
  refine (h.ends_store _).bind ?_
  rw [List.append_cons]
  refine (ends_store (by simp [h.offset, h.length]) _).bind ?_
  rw [hout]
  exact ends_pure _

theorem ends_blockComment (h : s.Behind pre shown post) :
    Ends Advance.Inside (blockComment (pre ++ post) s) (s.blanked shown post) := by
  refine ends_loop (Blanking (pre ++ post)) forward_inside (fun s a h => ?_) ⟨pre, shown, post, rfl, h, rfl⟩
  obtain ⟨pre, shown, post, hbytes, hbehind, rfl⟩ := h
  rw [hbytes]
  have hhead := hbehind.getElem?
  cases post with
  | nil =>
      refine .stop ?_
      rw [blockCommentTurn, hhead]
      exact ends_pure _
  | cons b post =>
      obtain ⟨hinside, -⟩ := List.getElem?_eq_some_iff.mp hhead
      have hnext : (pre ++ b :: post)[s.offset + 1]? = post.head? := by
        rw [hbehind.offset, List.append_cons, ← List.head?_drop, List.drop_left' (by simp)]
      by_cases hend : b = '*'.toUInt8 ∧ post.head? = some '/'.toUInt8
      · obtain ⟨rfl, hslash⟩ := hend
        obtain ⟨post, rfl⟩ := List.head?_eq_some_iff.mp hslash
        exact leads_blockCommentTurn_end rfl hbehind
      · by_cases hline : b = '\n'.toUInt8
        · subst hline
          refine .next (t := s.moved 1 1 (shown ++ '\n'.toUInt8 :: post)) ?_ ⟨Nat.lt_succ_self _, hinside⟩
            (Blanking.step hbehind hend rfl)
          rw [blockCommentTurn, hhead]
          dsimp only [List.head?_cons]
          rw [hnext, if_neg hend, if_pos rfl, hbehind.out]
          exact ends_pure _
        · refine .next (t := s.moved 1 0 (shown ++ blankByte b :: post)) ?_ ⟨Nat.lt_succ_self _, hinside⟩
            (Blanking.step hbehind hend (if_neg hline).symm)
          rw [blockCommentTurn, hhead]
          dsimp only [List.head?_cons]
          rw [hnext, if_neg hend, if_neg hline]
          refine (hbehind.ends_store _).bind ?_
          rw [blankByte_ne hline]
          exact ends_pure _

end Comments

/-! ## Literals -/

/-- The line feeds among some bytes that no backslash escapes. -/
def unescapedLines : List UInt8 → Nat
  | [] => 0
  | b :: bs =>
    if b = '\\'.toUInt8 then unescapedLines bs.tail
    else (if b = '\n'.toUInt8 then 1 else 0) + unescapedLines bs
termination_by bs => bs.length
decreasing_by all_goals simp only [List.length_cons, List.length_tail]; omega

def literalTurn (bs : List UInt8) (quote : UInt8) (oneLine : Bool) (s : Masker) :
    Run (Turn Masker (Option Masker)) :=
  match bs[s.offset]? with
  | none => return .stop none
  | some b =>
    if b = '\\'.toUInt8 then return .next (s.moved 2 0 s.out)
    else if b = quote then return .leave (s.moved 1 0 s.out) (some (s.moved 1 0 s.out))
    else if b = '\n'.toUInt8 then
      if oneLine then return .stop none else return .next (s.moved 1 1 s.out)
    else return .next (s.moved 1 0 s.out)

def literal (bs : List UInt8) (quote : UInt8) (oneLine : Bool) (s : Masker) : Run (Option Masker) :=
  loop bs Masker.offset (literalTurn bs quote oneLine) s

def regexTurn (bs : List UInt8) (s : Nat × Bool) : Run (Turn (Nat × Bool) (Option Nat)) :=
  match bs[s.1]? with
  | none => return .stop none
  | some b =>
    if b = '\n'.toUInt8 then return .stop none
    else if b = '\\'.toUInt8 then return .next (s.1 + 2, s.2)
    else if b = '/'.toUInt8 ∧ !s.2 then do
      let last ← skipWhile bs isAlpha (s.1 + 1)
      return .leave (last, s.2) (some last)
    else return .next (s.1 + 1, if b = '['.toUInt8 then true else if b = ']'.toUInt8 then false else s.2)

/-- The offset behind the regular expression that begins at a slash, and behind its flags. -/
def regexEnd (bs : List UInt8) (start : Nat) : Run (Option Nat) :=
  loop bs Prod.fst (regexTurn bs) (start + 1, false)

section Literals

variable {quote : UInt8} {oneLine : Bool}

theorem unescapedLines_escape (bs : List UInt8) :
    unescapedLines ('\\'.toUInt8 :: bs) = unescapedLines bs.tail := by
  rw [unescapedLines, if_pos rfl]

theorem unescapedLines_plain (h : b ≠ '\\'.toUInt8) (bs : List UInt8) :
    unescapedLines (b :: bs) = (if b = '\n'.toUInt8 then 1 else 0) + unescapedLines bs := by
  rw [unescapedLines, if_neg h]

/-- What is expected where a literal goes on: it is passed over up to its quote, and its lines are counted. -/
def Passing (bs : List UInt8) (quote : UInt8) (oneLine : Bool) (s : Masker) (a : Option Masker) : Prop :=
  a = (quoteEnd? quote oneLine (bs.drop s.offset)).map fun n =>
    s.moved n (unescapedLines ((bs.drop s.offset).take n)) s.out

theorem Passing.moved {s : Masker} {a : Option Masker} {m lines : Nat} (h : Passing bs quote oneLine s a)
    (hend : quoteEnd? quote oneLine (bs.drop s.offset) = (quoteEnd? quote oneLine (bs.drop (s.offset + m))).map (· + m))
    (hlines : ∀ n, unescapedLines ((bs.drop s.offset).take (n + m)) =
      lines + unescapedLines ((bs.drop (s.offset + m)).take n)) :
    Passing bs quote oneLine (s.moved m lines s.out) a := by
  rw [Passing, hend, Option.map_map] at h
  rw [Passing, h]
  refine congrArg (Option.map · _) (funext fun n => ?_)
  have hmoved : (s.moved m lines s.out).moved n (unescapedLines ((bs.drop (s.offset + m)).take n)) s.out =
      s.moved (n + m) (unescapedLines ((bs.drop s.offset).take (n + m))) s.out := by
    rw [Masker.moved_moved, hlines, Nat.add_comm m]
  exact hmoved.symm

theorem ends_literal (bs : List UInt8) (hquote : quote ≠ '\n'.toUInt8) (oneLine : Bool) (s : Masker) :
    Ends Advance.Escaping (literal bs quote oneLine s)
      ((quoteEnd? quote oneLine (bs.drop s.offset)).map fun n =>
        s.moved n (unescapedLines ((bs.drop s.offset).take n)) s.out) := by
  refine ends_loop (Passing bs quote oneLine) forward_escaping (fun s a h => ?_) rfl
  cases hbyte : bs[s.offset]? with
  | none =>
      obtain rfl := h
      refine .stop ?_
      rw [literalTurn, hbyte, drop_of_getElem?_none hbyte, quoteEnd?]
      exact ends_pure _
  | some b =>
      have hdrop := drop_of_getElem? hbyte
      by_cases hescape : b = '\\'.toUInt8
      · subst hescape
        have htail : (bs.drop (s.offset + 1)).tail = bs.drop (s.offset + 2) := List.tail_drop
        refine .next (t := s.moved 2 0 s.out) ?_ (escaping_jump hbyte) (h.moved ?_ fun n => ?_)
        · rw [literalTurn, hbyte]
          exact ends_pure _
        · rw [hdrop, quoteEnd?, if_pos rfl, htail]
        · -- Behind a backslash at the end both sides are empty, though the jump is of two bytes.
          rw [hdrop, List.take_succ_cons, unescapedLines_escape, ← htail, Nat.zero_add]
          cases bs.drop (s.offset + 1) <;> simp
      · by_cases hb : b = quote
        · subst hb
          have hlines : unescapedLines ((bs.drop s.offset).take 1) = 0 := by
            rw [hdrop, List.take_succ_cons, List.take_zero, unescapedLines_plain hescape, if_neg hquote, unescapedLines]
          rw [Passing, hdrop, quoteEnd?, if_neg hescape, if_pos rfl, ← hdrop, Option.map_some, hlines] at h
          subst h
          refine .leave (t := s.moved 1 0 s.out) ?_ (escaping_step hbyte)
          rw [literalTurn, hbyte]
          dsimp only
          rw [if_neg hescape, if_pos rfl]
          exact ends_pure _
        · by_cases hend : oneLine = true ∧ b = '\n'.toUInt8
          · rw [Passing, hdrop, quoteEnd?, if_neg hescape, if_neg hb, if_pos hend] at h
            subst h
            refine .stop ?_
            rw [literalTurn, hbyte]
            dsimp only
            rw [if_neg hescape, if_neg hb, if_pos hend.2, if_pos hend.1]
            exact ends_pure _
          · have hmoved : Passing bs quote oneLine (s.moved 1 (if b = '\n'.toUInt8 then 1 else 0) s.out) a := by
              refine h.moved ?_ fun n => ?_
              · rw [hdrop, quoteEnd?, if_neg hescape, if_neg hb, if_neg hend]
              · rw [hdrop, List.take_succ_cons, unescapedLines_plain hescape]
            refine .next ?_ (escaping_step hbyte) hmoved
            rw [literalTurn, hbyte]
            dsimp only
            rw [if_neg hescape, if_neg hb]
            by_cases hline : b = '\n'.toUInt8
            · rw [if_pos hline, if_neg fun h => hend ⟨h, hline⟩, if_pos hline]
              exact ends_pure _
            · rw [if_neg hline, if_neg hline]
              exact ends_pure _

theorem ends_flags (hi : i ≤ bs.length) :
    Ends Advance.Inside (skipWhile bs isAlpha i) (i + ((bs.drop i).takeWhile isAlpha).length) ∧
      i + ((bs.drop i).takeWhile isAlpha).length ≤ bs.length := by
  have hskip := ends_skipWhile isAlpha (bs.take i) (bs.drop i)
  rw [List.take_append_drop, List.length_take_of_le hi] at hskip
  have hle := (List.takeWhile_prefix isAlpha (l := bs.drop i)).length_le
  rw [List.length_drop] at hle
  exact ⟨hskip, by omega⟩

/-- A regular expression is looked for behind any offset, be it one of a slash or not. -/
theorem ends_regexEnd (bs : List UInt8) (start : Nat) : Ends Advance.Escaping (regexEnd bs start)
    ((regexEnd? false (bs.drop (start + 1))).map (start + 1 + ·)) := by
  refine ends_loop (fun s a => a = (regexEnd? s.2 (bs.drop s.1)).map (s.1 + ·)) forward_escaping (fun s a h => ?_) rfl
  obtain ⟨i, inClass⟩ := s
  subst h
  dsimp only
  cases hbyte : bs[i]? with
  | none =>
      refine .stop ?_
      rw [regexTurn, hbyte, drop_of_getElem?_none hbyte, regexEnd?]
      exact ends_pure _
  | some b =>
      have hdrop := drop_of_getElem? hbyte
      have hmap (m : Nat) (end? : Option Nat) : (end?.map (· + m)).map (i + ·) = end?.map (i + m + ·) := by
        rw [Option.map_map]
        refine congrArg (Option.map · _) (funext fun n => ?_)
        rw [Function.comp_apply, Nat.add_comm n, Nat.add_assoc]
      by_cases hline : b = '\n'.toUInt8
      · refine .stop ?_
        rw [hdrop, regexEnd?, if_pos hline, regexTurn, hbyte]
        dsimp only
        rw [if_pos hline]
        exact ends_pure _
      · by_cases hescape : b = '\\'.toUInt8
        · subst hescape
          have htail : (bs.drop (i + 1)).tail = bs.drop (i + 2) := List.tail_drop
          refine .next (t := (i + 2, inClass)) ?_ (escaping_jump hbyte) ?_
          · rw [regexTurn, hbyte]
            exact ends_pure _
          · rw [hdrop, regexEnd?, if_neg hline, if_pos rfl, htail, hmap]
        · rw [hdrop, regexEnd?, if_neg hline, if_neg hescape]
          by_cases hslash : b = '/'.toUInt8 ∧ (!inClass) = true
          · obtain ⟨hinside, -⟩ := List.getElem?_eq_some_iff.mp hbyte
            obtain ⟨hflags, hbounded⟩ := ends_flags hinside
            rw [if_pos hslash, Option.map_some, ← Nat.add_assoc]
            have hadvance : Advance.Inside ⟨bs, i, i + 1 + ((bs.drop (i + 1)).takeWhile isAlpha).length⟩ :=
              ⟨Nat.lt_of_lt_of_le (Nat.lt_succ_self i) (Nat.le_add_right ..), hbounded⟩
            refine .leave (t := (_, inClass)) ?_ hadvance.escaping
            rw [regexTurn, hbyte]
            dsimp only
            rw [if_neg hline, if_neg hescape, if_pos hslash]
            exact (hflags.mono fun _ => Advance.Inside.escaping).bind (ends_pure _)
          · rw [if_neg hslash, hmap]
            refine .next (t := (i + 1, _)) ?_ (escaping_step hbyte) rfl
            rw [regexTurn, hbyte]
            dsimp only
            rw [if_neg hline, if_neg hescape, if_neg hslash]
            exact ends_pure _

end Literals

end ImportTree.Scan
