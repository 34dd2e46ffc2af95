import ImportTree.Proofs.Script.Masking
import Mathlib.Algebra.GroupWithZero.Nat
import Mathlib.Data.List.TakeWhile

/-!
# Lines of faults

A script is followed piece by piece, and its line feeds are counted on the way. Those that are escaped in a literal are
passed over with the backslash, so that a fault is reported on a line that is too early by their number.
-/

namespace ImportTree.Script

variable {c quote : Char} {cs body rest : List Char} {before : Option Char} {ps : List Piece} {line last : Nat}
  {opened : OpenBrackets}

/-! ## Line feeds -/

/-- The line feeds of a text that a backslash escapes. -/
def escapedNewlines : List Char → Nat
  | [] => 0
  | [_] => 0
  | c :: d :: cs =>
    if c = '\\' then (if d = '\n' then 1 else 0) + escapedNewlines cs
    else escapedNewlines (d :: cs)

theorem unescapedNewlines_cons (hc : c ≠ '\\') (cs : List Char) :
    unescapedNewlines (c :: cs) = (if c = '\n' then 1 else 0) + unescapedNewlines cs := by
  cases cs with
  | nil => rfl
  | cons d cs => rw [unescapedNewlines, if_neg hc]

theorem unescapedNewlines_add (cs : List Char) : unescapedNewlines cs + escapedNewlines cs = Text.newlines cs := by
  induction cs using escapedNewlines.induct with
  | case1 => rfl
  | case2 c => by_cases hc : c = '\n' <;> simp [unescapedNewlines, escapedNewlines, Text.newlines, hc]
  | case3 d cs ih =>
      rw [unescapedNewlines, if_pos rfl, escapedNewlines, if_pos rfl]
      by_cases hd : d = '\n' <;> simp only [Text.newlines] at ih ⊢ <;> simp [hd] <;> omega
  | case4 c d cs hc ih =>
      rw [unescapedNewlines, if_neg hc, escapedNewlines, if_neg hc, Nat.add_assoc, ih]
      by_cases hline : c = '\n' <;> simp [Text.newlines, hline, Nat.add_comm]

namespace Piece

/-- The line feeds that are escaped in a literal. -/
def escapedNewlines : Piece → Nat
  | .regex body _ => Script.escapedNewlines body
  | .string _ body => Script.escapedNewlines body
  | .template body => Script.escapedNewlines body
  | _ => 0

/-- Whether the line feeds of a piece are those that count for lines and those that are escaped. -/
def Counted (p : Piece) : Prop :=
  p.newlines + p.escapedNewlines = Text.newlines p.written

/-- No line feed in a literal that ends on its line stands for itself. -/
theorem unescapedNewlines_of_cutQuote? (h : cutQuote? quote true cs = some (body, rest)) :
    unescapedNewlines body = 0 := by
  fun_induction cutQuote? quote true cs generalizing body with
  | case1 => cases h
  | case2 => cases h; rfl
  | case3 => cases h
  | case4 d cs body' rest' hcut ih =>
      cases h
      rw [unescapedNewlines, if_pos rfl, ih hcut]
  | case5 => cases h
  | case6 => cases h; rfl
  | case7 => cases h
  | case8 c d cs hescape hquote hline body' rest' hcut ih =>
      cases h
      rw [unescapedNewlines_cons hescape, if_neg fun hc => hline ⟨rfl, hc⟩, ih hcut]
  | case9 => cases h

theorem unescapedNewlines_of_cutRegex? {inClass : Bool} (h : cutRegex? inClass cs = some (body, rest)) :
    unescapedNewlines body = 0 := by
  fun_induction cutRegex? inClass cs generalizing body with
  | case1 => cases h
  | case2 => cases h; rfl
  | case3 => cases h
  | case4 => cases h
  | case5 inClass d cs body' rest' hcut _ ih =>
      cases h
      rw [unescapedNewlines, if_pos rfl, ih hcut]
  | case6 => cases h
  | case7 => cases h; rfl
  | case8 inClass c d cs hline hescape hslash body' rest' hcut ih =>
      cases h
      rw [unescapedNewlines_cons hescape, if_neg hline, ih hcut]
  | case9 => cases h

theorem counted_opening (bracket : Bracket) : (opening bracket).Counted := by
  unfold Counted
  cases bracket <;> rfl

theorem counted_closing (bracket : Bracket) : (closing bracket).Counted := by
  unfold Counted
  cases bracket <;> rfl

theorem counted_of_readSlash {p : Piece} (h : readSlash before cs = .ok (p, rest)) : p.Counted := by
  unfold readSlash at h
  split at h
  next cs =>
    cases h
    have hbody : (cs.takeWhile (· != '\n')).count '\n' = 0 :=
      List.count_eq_zero.mpr fun hmem => by simpa using List.mem_takeWhile_imp hmem
    simp [Counted, newlines, escapedNewlines, written, Text.newlines, hbody]
  next =>
    split at h
    next =>
      cases h
      simp [Counted, newlines, escapedNewlines, written, Text.newlines]
    next => cases h
  next =>
    split at h
    next body rest hcut =>
      cases h
      split at hcut
      next =>
        have hflags : (rest.takeWhile Char.isAlpha).count '\n' = 0 :=
          List.count_eq_zero.mpr fun hmem => absurd (List.mem_takeWhile_imp hmem) (by decide)
        have hbody := unescapedNewlines_add body
        rw [unescapedNewlines_of_cutRegex? hcut, Nat.zero_add] at hbody
        simp [Counted, newlines, escapedNewlines, written, Text.newlines, hflags, hbody]
      next => cases hcut
    next =>
      cases h
      rfl

theorem counted_of_read {p : Piece} (h : read before c cs = .ok (p, rest)) : p.Counted := by
  unfold read at h
  split at h
  next => exact counted_of_readSlash h
  next =>
    split at h
    next hquote =>
      split at h
      next body rest hcut =>
        cases h
        have hbody := unescapedNewlines_add body
        rw [unescapedNewlines_of_cutQuote? hcut, Nat.zero_add] at hbody
        have hc : c ≠ '\n' := by rcases hquote with rfl | rfl <;> decide
        simp [Counted, newlines, escapedNewlines, written, Text.newlines, hbody, hc]
      next => cases h
    next =>
      split at h
      next =>
        split at h
        next body rest hcut =>
          cases h
          simp [Counted, newlines, escapedNewlines, written, Text.newlines, unescapedNewlines_add body]
        next => cases h
      next =>
        split at h
        next =>
          cases h
          by_cases hc : c = '\n' <;> simp [Counted, newlines, escapedNewlines, written, Text.newlines, hc]
        next hblank =>
          have hc : c ≠ '\n' := fun hc => hblank (hc ▸ rfl)
          split at h
          next =>
            cases h
            exact counted_opening _
          next =>
            cases h
            exact counted_closing _
          next =>
            cases h
            simp [Counted, newlines, escapedNewlines, written, Text.newlines, hc]

theorem counted_readAll (before : Option Char) (cs : List Char) : ∀ p ∈ (readAll before cs).1, p.Counted := by
  induction before, cs using readAll.induct with
  | case1 => simp [readAll]
  | case2 before c cs p rest hread ih =>
      rw [readAll_cons hread]
      exact List.forall_mem_cons.mpr ⟨counted_of_read hread, ih⟩
  | case3 before c cs cut hread =>
      rw [readAll_cut hread]
      simp

end Piece

/-! ## Places -/

def writtenPieces (ps : List Piece) : List Char :=
  ps.flatMap Piece.written

/-- The line feeds that are escaped in the literals among the pieces. -/
def escapedIn (ps : List Piece) : Nat :=
  (ps.map Piece.escapedNewlines).sum

theorem newlines_writtenPieces_cons (p : Piece) (ps : List Piece) :
    Text.newlines (writtenPieces (p :: ps)) = Text.newlines p.written + Text.newlines (writtenPieces ps) :=
  List.count_append ..

theorem newlines_writtenPieces (h : ∀ p ∈ ps, p.Counted) :
    (ps.map Piece.newlines).sum + escapedIn ps = Text.newlines (writtenPieces ps) := by
  induction ps with
  | nil => rfl
  | cons p ps ih =>
      obtain ⟨hp, hps⟩ := List.forall_mem_cons.mp h
      rw [newlines_writtenPieces_cons, ← hp, ← ih hps, escapedIn, List.map_cons, List.map_cons, List.sum_cons,
        List.sum_cons, escapedIn]
      omega

/-- What a piece that is cut off begins with. -/
def Unterminated.Begins : Unterminated → List Char → Prop
  | .comment, token => token = ['/', '*']
  | .string, token => token = ['"'] ∨ token = ['\'']
  | .template, token => token = ['`']

theorem Piece.begins_of_read {cut : Unterminated} (h : read before c cs = .error cut) :
    ∃ token rest, cut.Begins token ∧ c :: cs = token ++ rest := by
  unfold read at h
  split at h
  next hslash =>
    unfold readSlash at h
    split at h
    next => cases h
    next rest =>
      split at h
      next => cases h
      next =>
        cases h
        exact ⟨['/', '*'], rest, rfl, by rw [hslash]; rfl⟩
    next => split at h <;> cases h
  next =>
    split at h
    next hquote =>
      split at h
      next => cases h
      next =>
        cases h
        exact ⟨[c], cs, by simpa [Unterminated.Begins] using hquote.symm, rfl⟩
    next =>
      split at h
      next hquote =>
        split at h
        next => cases h
        next =>
          cases h
          exact ⟨[c], cs, by rw [hquote]; rfl, rfl⟩
      next =>
        split at h
        next => cases h
        next => split at h <;> cases h

/-- The pieces of a text write it up to the one that is cut off. -/
theorem Piece.writtenPieces_readAll (before : Option Char) (cs : List Char) :
    ∃ rest, cs = writtenPieces (readAll before cs).1 ++ rest ∧
      ∀ cut ∈ (readAll before cs).2, ∃ token tail, cut.Begins token ∧ rest = token ++ tail := by
  induction before, cs using readAll.induct with
  | case1 => exact ⟨[], by simp [readAll, writtenPieces], by simp [readAll]⟩
  | case2 before c cs p rest hread ih =>
      obtain ⟨tail, hwritten, hcut⟩ := ih
      rw [readAll_cons hread]
      refine ⟨tail, ?_, hcut⟩
      rw [writtenPieces, List.flatMap_cons, List.append_assoc, ← read_written hread]
      exact congrArg _ hwritten
  | case3 before c cs cut hread =>
      rw [readAll_cut hread]
      refine ⟨c :: cs, rfl, ?_⟩
      rintro cut' ⟨⟩
      exact begins_of_read hread

/-! ## Brackets that are open -/

theorem Balanced.append {u w : List Mark} (hu : Balanced u) (hw : Balanced w) : Balanced (u ++ w) := by
  induction hu with
  | nil => exact hw
  | @nest u v b hu _ _ ih =>
      rw [List.cons_append, List.append_assoc, List.cons_append]
      exact .nest b hu ih

/-- Which brackets are open behind pieces, and the line of each of them. Between them all others are closed. -/
inductive Opened (line : Nat) : List Piece → OpenBrackets → Prop where
  | none {ps : List Piece} : Balanced (marks ps) → Opened line ps []
  | some {outer inner : List Piece} {opened : OpenBrackets} (bracket : Bracket) : Opened line outer opened →
      Balanced (marks inner) →
      Opened line (outer ++ .opening bracket :: inner) ((bracket, line + (outer.map Piece.newlines).sum) :: opened)

theorem marks_append (ps qs : List Piece) : marks (ps ++ qs) = marks ps ++ marks qs :=
  List.filterMap_append

theorem Opened.append {inner : List Piece} (h : Opened line ps opened) (hinner : Balanced (marks inner)) :
    Opened line (ps ++ inner) opened := by
  cases h with
  | none hps =>
      refine .none ?_
      rw [marks_append]
      exact hps.append hinner
  | some bracket houter hps =>
      rw [List.append_assoc, List.cons_append]
      refine .some bracket houter ?_
      rw [marks_append]
      exact hps.append hinner

/-- A closing bracket closes the innermost one that is open. -/
theorem Opened.close {bracket : Bracket} {on : Nat} (h : Opened line ps ((bracket, on) :: opened)) :
    Opened line (ps ++ [.closing bracket]) opened := by
  cases h with
  | @some outer inner _ _ houter hinner =>
      rw [List.append_assoc, List.cons_append]
      refine houter.append ?_
      have hmarks : marks (.opening bracket :: (inner ++ [.closing bracket])) =
          .opens bracket :: (marks inner ++ [.closes bracket]) := by
        change Mark.opens bracket :: marks (inner ++ [.closing bracket]) = _
        rw [marks_append]
        rfl
      rw [hmarks]
      exact .nest bracket hinner .nil

/-! ## Following the brackets -/

theorem balance_append (ps qs : List Piece) : balance line opened (ps ++ qs) =
    (balance line opened ps).bind fun state => balance state.1 state.2 qs := by
  induction ps generalizing line opened with
  | nil => rfl
  | cons p ps ih =>
      cases p with
      | closing bracket =>
          cases opened with
          | nil => rfl
          | cons o opened =>
              obtain ⟨expected, on⟩ := o
              rw [List.cons_append, balance, balance]
              split
              next => exact ih
              next => rfl
      | _ => exact ih

/-- What is open behind pieces without a fault, and the line that has been counted to. -/
theorem opened_of_balance (h : balance line [] ps = .ok (last, opened)) :
    last = line + (ps.map Piece.newlines).sum ∧ Opened line ps opened := by
  induction ps using List.reverseRecOn generalizing last opened with
  | nil =>
      cases h
      exact ⟨rfl, .none .nil⟩
  | append_singleton ps p ih =>
      rw [balance_append] at h
      cases hbalance : balance line [] ps with
      | error fault => rw [hbalance] at h; cases h
      | ok state =>
          obtain ⟨reached, before⟩ := state
          obtain ⟨rfl, hopened⟩ := ih hbalance
          rw [hbalance] at h
          change balance _ before [p] = .ok (last, opened) at h
          have hsum : ((ps ++ [p]).map Piece.newlines).sum = (ps.map Piece.newlines).sum + p.newlines := by simp
          rw [hsum, ← Nat.add_assoc]
          cases p with
          | opening bracket =>
              cases h
              exact ⟨rfl, .some bracket hopened .nil⟩
          | closing bracket =>
              cases before with
              | nil => cases h
              | cons o before =>
                  obtain ⟨expected, on⟩ := o
                  rw [balance] at h
                  split at h
                  next heq =>
                    cases h
                    subst heq
                    exact ⟨rfl, hopened.close⟩
                  next => cases h
          | _ =>
              cases h
              exact ⟨rfl, hopened.append .nil⟩

/-- Pieces with a fault have a bracket that closes nothing, or another bracket than the innermost one. -/
theorem balance_error {at' : Nat} {cause : Fault} (h : balance line [] ps = .error (at', cause)) :
    ∃ before bracket after, ps = before ++ .closing bracket :: after ∧ at' = line + (before.map Piece.newlines).sum ∧
      ((cause = .unexpected bracket ∧ Opened line before []) ∨
        ∃ expected on opened, cause = .mismatched bracket expected on ∧ bracket ≠ expected ∧
          Opened line before ((expected, on) :: opened)) := by
  induction ps using List.reverseRecOn with
  | nil => cases h
  | append_singleton ps p ih =>
      rw [balance_append] at h
      cases hbalance : balance line [] ps with
      | error fault =>
          rw [hbalance] at h
          cases h
          obtain ⟨before, bracket, after, rfl, hplace⟩ := ih hbalance
          exact ⟨before, bracket, after ++ [p], by simp, hplace⟩
      | ok state =>
          obtain ⟨reached, before⟩ := state
          obtain ⟨rfl, hopened⟩ := opened_of_balance hbalance
          rw [hbalance] at h
          change balance _ before [p] = .error (at', cause) at h
          cases p with
          | closing bracket =>
              refine ⟨ps, bracket, [], rfl, ?_⟩
              cases before with
              | nil =>
                  cases h
                  exact ⟨rfl, .inl ⟨rfl, hopened⟩⟩
              | cons o before =>
                  obtain ⟨expected, on⟩ := o
                  rw [balance] at h
                  split at h
                  next => cases h
                  next hne =>
                    cases h
                    exact ⟨rfl, .inr ⟨expected, on, before, rfl, hne, hopened⟩⟩
          | _ => cases h

/-! ## Faults -/

/-- The line on which what follows pieces at the front of a script stands. -/
def lineBehind (ps : List Piece) : Nat :=
  1 + Text.newlines (writtenPieces ps)

/-- Which token of a script a fault is about, and the pieces before it. -/
inductive Offends (cs : List Char) : List Piece → List Char → Fault → Prop where
  | cutOff {before : List Piece} {token : List Char} (cut : Unterminated) :
      Piece.readAll none cs = (before, some cut) → cut.Begins token → Offends cs before token (.cutOff cut)
  | unexpected {before after : List Piece} (bracket : Bracket) :
      (Piece.readAll none cs).1 = before ++ .closing bracket :: after → Balanced (marks before) →
      Offends cs before [bracket.closer] (.unexpected bracket)
  | mismatched {outer inner after : List Piece} (bracket expected : Bracket) (openedOn : Nat) :
      (Piece.readAll none cs).1 = outer ++ .opening expected :: inner ++ .closing bracket :: after →
      Balanced (marks inner) → bracket ≠ expected → openedOn + escapedIn outer = lineBehind outer →
      Offends cs (outer ++ .opening expected :: inner) [bracket.closer] (.mismatched bracket expected openedOn)
  | unclosed {before inner : List Piece} (bracket : Bracket) :
      Piece.readAll none cs = (before ++ .opening bracket :: inner, none) → Balanced (marks inner) →
      Offends cs before [bracket.opener] (.unclosed bracket)

/-- The line that is counted to is the one on which the rest stands, less the line feeds that are escaped. -/
theorem add_escapedIn (h : ∀ p ∈ ps, p.Counted) : 1 + (ps.map Piece.newlines).sum + escapedIn ps = lineBehind ps := by
  rw [Nat.add_assoc, newlines_writtenPieces h, lineBehind]

theorem writtenPieces_append (ps qs : List Piece) : writtenPieces (ps ++ qs) = writtenPieces ps ++ writtenPieces qs :=
  List.flatMap_append

theorem pieces?_fault {cs : List Char} {cause : Fault} (h : pieces? cs = .error (line, cause)) :
    ∃ before token rest, cs = writtenPieces before ++ token ++ rest ∧ Offends cs before token cause ∧
      line + escapedIn before = lineBehind before := by
  obtain ⟨rest, hwritten, hcut⟩ := Piece.writtenPieces_readAll none cs
  have hcounted := Piece.counted_readAll none cs
  unfold pieces? at h
  cases hread : Piece.readAll none cs with
  | mk ps cut? =>
      rw [hread] at h hwritten hcut hcounted
      dsimp only at h hwritten hcut hcounted
      cases hbalance : balance 1 [] ps with
      | error fault =>
          rw [hbalance] at h
          cases h
          obtain ⟨before, bracket, after, rfl, rfl, hcause⟩ := balance_error hbalance
          have hbefore := add_escapedIn fun p hp => hcounted p (List.mem_append_left _ hp)
          refine ⟨before, [bracket.closer], writtenPieces after ++ rest, ?_, ?_, hbefore⟩
          · rw [hwritten, writtenPieces_append, List.append_assoc, List.append_assoc]
            rfl
          · rcases hcause with ⟨rfl, hopened⟩ | ⟨expected, on, opened, rfl, hne, hopened⟩
            · cases hopened with
              | none hmarks => exact .unexpected bracket (by rw [hread]) hmarks
            · cases hopened with
              | @some outer inner _ _ houter hinner =>
                  refine .mismatched bracket expected _ (by rw [hread]) hinner hne (add_escapedIn fun p hp => ?_)
                  exact hcounted p (by simp [hp])
      | ok state =>
          obtain ⟨last, opened⟩ := state
          obtain ⟨rfl, hopened⟩ := opened_of_balance hbalance
          rw [hbalance] at h
          cases cut? with
          | some cut =>
              cases h
              obtain ⟨token, tail, hbegins, rfl⟩ := hcut cut rfl
              refine ⟨ps, token, tail, ?_, .cutOff cut hread hbegins, add_escapedIn hcounted⟩
              rw [hwritten, List.append_assoc]
          | none =>
              cases hopened with
              | none => cases h
              | @some outer inner opened bracket houter hinner =>
                  cases h
                  refine ⟨outer, [bracket.opener], writtenPieces inner ++ rest, ?_, .unclosed bracket hread hinner,
                    add_escapedIn fun p hp => hcounted p (List.mem_append_left _ hp)⟩
                  rw [hwritten, writtenPieces_append, List.append_assoc, List.append_assoc]
                  rfl

/-- A fault is reported with the line of its token, less the line feeds before it that a backslash escapes in a
literal. -/
theorem mask_fault {text : String} {fault : SyntaxFault} (h : mask text = .error fault) :
    ∃ before token rest cause, text.toList = writtenPieces before ++ token ++ rest ∧
      Offends text.toList before token cause ∧ fault.reason = cause.reason ∧
      fault.line + escapedIn before = lineBehind before := by
  unfold mask at h
  split at h
  next => cases h
  next line cause hpieces =>
    cases h
    obtain ⟨before, token, rest, hwritten, hoffends, hline⟩ := pieces?_fault hpieces
    exact ⟨before, token, rest, cause, hwritten, hoffends, rfl, hline⟩

/-- The template ends on the second line and the brackets stand on the third and on the fourth one. -/
theorem mask_fault_behind_template :
    mask "`\\\n`;\nf(\n]" = .error ⟨3, "unexpected ']' (expected closer for '(' opened on line 2)"⟩ ∧
      ∃ before token rest cause, "`\\\n`;\nf(\n]".toList = writtenPieces before ++ token ++ rest ∧
        Offends "`\\\n`;\nf(\n]".toList before token cause ∧
        "unexpected ']' (expected closer for '(' opened on line 2)" = cause.reason ∧
        3 + escapedIn before = lineBehind before := by
  have hmask : mask "`\\\n`;\nf(\n]" =
      .error ⟨3, "unexpected ']' (expected closer for '(' opened on line 2)"⟩ := by decide +kernel
  exact ⟨hmask, mask_fault hmask⟩

/-- The bracket on the third line is said to stand on the second one. -/
theorem mask_fault_early : mask "var s = 'a\\\nb';\n)" = .error ⟨2, "unexpected ')'"⟩ ∧
    1 + Text.newlines "var s = 'a\\\nb';\n".toList = 3 := by
  decide +kernel

end ImportTree.Script
