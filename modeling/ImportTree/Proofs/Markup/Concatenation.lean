import ImportTree.Proofs.Markup.Recovery

/-!
# Documents put together

A search that ends inside a document ends at the same place whatever is appended to the document. So a document that is
read to its end is read the same in front of any other, which begins below the lines of the first.
-/

namespace ImportTree

variable {mark cs before after body : List Char} {c : Char}

namespace Text

/-! ## Searches -/

/-- A mark that is found in a text is the first one also in a longer text. Here `n` characters decide about the mark. -/
theorem cutBefore?_extend {marked : List Char → Bool} {n : Nat} (hlong : ∀ t, marked t = true → n ≤ t.length)
    (hlocal : ∀ t t', n ≤ t.length → marked (t ++ t') = marked t) (h : cutBefore? marked cs = some (before, after))
    (rest : List Char) : cutBefore? marked (cs ++ rest) = some (before, after ++ rest) := by
  induction cs generalizing before with
  | nil =>
      have hmarked := cutBefore?_marked h
      simp only [cutBefore?, Option.ite_none_right_eq_some, Option.some.injEq, Prod.mk.injEq] at h
      obtain ⟨_, rfl, rfl⟩ := h
      have hrest : marked rest = true := (hlocal [] rest (hlong [] hmarked)).trans hmarked
      cases rest <;> simp [cutBefore?, hrest]
  | cons c cs ih =>
      have hlen : n ≤ (c :: cs).length := by
        have := hlong after (cutBefore?_marked h)
        have := congrArg List.length (cutBefore?_append h)
        rw [List.length_append] at this
        omega
      have hhead : marked (c :: (cs ++ rest)) = marked (c :: cs) := hlocal (c :: cs) rest hlen
      rw [List.cons_append, cutBefore?, hhead]
      rw [cutBefore?] at h
      split at h
      next hmarked =>
        cases h
        rw [if_pos hmarked, List.cons_append]
      next hmarked =>
        rw [if_neg hmarked]
        cases htail : cutBefore? marked cs with
        | none => simp [htail] at h
        | some p =>
            simp only [htail, Option.some.injEq, Prod.mk.injEq] at h
            obtain ⟨rfl, rfl⟩ := h
            rw [ih htail]

theorem cutAround?_extend (h : cutAround? mark cs = some (before, after)) (rest : List Char) :
    cutAround? mark (cs ++ rest) = some (before, after ++ rest) := by
  have hlong (t : List Char) (ht : mark.isPrefixOf t = true) : mark.length ≤ t.length :=
    (List.isPrefixOf_iff_prefix.mp ht).length_le
  have hlocal (t t' : List Char) (ht : mark.length ≤ t.length) : mark.isPrefixOf (t ++ t') = mark.isPrefixOf t := by
    rw [Bool.eq_iff_iff, List.isPrefixOf_iff_prefix, List.isPrefixOf_iff_prefix]
    exact ⟨fun hp => List.prefix_of_prefix_length_le hp (List.prefix_append ..) ht,
      fun hp => hp.trans (List.prefix_append ..)⟩
  rw [cutAround?] at h ⊢
  cases hcut : cutBefore? mark.isPrefixOf cs with
  | none => simp [hcut] at h
  | some p =>
      simp only [hcut, Option.some.injEq, Prod.mk.injEq] at h
      obtain ⟨rfl, rfl⟩ := h
      rw [cutBefore?_extend hlong hlocal hcut]
      simp [List.drop_append_of_le_length (hlong _ (cutBefore?_marked hcut))]

theorem cutBefore?_letters_extend (h : cutBefore? (startsWithLetters mark) cs = some (before, after))
    (rest : List Char) : cutBefore? (startsWithLetters mark) (cs ++ rest) = some (before, after ++ rest) := by
  refine cutBefore?_extend (n := mark.length) (fun t ht => ?_) (fun t t' ht => ?_) h rest
  · simpa [lower] using (startsWithLetters_iff.mp ht).length_le
  · rw [startsWithLetters, startsWithLetters, List.take_append_of_le_length ht]

end Text

namespace Markup

theorem cutTag?_extend {state : TagState} (h : cutTag? state cs = some (before, after)) (rest : List Char) :
    cutTag? state (cs ++ rest) = some (before, after ++ rest) := by
  induction cs generalizing state before with
  | nil => cases h
  | cons c cs ih =>
      rw [cutTag?] at h
      rw [List.cons_append, cutTag?]
      split at h
      next hclose =>
        cases h
        rw [if_pos hclose]
      next hclose =>
        rw [if_neg hclose]
        cases htail : cutTag? (state.next c) cs with
        | none => simp [htail] at h
        | some p =>
            simp only [htail, Option.some.injEq, Prod.mk.injEq] at h
            obtain ⟨rfl, rfl⟩ := h
            rw [ih htail]

namespace Construct

theorem throughBracket_extend (h : '>' ∈ cs) (rest : List Char) :
    throughBracket (cs ++ rest) = ((throughBracket cs).1, (throughBracket cs).2 ++ rest) := by
  induction cs with
  | nil => cases h
  | cons c cs ih =>
      by_cases hc : c = '>'
      · simp [throughBracket, hc]
      · have hcs : '>' ∈ cs := (List.mem_cons.mp h).resolve_left (Ne.symm hc)
        simp [throughBracket, hc, ih hcs]

theorem throughBracket_all (h : '>' ∉ cs) : throughBracket cs = (cs, []) := by
  induction cs with
  | nil => rfl
  | cons c cs ih =>
      obtain ⟨hc, hcs⟩ := not_or.mp (List.mem_cons.not.mp h)
      rw [throughBracket, if_neg (Ne.symm hc), ih hcs]

/-! ## Constructs -/

/-- Whether a construct that is the last of a document ended by itself. The content of a plain element ends before its
end tag, which is one more construct. -/
def Whole : Construct → Prop
  | .script _ _ _ closing => '>' ∈ closing
  | .rawText .. => False
  | _ => True

instance : DecidablePred Whole := fun k => by
  unfold Whole
  split <;> infer_instance

variable {k : Construct} {name attributes : List Char}

theorem readContent_extend (h : readContent name attributes cs = .ok (k, after)) (hend : after = [] → k.Whole)
    (rest : List Char) : readContent name attributes (cs ++ rest) = .ok (k, after ++ rest) := by
  rw [readContent] at h ⊢
  split at h
  next hname =>
    rw [if_pos hname]
    split at h
    next body tail hcut =>
      cases h
      have hbracket : '>' ∈ tail := by
        by_contra hopen
        rw [throughBracket_all hopen] at hend
        exact hopen (hend rfl)
      rw [Text.cutBefore?_letters_extend hcut]
      simp only [throughBracket_extend hbracket]
    next => cases h
  next hname =>
    rw [if_neg hname]
    split at h
    next hraw =>
      rw [if_pos hraw]
      split at h
      next hcut =>
        cases h
        rw [Text.cutBefore?_letters_extend hcut]
      next =>
        cases h
        exact absurd (hend rfl) id
    next hraw =>
      cases h
      rw [if_neg hraw]

/-- A name that is followed by the rest of its tag is not gone on with by what stands behind the tag. -/
theorem readElement_extend (h : readElement cs = .ok (k, after)) (hend : after = [] → k.Whole) (rest : List Char) :
    readElement (cs ++ rest) = .ok (k, after ++ rest) := by
  rw [readElement] at h ⊢
  cases hcut : cutTag? .plain (cs.dropWhile isTagNameChar) with
  | none => simp [hcut] at h
  | some p =>
      have hne : cs.dropWhile isTagNameChar ≠ [] := by
        intro hnil
        rw [hnil] at hcut
        cases hcut
      have hdrop : (cs ++ rest).dropWhile isTagNameChar = cs.dropWhile isTagNameChar ++ rest := by
        rw [List.dropWhile_append, if_neg (by simpa using hne)]
      have htake : (cs ++ rest).takeWhile isTagNameChar = cs.takeWhile isTagNameChar := by
        have hsame : (cs ++ rest).takeWhile isTagNameChar ++ (cs.dropWhile isTagNameChar ++ rest) =
            cs.takeWhile isTagNameChar ++ (cs.dropWhile isTagNameChar ++ rest) := by
          rw [← hdrop, List.takeWhile_append_dropWhile, hdrop, ← List.append_assoc, List.takeWhile_append_dropWhile]
        exact List.append_cancel_right hsame
      simp only [hcut] at h
      rw [htake, hdrop, cutTag?_extend hcut]
      exact readContent_extend h hend rest

theorem readComment_extend (h : readComment cs = .ok (k, after)) (rest : List Char) :
    readComment (cs ++ rest) = .ok (k, after ++ rest) := by
  rw [readComment] at h ⊢
  split at h
  next hcut =>
    cases h
    rw [Text.cutAround?_extend hcut]
  next => cases h

theorem readDeclaration_extend (h : readDeclaration cs = .ok (k, after)) (rest : List Char) :
    readDeclaration (cs ++ rest) = .ok (k, after ++ rest) := by
  rw [readDeclaration] at h ⊢
  split at h
  next hcut =>
    cases h
    rw [Text.cutAround?_extend hcut]
  next => cases h

theorem bracket_mem_of_readDeclaration (h : readDeclaration cs = .ok (k, after)) : '>' ∈ cs := by
  rw [readDeclaration] at h
  split at h
  next hcut => simp [← Text.cutAround?_append hcut]
  next => cases h

/-- A declaration that ends within a text is not turned into a comment by dashes behind the text. -/
theorem not_dashes_extend (hbracket : '>' ∈ cs) (h : ∀ tail, cs = '-' :: '-' :: tail → False) (rest tail : List Char) :
    cs ++ rest ≠ '-' :: '-' :: tail := by
  intro heq
  match cs, hbracket, h with
  | [], hbracket, _ => simp at hbracket
  | [_], hbracket, _ =>
      cases heq
      simp at hbracket
  | _ :: _ :: cs, _, h =>
      cases heq
      exact h _ rfl

/-- What is read at the front of a document is read the same if the document goes on, unless it is a bracket at the very
end, which may begin a tag then. -/
theorem read_extend (h : read c cs = .ok (k, after)) (hlast : (c :: cs).getLast? ≠ some '<')
    (hend : after = [] → k.Whole) (rest : List Char) : read c (cs ++ rest) = .ok (k, after ++ rest) := by
  unfold read at h
  split at h
  next hc =>
    subst hc
    split at h
    next cs => exact readComment_extend h rest
    next cs hdashes =>
      rw [List.cons_append, read, if_pos rfl]
      · exact readDeclaration_extend h rest
      · exact not_dashes_extend (by simpa using bracket_mem_of_readDeclaration h) hdashes rest
    next cs => exact readDeclaration_extend h rest
    next cs => exact readDeclaration_extend h rest
    next d cs hcomment hmark hquestion hslash =>
      have hread : read '<' (d :: (cs ++ rest)) =
          if d.isAlpha then readElement (d :: (cs ++ rest)) else .ok (.text '<', d :: (cs ++ rest)) := by
        rw [read, if_pos rfl]
        · exact fun _ hd _ => hmark hd
        · exact hmark
        · exact hquestion
        · exact hslash
      rw [List.cons_append, hread]
      split at h
      next hletter => rw [if_pos hletter, ← List.cons_append, readElement_extend h hend]
      next hletter =>
        cases h
        rw [if_neg hletter, List.cons_append]
    next => exact absurd rfl hlast
  next hc =>
    cases h
    exact read_text hc _

/-! ## Documents -/

variable {ks : List Construct}

/-- The constructs of a document that is read to its end write it. -/
theorem writtenAll_readAll (h : readAll cs = (ks, none)) : writtenAll ks = cs := by
  fun_induction readAll cs generalizing ks with
  | case1 => cases h; rfl
  | case2 c cs k after hread ih =>
      obtain ⟨rfl, hnone⟩ := Prod.mk.inj h
      have htail : writtenAll (readAll after).1 = after := ih (Prod.ext rfl hnone)
      change k.written ++ writtenAll (readAll after).1 = c :: cs
      rw [htail, read_written hread]
  | case3 c cs cut hread => cases h

/-- A document that ends neither in a bracket nor inside an element is read the same in front of any other. -/
theorem readAll_extend (h : readAll cs = (ks, none)) (hlast : cs.getLast? ≠ some '<')
    (hend : ∀ k ∈ ks.getLast?, k.Whole) (rest : List Char) :
    readAll (cs ++ rest) = (ks ++ (readAll rest).1, (readAll rest).2) := by
  fun_induction readAll cs generalizing ks with
  | case1 => cases h; rfl
  | case2 c cs k after hread ih =>
      obtain ⟨rfl, hnone⟩ := Prod.mk.inj h
      have hwhole : after = [] → k.Whole := by
        rintro rfl
        exact hend k (by simp [readAll])
      have hlast' : after.getLast? ≠ some '<' := by
        intro hbracket
        refine hlast ?_
        rw [← read_written hread, List.getLast?_append, hbracket]
        rfl
      have hend' : ∀ k ∈ (readAll after).1.getLast?, k.Whole := by
        intro k' hk'
        refine hend k' ?_
        rw [List.getLast?_cons, hk']
        rfl
      rw [List.cons_append, readAll_cons (read_extend hread hlast hwhole rest), ih (Prod.ext rfl hnone) hlast' hend']
      rfl
  | case3 c cs cut hread => cases h

end Construct

end Markup

/-! ## Structures -/

/-- The node of a tag that stands a number of lines further down. -/
def Node.movedDown (n : Nat) (node : Node) : Node :=
  { node with line := node.line + n }

namespace Structure

open Markup

def movedDown (n : Nat) (s : Structure) : Structure where
  scripts := s.scripts.map (Node.movedDown n)
  imports := s.imports.map (Node.movedDown n)
  templates := s.templates.map (Node.movedDown n)

theorem movedDown_append (n : Nat) (s t : Structure) :
    (s.append t).movedDown n = (s.movedDown n).append (t.movedDown n) := by
  simp [movedDown, append]

theorem ofConstruct_movedDown (line n : Nat) (k : Construct) :
    ofConstruct (line + n) k = (ofConstruct line k).movedDown n := by
  cases k with
  | startTag name attributes =>
      have himport (node : Node) : isImportLink (node.movedDown n) = isImportLink node := rfl
      have hnode : (⟨String.ofList (Text.lower name), Attribute.ofText attributes, none, line + n⟩ : Node) =
          Node.movedDown n ⟨String.ofList (Text.lower name), Attribute.ofText attributes, none, line⟩ := rfl
      unfold ofConstruct
      simp only [hnode, himport]
      simp only [Node.movedDown, apply_ite (movedDown n)]
      rfl
  | _ => rfl

theorem ofConstructs_movedDown (line n : Nat) (ks : List Construct) :
    ofConstructs (line + n) ks = (ofConstructs line ks).movedDown n := by
  induction ks generalizing line with
  | nil => rfl
  | cons k ks ih => rw [ofConstructs, ofConstructs, movedDown_append, ofConstruct_movedDown, Nat.add_right_comm, ih]

/-- Whether a document ends inside an element, or in an end tag of a script that is not closed. -/
def EndsInside (text : String) : Prop :=
  ∃ k ∈ (Construct.readAll text.toList).1.getLast?, ¬k.Whole

instance (text : String) : Decidable (EndsInside text) :=
  inferInstanceAs (Decidable (∃ k ∈ (Construct.readAll text.toList).1.getLast?, ¬k.Whole))

theorem read_eq_ok {a : String} {s : Structure} (h : read a = .ok s) :
    ∃ ks, Construct.readAll a.toList = (ks, none) ∧ s = ofConstructs 1 ks := by
  unfold read at h
  split at h
  next ks hks =>
    cases h
    exact ⟨ks, hks, rfl⟩
  next => cases h

/-- A document is read to its end, and then what is appended to it, further down by as many lines as the first one
has. -/
theorem read_append {a : String} {s : Structure} (ha : read a = .ok s) (hbracket : a.toList.getLast? ≠ some '<')
    (hend : ¬EndsInside a) (b : String) :
    (∀ t, read b = .ok t → read (a ++ b) = .ok (s.append (t.movedDown (a.toList.count '\n')))) ∧
      ∀ fault, read b = .error fault →
        read (a ++ b) = .error { fault with line := fault.line + a.toList.count '\n' } := by
  obtain ⟨ks, hks, hs⟩ := read_eq_ok ha
  have hwhole : ∀ k ∈ ks.getLast?, k.Whole := by
    intro k hk
    by_contra hopen
    exact hend ⟨k, by rwa [hks], hopen⟩
  have hread := Construct.readAll_extend hks hbracket hwhole b.toList
  rw [← String.toList_append] at hread
  have hlines := Construct.writtenAll_readAll hks
  cases hb : Construct.readAll b.toList with
  | mk ks' cut? =>
      rw [hb] at hread
      cases cut? with
      | none =>
          refine ⟨fun t ht => ?_, fun fault hfault => by simp [read, hb] at hfault⟩
          rw [read, hb] at ht
          cases ht
          rw [read, hread]
          simp only [hs, ofConstructs_append, hlines, ofConstructs_movedDown]
      | some cut =>
          refine ⟨fun t ht => by simp [read, hb] at ht, fun fault hfault => ?_⟩
          rw [read, hb] at hfault
          cases hfault
          rw [read, hread]
          simp [Construct.writtenAll, Text.newlines, ← hlines]
          omega

/-- The script ends in the first document, and what looks like its end in the second one is a tag of no concern. -/
theorem read_append_of_script :
    let a := "<script>'<b>'\n</SCRIPT\n><!-->-->"
    let link : Node := ⟨"link", [("rel", "import"), ("href", "b")], none, 1⟩
    read a = .ok { scripts := [⟨"script", [], some "'<b>'\n", 1⟩] } ∧ a.toList.getLast? ≠ some '<' ∧ ¬EndsInside a ∧
      read (a ++ "</script><link rel=import href=b>") =
        .ok { scripts := [⟨"script", [], some "'<b>'\n", 1⟩], imports := [link.movedDown 2] } ∧
      read (a ++ "-->\n<title") = .error ⟨4, "unterminated <title> tag"⟩ := by
  have ha : read "<script>'<b>'\n</SCRIPT\n><!-->-->" =
      .ok { scripts := [⟨"script", [], some "'<b>'\n", 1⟩] } := by decide +kernel
  have hend : ¬EndsInside "<script>'<b>'\n</SCRIPT\n><!-->-->" := by decide +kernel
  have hlast : "<script>'<b>'\n</SCRIPT\n><!-->-->".toList.getLast? ≠ some '<' := by decide +kernel
  have hlink : read "</script><link rel=import href=b>" =
      .ok { imports := [⟨"link", [("rel", "import"), ("href", "b")], none, 1⟩] } := by decide +kernel
  have hcut : read "-->\n<title" = .error ⟨2, "unterminated <title> tag"⟩ := by decide +kernel
  exact ⟨ha, hlast, hend, (read_append ha hlast hend _).1 _ hlink, (read_append ha hlast hend _).2 _ hcut⟩

end Structure

end ImportTree
