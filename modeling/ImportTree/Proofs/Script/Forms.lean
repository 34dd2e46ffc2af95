import ImportTree.Proofs.Script.Searching

/-!
# Reading calls

A form of call reads the name of a call that is written in this form, with any white space in its gaps, and nothing
else.
-/

namespace ImportTree

variable {c d : Char} {cs gap rest : List Char}

/-! ## White space -/

namespace Text

/-- The numbers of the characters that are white space. -/
def spaceNumbers : List Nat :=
  [0x09, 0x0A, 0x0B, 0x0C, 0x0D, 0x20, 0x85, 0xA0, 0x1680, 0x2000, 0x2001, 0x2002, 0x2003, 0x2004, 0x2005, 0x2006,
    0x2007, 0x2008, 0x2009, 0x200A, 0x2028, 0x2029, 0x202F, 0x205F, 0x3000]

theorem mem_spaceNumbers (h : isSpace c = true) : c.toNat ∈ spaceNumbers := by
  simp only [isSpace, Bool.or_eq_true, Bool.and_eq_true, decide_eq_true_eq, beq_iff_eq] at h
  simp only [spaceNumbers, List.mem_cons, List.not_mem_nil, or_false]
  omega

theorem isWord_of_isSpace (h : isSpace c = true) : isWord c = false := by
  have hall : ∀ n ∈ spaceNumbers, isWord (Char.ofNat n) = false := by decide +kernel
  have hc := hall _ (mem_spaceNumbers h)
  rwa [Char.ofNat_toNat] at hc

end Text

namespace Script

theorem dropWhile_gap (hgap : ∀ c ∈ gap, Text.isSpace c = true) (hd : Text.isSpace d = false) (rest : List Char) :
    (gap ++ d :: rest).dropWhile Text.isSpace = d :: rest := by
  rw [List.dropWhile_append_of_pos hgap, List.dropWhile_cons, if_neg (by simp [hd])]

theorem passChar?_gap (hgap : ∀ c ∈ gap, Text.isSpace c = true) (hd : Text.isSpace d = false) (c : Char)
    (rest : List Char) : passChar? c (gap ++ d :: rest) = if d = c then some rest else none := by
  rw [passChar?, dropWhile_gap hgap hd]

theorem passWord?_append (word rest : List Char) : passWord? word (word ++ rest) = some rest := by
  simp [passWord?]

/-! ## Quoted names -/

/-- A character of a name that a call may declare. -/
theorem nameChar_range (h : c.isAlphanum = true ∨ c ∈ ['-', '_', '.']) : 45 ≤ c.toNat ∧ c.toNat ≤ 122 := by
  rcases h with h | h
  · change ((decide (65 ≤ c.val ∧ c.val ≤ 90) || (97 ≤ c.val && c.val ≤ 122)) || (48 ≤ c.val && c.val ≤ 57)) = true at h
    simp only [Bool.or_eq_true, Bool.and_eq_true, decide_eq_true_eq, UInt32.le_iff_toNat_le] at h
    change ((65 ≤ c.toNat ∧ c.toNat ≤ 90) ∨ (97 ≤ c.toNat ∧ c.toNat ≤ 122)) ∨ (48 ≤ c.toNat ∧ c.toNat ≤ 57) at h
    omega
  · simp only [List.mem_cons, List.not_mem_nil, or_false] at h
    rcases h with rfl | rfl | rfl <;> decide

theorem quotedName?_gap {quote : Char} {name : List Char} (hgap : ∀ c ∈ gap, Text.isSpace c = true)
    (hquote : quote = '\'' ∨ quote = '"') (hne : name ≠ []) (hname : ∀ c ∈ name, c ≠ quote ∧ c ≠ '\n')
    (rest : List Char) : quotedName? (gap ++ quote :: (name ++ quote :: rest)) = some (name, rest) := by
  have hspace : Text.isSpace quote = false := by
    rcases hquote with rfl | rfl <;> decide
  have hin : ∀ c ∈ name, (c != quote && c != '\n') = true := fun c hc => by simp [hname c hc]
  rw [quotedName?, dropWhile_gap hgap hspace]
  simp only [hquote, if_true]
  rw [List.takeWhile_append_of_pos hin, List.dropWhile_append_of_pos hin, List.takeWhile_cons, List.dropWhile_cons]
  obtain ⟨c, name, rfl⟩ := List.exists_cons_of_ne_nil hne
  simp

theorem quotedName?_none (hgap : ∀ c ∈ gap, Text.isSpace c = true) (hd : Text.isSpace d = false)
    (hquote : ¬(d = '\'' ∨ d = '"')) (rest : List Char) : quotedName? (gap ++ d :: rest) = none := by
  rw [quotedName?, dropWhile_gap hgap hd]
  simp only [hquote, if_false]

/-! ## Calls begin with a keyword and a bracket -/

theorem passWord?_eq_some {word tail : List Char} (h : passWord? word cs = some tail) : cs = word ++ tail := by
  unfold passWord? at h
  split at h
  next hprefix =>
    obtain ⟨t, rfl⟩ := List.isPrefixOf_iff_prefix.mp hprefix
    simpa using h
  next => cases h

theorem passChar?_ne_none (h : passChar? c cs ≠ none) : (cs.dropWhile Text.isSpace).head? = some c := by
  unfold passChar? at h
  split at h
  next d rest heq =>
    split at h
    next hd => rw [heq, hd]; rfl
    next => exact absurd rfl h
  next => exact absurd rfl h

theorem namedCall_ne_none {word : List Char} (h : namedCall word cs ≠ none) :
    ∃ tail, cs = word ++ tail ∧ (tail.dropWhile Text.isSpace).head? = some '(' := by
  unfold namedCall at h
  cases hword : passWord? word cs with
  | none => simp [hword] at h
  | some tail =>
      refine ⟨tail, passWord?_eq_some hword, passChar?_ne_none fun hnone => ?_⟩
      simp [hword, hnone] at h

theorem objectCall_ne_none {word : List Char} (h : objectCall word cs ≠ none) :
    ∃ tail, cs = word ++ tail ∧ (tail.dropWhile Text.isSpace).head? = some '(' := by
  unfold objectCall at h
  cases hword : passWord? word cs with
  | none => simp [hword] at h
  | some tail =>
      refine ⟨tail, passWord?_eq_some hword, passChar?_ne_none fun hnone => ?_⟩
      simp [hword, hnone] at h

theorem namedCall_opens {k : Keyword} (h : namedCall k.word cs ≠ none) : Opens cs :=
  ⟨k, namedCall_ne_none h⟩

theorem objectCall_opens {k : Keyword} (h : objectCall k.word cs ≠ none) : Opens cs :=
  ⟨k, objectCall_ne_none h⟩

theorem elementObject_quiet (h : ¬Opens cs) : elementObject cs = none := by
  by_contra hne
  exact h (objectCall_opens (k := .polymer) hne)

theorem elementNamed_quiet (h : ¬Opens cs) : elementNamed cs = none := by
  by_contra hne
  exact h (namedCall_opens (k := .polymer) hne)

theorem moduleDefinition_quiet (h : ¬Opens cs) : moduleDefinition cs = none := by
  have hmodulate : namedCall "modulate".toList cs = none := by
    by_contra hne
    exact h (namedCall_opens (k := .modulate) hne)
  have hdefine : namedCall "define".toList cs = none := by
    by_contra hne
    exact h (namedCall_opens (k := .define) hne)
  rw [moduleDefinition, hmodulate, hdefine]

/-! ## The `is` field -/

theorem isField?_ne_none (h : isField? cs ≠ none) :
    ∃ tail, cs = 'i' :: 's' :: tail ∧ (tail.dropWhile Text.isSpace).head? = some ':' := by
  unfold isField? at h
  cases hword : passWord? ['i', 's'] cs with
  | none => simp [hword] at h
  | some tail =>
      refine ⟨tail, passWord?_eq_some hword, passChar?_ne_none fun hnone => ?_⟩
      simp [hword, hnone] at h

/-- The search for an `is` field passes over a text in which none begins. -/
theorem findIsField?_append {xs : List Char} {before : Option Char}
    (hnone : ∀ u t, xs = u ++ t → t ≠ [] → Text.wordMayStartAfter (u.getLast?.or before) = true →
      isField? (t ++ rest) = none)
    (hflat : '\x7b' ∉ xs ∧ '\x7d' ∉ xs) :
    findIsField? before (xs ++ rest) = findIsField? (xs.getLast?.or before) rest := by
  induction xs generalizing before with
  | nil => rfl
  | cons c xs ih =>
      have hc : ¬(c = '\x7b' ∨ c = '\x7d') := by
        rintro (rfl | rfl) <;> simp at hflat
      have hhead : (if Text.wordMayStartAfter before then isField? (c :: (xs ++ rest)) else none) = none := by
        split
        next hbefore => exact hnone [] (c :: xs) rfl (by simp) hbefore
        next => rfl
      have htail (u t : List Char) (heq : xs = u ++ t) (hne : t ≠ [])
          (hbefore : Text.wordMayStartAfter (u.getLast?.or (some c)) = true) : isField? (t ++ rest) = none := by
        refine hnone (c :: u) t (by rw [heq, List.cons_append]) hne ?_
        rwa [getLast?_cons_or]
      have hflat' : '\x7b' ∉ xs ∧ '\x7d' ∉ xs := by
        simp only [List.mem_cons, not_or] at hflat
        exact ⟨hflat.1.2, hflat.2.2⟩
      rw [List.cons_append, findIsField?, hhead]
      simp only [hc, if_false]
      rw [ih htail hflat', getLast?_cons_or]

theorem findIsField?_found {name : List Char} {before : Option Char} (hbefore : Text.wordMayStartAfter before = true)
    (h : isField? (c :: cs) = some (name, rest)) : findIsField? before (c :: cs) = some (name, rest) := by
  rw [findIsField?, hbefore, if_pos rfl, h]

end Script

end ImportTree
