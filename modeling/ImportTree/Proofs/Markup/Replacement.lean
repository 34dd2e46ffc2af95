import ImportTree.Proofs.Markup.References

/-!
# Replacement of references

By the grammar of references a number is written with digits alone. What a text becomes when each of its references is
replaced once, from left to right, is said here for any grammar, and compared with what the reader of values makes of
the text.
-/

namespace ImportTree.Markup.Reference

variable {names : List Char → Char → Prop} {name cs out out' front rest : List Char} {c d : Char}

/-! ## Grammars -/

/-- The references that have a name, and the characters that they stand for. -/
def named : List (List Char × Char) :=
  [("amp".toList, '&'), ("lt".toList, '<'), ("gt".toList, '>'), ("quot".toList, '"'), ("apos".toList, '\'')]

/-- What stands between the ampersand and the semicolon of a reference to a character. -/
inductive Spells : List Char → Char → Prop where
  | named {name : List Char} {c : Char} (h : (name, c) ∈ named) : Spells name c
  | decimal {digits : List Char} {c : Char} (hne : digits ≠ []) (h : Text.Numeral 10 digits c.toNat) :
      Spells ('#' :: digits) c
  | hexadecimal {x : Char} {digits : List Char} {c : Char} (hx : x = 'x' ∨ x = 'X') (hne : digits ≠ [])
      (h : Text.Numeral 16 digits c.toNat) : Spells ('#' :: x :: digits) c

/-- A text and what it becomes: each reference that a grammar names is replaced by its character, and every other
character is copied. What has been replaced is not looked at again. -/
inductive Replaced (names : List Char → Char → Prop) : List Char → List Char → Prop where
  | nil : Replaced names [] []
  | reference {name rest out : List Char} {c : Char} : names name c → Replaced names rest out →
      Replaced names ('&' :: (name ++ ';' :: rest)) (c :: out)
  | copied {cs out : List Char} {c : Char} :
      (∀ name d rest, names name d → c :: cs ≠ '&' :: (name ++ ';' :: rest)) → Replaced names cs out →
      Replaced names (c :: cs) (c :: out)

/-! ## The text of a reference -/

theorem not_digit {base d : Nat} (hbase : base ≤ 16) (h : Text.IsDigit base c d) : c ∉ ['&', ';', '+'] := by
  have hchars : ∀ d < 16, d.digitChar ∉ ['&', ';', '+'] ∧ d.digitChar.toUpper ∉ ['&', ';', '+'] := by decide
  obtain ⟨hd, rfl | rfl⟩ := h
  · exact (hchars d (hd.trans_le hbase)).1
  · exact (hchars d (hd.trans_le hbase)).2

theorem notMem_numeral {base n : Nat} (hbase : base ≤ 16) (h : Text.Numeral base cs n) :
    ∀ c ∈ cs, c ∉ ['&', ';', '+'] := by
  obtain ⟨ds, hds, -⟩ := h
  induction hds with
  | nil => simp
  | cons hd _ ih => exact List.forall_mem_cons.mpr ⟨not_digit hbase hd, ih⟩

theorem Number.notMem {base n : Nat} (hbase : base ≤ 16) (h : Number base cs n) : '&' ∉ cs ∧ ';' ∉ cs := by
  obtain ⟨sign, digits, rfl, hsign, -, hdigits⟩ := h
  have hampersand : '&' ∉ digits := fun hmem => notMem_numeral hbase hdigits '&' hmem (by decide)
  have hsemicolon : ';' ∉ digits := fun hmem => notMem_numeral hbase hdigits ';' hmem (by decide)
  rcases hsign with rfl | rfl <;> simp [hampersand, hsemicolon]

/-- A reference goes up to the next semicolon, and no other one begins in it. -/
theorem Names.notMem (h : Names name c) : '&' ∉ name ∧ ';' ∉ name := by
  cases h with
  | ampersand | less | greater | quote | apostrophe => decide
  | decimal h => simp [h.notMem (by decide)]
  | hexadecimal hx h => rcases hx with rfl | rfl <;> simp [h.notMem le_rfl]

theorem Number.unsigned {base n : Nat} (h : Number base cs n) (hsign : '+' ∉ cs) :
    cs ≠ [] ∧ Text.Numeral base cs n := by
  obtain ⟨sign, digits, rfl, rfl | rfl, hne, hdigits⟩ := h
  · exact ⟨hne, hdigits⟩
  · exact absurd (List.mem_append_left digits (List.mem_singleton_self '+')) hsign

theorem Names.closed (h : Names name c) : '&' ∉ name ++ [';'] := by
  intro hmem
  rcases List.mem_append.mp hmem with hmem | hmem
  · exact h.notMem.1 hmem
  · exact absurd hmem (by decide)

/-- By the grammar a number has no sign. -/
theorem spells_iff : Spells name c ↔ Names name c ∧ '+' ∉ name := by
  constructor
  · intro h
    have hplus {base n : Nat} {digits : List Char} (hbase : base ≤ 16) (h : Text.Numeral base digits n) :
        '+' ∉ digits := fun hmem => notMem_numeral hbase h '+' hmem (by decide)
    cases h with
    | named h =>
        simp only [named, List.mem_cons, Prod.mk.injEq, List.not_mem_nil, or_false] at h
        rcases h with ⟨rfl, rfl⟩ | ⟨rfl, rfl⟩ | ⟨rfl, rfl⟩ | ⟨rfl, rfl⟩ | ⟨rfl, rfl⟩
        · exact ⟨.ampersand, by decide⟩
        · exact ⟨.less, by decide⟩
        · exact ⟨.greater, by decide⟩
        · exact ⟨.quote, by decide⟩
        · exact ⟨.apostrophe, by decide⟩
    | decimal hne h => exact ⟨.decimal ⟨[], _, rfl, .inl rfl, hne, h⟩, by simp [hplus (by decide) h]⟩
    | hexadecimal hx hne h =>
        refine ⟨.hexadecimal hx ⟨[], _, rfl, .inl rfl, hne, h⟩, ?_⟩
        rcases hx with rfl | rfl <;> simp [hplus le_rfl h]
  · rintro ⟨h, hplus⟩
    cases h with
    | ampersand | less | greater | quote | apostrophe => exact .named (by decide)
    | decimal h =>
        obtain ⟨hne, hdigits⟩ := h.unsigned fun hmem => hplus (List.mem_cons_of_mem _ hmem)
        exact .decimal hne hdigits
    | hexadecimal hx h =>
        obtain ⟨hne, hdigits⟩ := h.unsigned fun hmem => hplus (List.mem_cons_of_mem _ (List.mem_cons_of_mem _ hmem))
        exact .hexadecimal hx hne hdigits

theorem names_unique (h : Names name c) (h' : Names name d) : c = d :=
  Option.some.inj ((meaning?_eq_some_iff.mpr h).symm.trans (meaning?_eq_some_iff.mpr h'))

/-- Where a reference ends is told by the text. -/
theorem reference_inj {name' rest' : List Char} (h : Names name c) (h' : Names name' d)
    (heq : '&' :: (name ++ ';' :: rest) = '&' :: (name' ++ ';' :: rest')) : name = name' ∧ c = d ∧ rest = rest' := by
  obtain ⟨rfl, rfl⟩ := append_cons_inj h.notMem.2 h'.notMem.2 (List.cons.inj heq).2
  exact ⟨rfl, names_unique h h', rfl⟩

/-! ## Replacement -/

/-- Every text becomes something, whatever the grammar. -/
theorem exists_replaced (names : List Char → Char → Prop) (cs : List Char) : ∃ out, Replaced names cs out := by
  induction hlen : cs.length using Nat.strong_induction_on generalizing cs with
  | _ n ih =>
    subst hlen
    cases cs with
    | nil => exact ⟨[], .nil⟩
    | cons c cs =>
        by_cases hread : ∃ name d rest, names name d ∧ c :: cs = '&' :: (name ++ ';' :: rest)
        · obtain ⟨name, d, rest, hname, heq⟩ := hread
          obtain ⟨out, hout⟩ := ih rest.length (by simp [heq]; omega) rest rfl
          exact ⟨d :: out, heq ▸ .reference hname hout⟩
        · obtain ⟨out, hout⟩ := ih cs.length (by simp) cs rfl
          exact ⟨c :: out, .copied (fun name d rest hname heq => hread ⟨name, d, rest, hname, heq⟩) hout⟩

/-- A text becomes one thing only. -/
theorem Replaced.unique (hnames : ∀ {name c}, names name c → Names name c) (h : Replaced names cs out)
    (h' : Replaced names cs out') : out = out' := by
  induction h generalizing out' with
  | nil => cases h'; rfl
  | @reference name rest out c hname _ ih =>
      generalize hcs : '&' :: (name ++ ';' :: rest) = cs at h'
      cases h' with
      | nil => cases hcs
      | @reference name' rest' out' d hname' h' =>
          obtain ⟨rfl, rfl, rfl⟩ := reference_inj (hnames hname) (hnames hname') hcs
          rw [ih h']
      | copied hnone _ => exact absurd hcs.symm (hnone name c rest hname)
  | @copied cs out c hnone _ ih =>
      generalize hcs : c :: cs = text at h'
      cases h' with
      | nil => cases hcs
      | reference hname' _ => exact absurd hcs (hnone _ _ _ hname')
      | copied _ h' =>
          cases hcs
          rw [ih h']

theorem read?_eq_some (h : read? cs = some (c, rest)) : ∃ name, Names name c ∧ cs = name ++ ';' :: rest := by
  have hsplit : cs.takeWhile (· != ';') ++ cs.dropWhile (· != ';') = cs := List.takeWhile_append_dropWhile
  unfold read? at h
  split at h
  next => cases h
  next d after hdrop =>
    have hd : d = ';' := by
      have hstop := List.head?_dropWhile_not (· != ';') cs
      simpa [hdrop] using hstop
    split at h
    next hmeaning =>
      cases h
      rw [hdrop, hd] at hsplit
      exact ⟨_, meaning?_eq_some_iff.mp hmeaning, hsplit.symm⟩
    next => cases h

/-- The reader of values replaces what it takes for a reference. -/
theorem decode_of_replaced (h : Replaced Names cs out) : decode cs = out := by
  induction h with
  | nil => rw [decode]
  | @reference name rest out c hname _ ih =>
      rw [decode_reference hname.notMem.2 hname, ih]
  | @copied cs out c hnone _ ih =>
      by_cases hc : c = '&'
      · subst hc
        rw [decode, if_pos rfl]
        split
        next d rest hread =>
          obtain ⟨name, hname, hcs⟩ := read?_eq_some hread
          exact absurd (congrArg (List.cons '&') hcs) (hnone name d rest hname)
        next => rw [ih]
      · rw [decode_plain hc, ih]

theorem replaced_iff : Replaced Names cs out ↔ decode cs = out := by
  refine ⟨decode_of_replaced, ?_⟩
  rintro rfl
  obtain ⟨out, hout⟩ := exists_replaced Names cs
  rwa [decode_of_replaced hout]

/-! ## Signs -/

/-- Whether a text has a reference whose number has a plus sign. -/
def Signed (cs : List Char) : Prop :=
  ∃ name c, Names name c ∧ '+' ∈ name ∧ '&' :: (name ++ [';']) <:+: cs

theorem signed_append (hfront : '&' ∉ front) (h : Signed (front ++ cs)) : Signed cs := by
  obtain ⟨name, c, hname, hplus, hinfix⟩ := h
  refine ⟨name, c, hname, hplus, ?_⟩
  induction front with
  | nil => exact hinfix
  | cons d front ih =>
      obtain ⟨hd, hfront⟩ := not_or.mp (List.mem_cons.not.mp hfront)
      rcases List.infix_cons_iff.mp hinfix with hprefix | hinfix
      · obtain ⟨_, heq⟩ := hprefix
        exact absurd (List.cons.inj heq).1 hd
      · exact ih hfront hinfix

/-- What holds no ampersand is copied. -/
theorem Replaced.run (hfront : '&' ∉ front) (h : Replaced names (front ++ cs) out) :
    ∃ out', out = front ++ out' ∧ Replaced names cs out' := by
  induction front generalizing out with
  | nil => exact ⟨out, rfl, h⟩
  | cons d front ih =>
      obtain ⟨hd, hfront⟩ := not_or.mp (List.mem_cons.not.mp hfront)
      generalize htext : d :: front ++ cs = text at h
      cases h with
      | nil => cases htext
      | reference _ _ => exact absurd (List.cons.inj htext).1.symm hd
      | copied _ h =>
          cases htext
          obtain ⟨out', rfl, h'⟩ := ih hfront h
          exact ⟨out', rfl, h'⟩

theorem signed_reference (hname : Names name c) (hplus : '+' ∉ name) (h : Signed ('&' :: (name ++ ';' :: rest))) :
    Signed rest := by
  obtain ⟨name', d, hname', hplus', hinfix⟩ := h
  rcases List.infix_cons_iff.mp hinfix with ⟨t, ht⟩ | hinfix
  · obtain ⟨rfl, -⟩ := reference_inj hname' hname (by simpa using ht)
    exact absurd hplus' hplus
  · exact signed_append hname.closed ⟨name', d, hname', hplus', by simpa using hinfix⟩

theorem signed_copied (hnone : ∀ name d rest, Names name d → c :: cs ≠ '&' :: (name ++ ';' :: rest))
    (h : Signed (c :: cs)) : Signed cs := by
  obtain ⟨name, d, hname, hplus, hinfix⟩ := h
  rcases List.infix_cons_iff.mp hinfix with ⟨t, ht⟩ | hinfix
  · exact absurd (by simpa using ht.symm) (hnone name d t hname)
  · exact ⟨name, d, hname, hplus, hinfix⟩

theorem replaced_plain (names : List Char → Char → Prop) (h : '&' ∉ cs) : Replaced names cs cs := by
  obtain ⟨out, hout⟩ := exists_replaced names cs
  rw [← List.append_nil cs] at hout
  obtain ⟨out', rfl, h'⟩ := hout.run h
  cases h' with
  | nil => simpa using hout

/-- By the grammar nothing more is replaced than the reader of values replaces, and less if there is a sign. -/
theorem length_le_of_replaced (h : Replaced Names cs out) (h' : Replaced Spells cs out') :
    out.length ≤ out'.length ∧ (Signed cs → out.length < out'.length) := by
  induction h generalizing out' with
  | nil =>
      refine ⟨Nat.zero_le _, ?_⟩
      rintro ⟨_, _, _, _, hinfix⟩
      simp at hinfix
  | @reference name rest out c hname _ ih =>
      generalize htext : '&' :: (name ++ ';' :: rest) = text at h'
      cases h' with
      | nil => cases htext
      | @reference name' rest' out' d hname' h' =>
          obtain ⟨hnames, hplus⟩ := spells_iff.mp hname'
          obtain ⟨rfl, rfl, rfl⟩ := reference_inj hname hnames htext
          obtain ⟨hle, hlt⟩ := ih h'
          exact ⟨Nat.succ_le_succ hle, fun hsigned => Nat.succ_lt_succ (hlt (signed_reference hname hplus hsigned))⟩
      | copied hnone h' =>
          obtain ⟨rfl, rfl⟩ := List.cons.inj htext
          -- The whole reference is left as it is, and it is longer than its character.
          rw [List.append_cons] at h'
          obtain ⟨out'', rfl, h''⟩ := h'.run hname.closed
          have hle := (ih h'').1
          simp only [List.length_cons, List.length_append]
          exact ⟨by omega, fun _ => by omega⟩
  | @copied cs out c hnone _ ih =>
      generalize htext : c :: cs = text at h'
      cases h' with
      | nil => cases htext
      | reference hname' _ => exact absurd htext (hnone _ _ _ (spells_iff.mp hname').1)
      | copied _ h' =>
          obtain ⟨rfl, rfl⟩ := List.cons.inj htext
          obtain ⟨hle, hlt⟩ := ih h'
          exact ⟨Nat.succ_le_succ hle, fun hsigned => Nat.succ_lt_succ (hlt (signed_copied hnone hsigned))⟩

/-- Without signs nothing else is replaced. -/
theorem Replaced.spells (h : Replaced Names cs out) (hsigned : ¬Signed cs) : Replaced Spells cs out := by
  induction h with
  | nil => exact .nil
  | @reference name rest out c hname _ ih =>
      have hplus : '+' ∉ name := fun hmem => hsigned ⟨name, c, hname, hmem, [], rest, by simp⟩
      refine .reference (spells_iff.mpr ⟨hname, hplus⟩) (ih fun hrest => hsigned ?_)
      obtain ⟨name', d, hname', hplus', hinfix⟩ := hrest
      exact ⟨name', d, hname', hplus', hinfix.trans ⟨'&' :: (name ++ [';']), [], by simp⟩⟩
  | copied hnone _ ih =>
      refine .copied (fun name d rest hname => hnone name d rest (spells_iff.mp hname).1) (ih fun hrest => hsigned ?_)
      obtain ⟨name, d, hname, hplus, hinfix⟩ := hrest
      exact ⟨name, d, hname, hplus, List.infix_cons hinfix⟩

/-- The reader of values replaces each reference once, from left to right, if a plus sign before a number is taken for a
part of the grammar. By the grammar itself there is one text that a value stands for, and the reader gives this text
exactly if no reference of the value has a sign. -/
theorem decode_replaced (cs : List Char) : (∀ out, Replaced Names cs out ↔ decode cs = out) ∧
    ∃ out, (∀ out', Replaced Spells cs out' ↔ out' = out) ∧ (decode cs = out ↔ ¬Signed cs) := by
  obtain ⟨out, hout⟩ := exists_replaced Spells cs
  have hnames : Replaced Names cs (decode cs) := replaced_iff.mpr rfl
  have hunique {out'} (h : Replaced Spells cs out') : out' = out := h.unique (fun h => (spells_iff.mp h).1) hout
  refine ⟨fun _ => replaced_iff, out, fun out' => ⟨hunique, ?_⟩, ?_, fun hsigned => hunique (hnames.spells hsigned)⟩
  · rintro rfl
    exact hout
  · intro heq hsigned
    have hlt := (length_le_of_replaced hnames hout).2 hsigned
    rw [heq] at hlt
    exact Nat.lt_irrefl _ hlt

/-- A number with a sign is no reference by the grammar, but is read as one. -/
theorem decode_sign : decode "&#+65;".toList = ['A'] ∧ Replaced Spells "&#+65;".toList "&#+65;".toList := by
  refine ⟨by decide +kernel, .copied (fun name d rest hname heq => ?_) (replaced_plain _ (by decide))⟩
  obtain ⟨hnames, hplus⟩ := spells_iff.mp hname
  have hbody : "#+65".toList ++ ';' :: [] = name ++ ';' :: rest := (List.cons.inj heq).2
  obtain ⟨rfl, -⟩ := append_cons_inj (by decide) hnames.notMem.2 hbody
  exact hplus (by decide)

end ImportTree.Markup.Reference
