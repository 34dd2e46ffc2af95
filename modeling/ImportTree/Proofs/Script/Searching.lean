import ImportTree.Proofs.Script.Source
import Mathlib.Data.List.Infix

/-!
# Searching for calls

A search for calls passes over every text in which no call begins. It goes on behind a call that it finds, with the
character before it, its offset and its line kept up to date.
-/

namespace ImportTree.Script

variable {form : CallForm} {c d : Char} {cs xs ys rest : List Char} {before : Option Char} {offset line : Nat}

/-! ## Where calls begin -/

/-- Whether a text begins with a keyword and, behind any white space, a bracket. -/
def Opens (cs : List Char) : Prop :=
  ∃ (k : Keyword) (tail : List Char), cs = k.word ++ tail ∧ (tail.dropWhile Text.isSpace).head? = some '('

/-- Whether no call begins in a text that is followed by another one. -/
def Quiet (xs rest : List Char) : Prop :=
  ∀ t, t ≠ [] → t <:+ xs → ¬Opens (t ++ rest)

theorem Quiet.nil (rest : List Char) : Quiet [] rest :=
  fun _ hne hs => absurd (List.suffix_nil.mp hs) hne

theorem Quiet.cons (hc : ¬Opens (c :: (xs ++ rest))) (h : Quiet xs rest) : Quiet (c :: xs) rest := by
  intro t hne hs
  rcases List.suffix_cons_iff.mp hs with rfl | hs
  · exact hc
  · exact h t hne hs

theorem Quiet.tail (h : Quiet (c :: xs) rest) : Quiet xs rest :=
  fun t hne hs => h t hne (hs.trans (List.suffix_cons ..))

theorem Quiet.append (hx : Quiet xs (ys ++ rest)) (hy : Quiet ys rest) : Quiet (xs ++ ys) rest := by
  induction xs with
  | nil => exact hy
  | cons c xs ih =>
      refine .cons ?_ (ih hx.tail)
      have hc := hx (c :: xs) (by simp) (List.suffix_refl _)
      simpa using hc

theorem Keyword.word_alpha (k : Keyword) : ∀ c ∈ k.word, c.isAlpha = true := by
  rw [← List.all_eq_true]
  cases k <;> decide

theorem Keyword.word_initial (k : Keyword) : ∃ c tail, k.word = c :: tail ∧ c ∈ ['P', 'm', 'd'] := by
  cases k <;> exact ⟨_, _, rfl, by decide⟩

/-- No call begins with a character that begins no keyword. -/
theorem not_opens_initial (h : c ∉ ['P', 'm', 'd']) (cs : List Char) : ¬Opens (c :: cs) := by
  rintro ⟨k, tail, heq, _⟩
  obtain ⟨d, word, hword, hd⟩ := k.word_initial
  rw [hword, List.cons_append] at heq
  exact h ((List.cons.inj heq).1 ▸ hd)

theorem Quiet.of_initials (h : ∀ c ∈ xs, c ∉ ['P', 'm', 'd']) (rest : List Char) : Quiet xs rest := by
  induction xs with
  | nil => exact .nil rest
  | cons c xs ih =>
      exact .cons (not_opens_initial (h c (List.mem_cons_self ..)) _) (ih fun d hd => h d (List.mem_cons_of_mem _ hd))

theorem Quiet.single (h : c ∉ ['P', 'm', 'd']) (rest : List Char) : Quiet [c] rest :=
  .of_initials (fun _ hd => List.mem_singleton.mp hd ▸ h) rest

/-- A text without keywords is quiet, unless its last letters and the first ones behind it make up a keyword. -/
theorem Quiet.of_mute (h : Mute xs)
    (hseam : ∀ c ∈ xs.getLast?, ∀ d ∈ rest.head?, c.isAlpha = true → d.isAlpha = false) : Quiet xs rest := by
  rintro t hne hs ⟨k, tail, heq, _⟩
  rcases List.append_eq_append_iff.mp heq with ⟨u, hword, hrest⟩ | ⟨u, rfl, _⟩
  · cases u with
    | nil =>
        rw [List.append_nil] at hword
        exact h k (hword ▸ hs.isInfix)
    | cons d u =>
        obtain ⟨s, rfl⟩ := hs
        have hlast : t.getLast hne ∈ (s ++ t).getLast? := by
          rw [List.getLast?_append_of_ne_nil _ hne, List.getLast?_eq_getLast_of_ne_nil hne]
          rfl
        have hd : d ∈ rest.head? := by
          rw [hrest]
          rfl
        have hletters : ∀ c ∈ t ++ d :: u, c.isAlpha = true := hword ▸ k.word_alpha
        have hstop := hseam _ hlast d hd (hletters _ (List.mem_append_left _ (List.getLast_mem hne)))
        rw [hletters d (by simp)] at hstop
        cases hstop
  · exact h k ((List.prefix_append ..).isInfix.trans hs.isInfix)

/-- A keyword in a quoted name begins no call: neither a bracket nor white space stands behind it. -/
theorem Quiet.of_name (h : ∀ c ∈ xs, Text.isSpace c = false ∧ c ≠ '(') (hd : d.isAlpha = false)
    (hspace : Text.isSpace d = false) (hparen : d ≠ '(') (rest : List Char) : Quiet xs (d :: rest) := by
  rintro t hne hs ⟨k, tail, heq, hopen⟩
  have hnext : ∀ c ∈ t ++ [d], Text.isSpace c = false ∧ c ≠ '(' := by
    intro c hc
    rcases List.mem_append.mp hc with hc | hc
    · exact h c (hs.subset hc)
    · rw [List.mem_singleton.mp hc]
      exact ⟨hspace, hparen⟩
  rcases List.append_eq_append_iff.mp heq with ⟨u, hword, hrest⟩ | ⟨u, rfl, htail⟩
  · cases u with
    | nil =>
        obtain rfl : d :: rest = tail := hrest
        rw [List.dropWhile_cons, if_neg (by simp [hspace])] at hopen
        exact hparen (Option.some.inj hopen)
    | cons e u =>
        obtain rfl : d = e := (List.cons.inj hrest).1
        have := k.word_alpha d (by rw [hword]; simp)
        rw [hd] at this
        cases this
  · have hhead : ∃ e u', tail = e :: u' ∧ e ∈ k.word ++ u ++ [d] := by
      rw [htail]
      cases u with
      | nil => exact ⟨d, rest, rfl, by simp⟩
      | cons e u => exact ⟨e, _, rfl, by simp⟩
    obtain ⟨e, u', rfl, he⟩ := hhead
    rw [List.dropWhile_cons, if_neg (by simp [(hnext e he).1])] at hopen
    exact (hnext e he).2 (Option.some.inj hopen)

/-! ## The search -/

theorem line_cons (line : Nat) (c : Char) (xs : List Char) :
    (if c = '\n' then line + 1 else line) + xs.count '\n' = line + (c :: xs).count '\n' := by
  by_cases hc : c = '\n'
  · simp only [hc, if_true, List.count_cons_self]
    omega
  · simp [hc]

theorem callsFrom_skip (xs : List Char) : callsFrom form xs.length before offset line (xs ++ rest) =
    callsFrom form 0 (xs.getLast?.or before) (offset + xs.length) (line + xs.count '\n') rest := by
  induction xs generalizing before offset line with
  | nil => rfl
  | cons c xs ih =>
      rw [List.cons_append, List.length_cons, callsFrom, ih, getLast?_cons_or, line_cons, Nat.add_right_comm,
        Nat.add_assoc]

/-- A search passes over what is quiet. -/
theorem callsFrom_quiet (hform : ∀ cs, ¬Opens cs → form cs = none) (h : Quiet xs rest) :
    callsFrom form 0 before offset line (xs ++ rest) =
      callsFrom form 0 (xs.getLast?.or before) (offset + xs.length) (line + xs.count '\n') rest := by
  induction xs generalizing before offset line with
  | nil => rfl
  | cons c xs ih =>
      have hnone : form (c :: (xs ++ rest)) = none := hform _ (h (c :: xs) (by simp) (List.suffix_refl _))
      rw [List.cons_append, callsFrom, hnone, ite_self]
      simp only
      rw [ih h.tail, getLast?_cons_or, line_cons, List.length_cons, Nat.add_right_comm, Nat.add_assoc]

/-- A call is found where it begins at a word boundary, and the search goes on behind it. -/
theorem callsFrom_found {name : List Char} (hbefore : Text.wordMayStartAfter before = true)
    (hform : form (c :: (xs ++ rest)) = some (name, rest)) : callsFrom form 0 before offset line (c :: (xs ++ rest)) =
      ⟨offset, line, String.ofList name⟩ :: callsFrom form 0 (xs.getLast?.or (some c)) (offset + (c :: xs).length)
        (line + (c :: xs).count '\n') rest := by
  have hskip : (xs ++ rest).length - rest.length = xs.length := by simp
  rw [callsFrom, hbefore, if_pos rfl, hform]
  simp only
  rw [hskip, callsFrom_skip, line_cons, List.length_cons, Nat.add_right_comm, Nat.add_assoc]

end ImportTree.Script
