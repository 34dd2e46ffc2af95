import ImportTree.Markup.Construct
import Mathlib.Data.List.Infix

/-!
# First occurrences

A search for a mark finds it where it stands, unless it stands somewhere before. No part of a mark that is searched for
in markup is a beginning and an end of it at once, so the text before a mark cannot complete it too early.
-/

namespace ImportTree

variable {mark body rest cs : List Char} {p : Char → Bool}

/-! ## Runs of characters -/

theorem takeWhile_run (hb : ∀ c ∈ body, p c = true) (hr : ∀ c ∈ rest.head?, p c = false) :
    (body ++ rest).takeWhile p = body := by
  rw [List.takeWhile_append_of_pos hb]
  cases rest with
  | nil => simp
  | cons c rest => simp [hr c rfl]

theorem dropWhile_run (hb : ∀ c ∈ body, p c = true) (hr : ∀ c ∈ rest.head?, p c = false) :
    (body ++ rest).dropWhile p = rest := by
  rw [List.dropWhile_append_of_pos hb]
  cases rest with
  | nil => rfl
  | cons c rest => simp [hr c rfl]

/-- What stands before the first mark and what stands behind it are told by the text. -/
theorem append_cons_inj {c : Char} {body' rest' : List Char} (hbody : c ∉ body) (hbody' : c ∉ body')
    (h : body ++ c :: rest = body' ++ c :: rest') : body = body' ∧ rest = rest' := by
  have hmark {body : List Char} (hbody : c ∉ body) : ∀ d ∈ body, (d != c) = true :=
    fun d hd => bne_iff_ne.mpr fun heq => hbody (heq ▸ hd)
  have hstop (rest : List Char) : ∀ d ∈ (c :: rest).head?, (d != c) = false := by simp
  have htake := congrArg (List.takeWhile (· != c)) h
  rw [takeWhile_run (hmark hbody) (hstop rest), takeWhile_run (hmark hbody') (hstop rest')] at htake
  subst htake
  exact ⟨rfl, by simpa using h⟩

/-! ## Marks -/

/-- A mark without some character ends before the first such character. -/
theorem prefix_of_notMem {c : Char} (hc : c ∉ mark) (h : mark <+: body ++ c :: rest) : mark <+: body := by
  rcases List.prefix_or_prefix_of_prefix h (List.prefix_append body _) with hbody | ⟨tail, rfl⟩
  · exact hbody
  · rw [List.prefix_append_right_inj] at h
    cases tail with
    | nil => simp
    | cons d tail =>
        obtain ⟨rfl, -⟩ := List.cons_prefix_cons.mp h
        exact absurd (by simp) hc

/-- Whether no proper part of a mark is both a beginning and an end of it. -/
def Unbordered (mark : List Char) : Prop :=
  ∀ t ∈ mark.tails, t ≠ [] → t <+: mark → t = mark

instance (mark : List Char) : Decidable (Unbordered mark) :=
  inferInstanceAs (Decidable (∀ t ∈ mark.tails, t ≠ [] → t <+: mark → t = mark))

/-- What stands before a mark does not complete it. -/
theorem Unbordered.prefix_left (h : Unbordered mark) (hb : body ≠ []) (hm : mark <+: body ++ (mark ++ rest)) :
    mark <+: body := by
  rcases List.prefix_or_prefix_of_prefix hm (List.prefix_append body _) with hm' | ⟨t, rfl⟩
  · exact hm'
  · have ht : t <+: body ++ t ++ rest := (List.prefix_append_right_inj body).mp hm
    have ht' : t <+: body ++ t := List.prefix_of_prefix_length_le ht (List.prefix_append _ rest) (by simp)
    cases t with
    | nil => simp
    | cons c t =>
        have heq := h (c :: t) ((List.mem_tails _ _).mpr (List.suffix_append ..)) (by simp) ht'
        exact absurd (List.append_left_eq_self.mp heq.symm) hb

namespace Text

/-! ## Searches -/

theorem cutBefore?_first {marked : List Char → Bool} (hrest : marked rest = true)
    (hbody : ∀ t, t ≠ [] → t <:+ body → marked (t ++ rest) = false) :
    cutBefore? marked (body ++ rest) = some (body, rest) := by
  induction body with
  | nil => cases rest <;> simp [cutBefore?, hrest]
  | cons c body ih =>
      have hhead := hbody (c :: body) (List.cons_ne_nil c body) (List.suffix_refl _)
      have htail := ih fun t ht hs => hbody t ht (hs.trans (List.suffix_cons ..))
      rw [List.cons_append] at hhead ⊢
      rw [cutBefore?, hhead, htail]
      simp

theorem cutAround?_first (hu : Unbordered mark) (hbody : ¬mark <:+: body) (rest : List Char) :
    cutAround? mark (body ++ (mark ++ rest)) = some (body, rest) := by
  have hcut : cutBefore? mark.isPrefixOf (body ++ (mark ++ rest)) = some (body, mark ++ rest) := by
    refine cutBefore?_first (by simp) fun t ht hs => ?_
    by_contra hmark
    have hprefix : mark <+: t ++ (mark ++ rest) := by simpa using hmark
    exact hbody ((hu.prefix_left ht hprefix).isInfix.trans hs.isInfix)
  rw [cutAround?, hcut]
  simp

/-- A search finds the first of the marked places, and no other. -/
theorem cutBefore?_eq_some_iff {marked : List Char → Bool} : cutBefore? marked cs = some (body, rest) ↔
    cs = body ++ rest ∧ marked rest = true ∧ ∀ t, t ≠ [] → t <:+ body → marked (t ++ rest) = false := by
  refine ⟨fun h => ⟨(cutBefore?_append h).symm, cutBefore?_marked h, ?_⟩, ?_⟩
  · induction cs generalizing body with
    | nil =>
        simp only [cutBefore?, Option.ite_none_right_eq_some, Option.some.injEq, Prod.mk.injEq] at h
        obtain ⟨_, rfl, rfl⟩ := h
        exact fun t ht hs => absurd (List.suffix_nil.mp hs) ht
    | cons c cs ih =>
        rw [cutBefore?] at h
        split at h
        next =>
          cases h
          exact fun t ht hs => absurd (List.suffix_nil.mp hs) ht
        next hc =>
          split at h
          next before after htail =>
            cases h
            intro t ht hs
            rcases List.suffix_cons_iff.mp hs with rfl | hs
            · rw [List.cons_append, cutBefore?_append htail]
              exact Bool.eq_false_iff.mpr hc
            · exact ih htail t ht hs
          next => cases h
  · rintro ⟨rfl, hrest, hbody⟩
    exact cutBefore?_first hrest hbody

theorem cutBefore?_eq_none_iff {marked : List Char → Bool} :
    cutBefore? marked cs = none ↔ ∀ t, t <:+ cs → marked t = false := by
  induction cs with
  | nil => simp [cutBefore?]
  | cons c cs ih =>
      have hcs : (∀ t, t <:+ c :: cs → marked t = false) ↔
          marked (c :: cs) = false ∧ ∀ t, t <:+ cs → marked t = false := by
        simp [List.suffix_cons_iff, or_imp, forall_and]
      rw [hcs, ← ih, cutBefore?]
      cases marked (c :: cs) <;> cases cutBefore? marked cs <;> simp

theorem cutAround?_eq_some_iff (hu : Unbordered mark) (hne : mark ≠ []) :
    cutAround? mark cs = some (body, rest) ↔ cs = body ++ (mark ++ rest) ∧ ¬mark <:+: body := by
  constructor
  · intro h
    refine ⟨by rw [← cutAround?_append h, List.append_assoc], fun hbody => ?_⟩
    unfold cutAround? at h
    split at h
    next before after hcut =>
      cases h
      obtain ⟨t, hfront, hsuffix⟩ := (List.infix_iff_prefix_suffix ..).mp hbody
      have ht : t ≠ [] := by
        rintro rfl
        exact hne (List.prefix_nil.mp hfront)
      have hmarked := (cutBefore?_eq_some_iff.mp hcut).2.2 t ht hsuffix
      rw [Bool.eq_false_iff, ne_eq, List.isPrefixOf_iff_prefix] at hmarked
      exact hmarked (hfront.trans (List.prefix_append ..))
    next => cases h
  · rintro ⟨rfl, hbody⟩
    exact cutAround?_first hu hbody rest

theorem cutAround?_eq_none_iff : cutAround? mark cs = none ↔ ¬mark <:+: cs := by
  have hnone : cutAround? mark cs = none ↔ cutBefore? mark.isPrefixOf cs = none := by
    unfold cutAround?
    split <;> simp [*]
  rw [hnone, cutBefore?_eq_none_iff, List.infix_iff_prefix_suffix]
  simp only [Bool.eq_false_iff, ne_eq, List.isPrefixOf_iff_prefix, not_exists, not_and]
  exact forall_congr' fun t => ⟨fun h hp hs => h hs hp, fun h hs hp => h hp hs⟩

/-! ## Up to the case of letters -/

@[simp] theorem lower_append (cs cs' : List Char) : lower (cs ++ cs') = lower cs ++ lower cs' :=
  List.map_append

theorem startsWithLetters_iff : startsWithLetters mark cs = true ↔ lower mark <+: lower cs := by
  rw [startsWithLetters, sameLetters, beq_iff_eq, List.prefix_iff_eq_take]
  simp [lower, List.map_take]

/-- A mark is found where it stands in any case of letters, unless it stands somewhere before. -/
theorem cutBefore?_letters {closing : List Char} (hu : Unbordered (lower mark)) (hclosing : lower closing = lower mark)
    (hbody : ¬lower mark <:+: lower body) (rest : List Char) :
    cutBefore? (startsWithLetters mark) (body ++ (closing ++ rest)) = some (body, closing ++ rest) := by
  refine cutBefore?_first (startsWithLetters_iff.mpr (by simp [hclosing])) fun t ht hs => ?_
  by_contra hmark
  have hprefix : lower mark <+: lower t ++ (lower mark ++ lower rest) := by
    rw [Bool.not_eq_false, startsWithLetters_iff, lower_append, lower_append, hclosing] at hmark
    exact hmark
  have ht' : lower t ≠ [] := by simpa [lower] using ht
  exact hbody ((hu.prefix_left ht' hprefix).isInfix.trans (hs.map _).isInfix)

theorem infix_lower_iff : lower mark <:+: lower cs ↔ ∃ t, t <:+ cs ∧ startsWithLetters mark t = true := by
  simp only [List.infix_iff_prefix_suffix, startsWithLetters_iff]
  constructor
  · rintro ⟨t, hprefix, hsuffix⟩
    obtain ⟨t', hsuffix', rfl⟩ := List.suffix_map_iff.mp hsuffix
    exact ⟨t', hsuffix', hprefix⟩
  · rintro ⟨t, hsuffix, hprefix⟩
    exact ⟨lower t, hprefix, hsuffix.map _⟩

theorem cutBefore?_letters_eq_none_iff : cutBefore? (startsWithLetters mark) cs = none ↔ ¬lower mark <:+: lower cs := by
  simp only [cutBefore?_eq_none_iff, infix_lower_iff, not_exists, not_and, Bool.not_eq_true]

theorem cutBefore?_letters_eq_some_iff (hu : Unbordered (lower mark)) (hne : mark ≠ []) :
    cutBefore? (startsWithLetters mark) cs = some (body, rest) ↔
      cs = body ++ rest ∧ ¬lower mark <:+: lower body ∧ lower mark <+: lower rest := by
  constructor
  · intro h
    obtain ⟨hcs, hmarked, hbefore⟩ := cutBefore?_eq_some_iff.mp h
    refine ⟨hcs, fun hbody => ?_, startsWithLetters_iff.mp hmarked⟩
    obtain ⟨t, hsuffix, hmark⟩ := infix_lower_iff.mp hbody
    rw [startsWithLetters_iff] at hmark
    have ht : t ≠ [] := by
      rintro rfl
      exact hne (List.map_eq_nil_iff.mp (List.prefix_nil.mp hmark))
    have := hbefore t ht hsuffix
    rw [Bool.eq_false_iff, ne_eq, startsWithLetters_iff, lower_append] at this
    exact this (hmark.trans (List.prefix_append ..))
  · rintro ⟨rfl, hbody, closing, hclosing⟩
    obtain ⟨mark', rest, rfl, hmark', -⟩ := List.map_eq_append_iff.mp hclosing.symm
    exact cutBefore?_letters hu hmark' hbody rest

end Text

theorem Markup.Construct.throughBracket_first (hbody : '>' ∉ body) (rest : List Char) :
    throughBracket (body ++ '>' :: rest) = (body ++ ['>'], rest) := by
  induction body with
  | nil => simp [throughBracket]
  | cons c body ih =>
      obtain ⟨hc, hbody⟩ := not_or.mp (List.mem_cons.not.mp hbody)
      rw [List.cons_append, throughBracket, if_neg (Ne.symm hc), ih hbody]
      rfl

end ImportTree
