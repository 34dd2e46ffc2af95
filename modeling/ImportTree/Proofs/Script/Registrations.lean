import ImportTree.Proofs.Script.Forms
import Mathlib.Data.List.TakeWhile

/-!
# Declarations of a script

The calls found in a masked script are those that were written into it. The two forms of calls that declare elements are
searched for one after another, and their offsets bring them back into the order of the script.
-/

namespace ImportTree.Script

variable {c d : Char} {cs rest : List Char} {before : Option Char} {offset line : Nat}

/-! ## Masked code -/

theorem mem_blankOut (h : c ∈ blankOut d) : c = '\n' ∨ c = ' ' := by
  unfold blankOut at h
  split at h
  next hd => exact .inl ((List.mem_singleton.mp h).trans hd)
  next => exact .inr (List.eq_of_mem_replicate h)

theorem count_blankOut (cs : List Char) : (cs.flatMap blankOut).count '\n' = cs.count '\n' := by
  induction cs with
  | nil => rfl
  | cons c cs ih =>
      by_cases hc : c = '\n'
      · simp [blankOut, hc, ih]
      · simp [blankOut, hc, ih, List.count_replicate]

namespace Layout

/-- The comments of a gap are white space once they are blanked. -/
theorem IsGap.space {l : Layout} (h : l.IsGap) : ∀ c ∈ l.masked, Text.isSpace c = true := by
  intro c hc
  obtain ⟨s, hs, hc⟩ := List.mem_flatMap.mp hc
  have hblank {cs : List Char} (hc : c ∈ cs.flatMap blankOut) : Text.isSpace c = true := by
    obtain ⟨d, _, hd⟩ := List.mem_flatMap.mp hc
    rcases mem_blankOut hd with rfl | rfl <;> decide
  cases s with
  | code cs => exact h cs hs c hc
  | lineComment body => exact hblank hc
  | blockComment body => exact hblank hc

theorem count_masked (l : Layout) : l.masked.count '\n' = l.written.count '\n' := by
  induction l with
  | nil => rfl
  | cons s l ih =>
      have hs : s.masked.count '\n' = s.written.count '\n' := by
        cases s with
        | code cs => rfl
        | lineComment body => exact count_blankOut _
        | blockComment body => exact count_blankOut _
      change (s.masked ++ masked l).count '\n' = (s.written ++ written l).count '\n'
      rw [List.count_append, List.count_append, hs, ih]

end Layout

theorem Registration.count_text (r : Registration) :
    (r.text Layout.masked).count '\n' = (r.text Layout.written).count '\n' := by
  cases hform : r.form <;>
    simp [text, inner, hform, Form.text, List.count_cons, Layout.count_masked]

/-! ## Forms -/

theorem namedCall_word (k : Keyword) {gap : List Char} (hgap : ∀ c ∈ gap, Text.isSpace c = true) (cs : List Char) :
    namedCall k.word (k.word ++ (gap ++ '(' :: cs)) = quotedName? cs := by
  rw [namedCall, passWord?_append]
  simp only [passChar?_gap hgap (by decide : Text.isSpace '(' = false), if_true]

theorem objectCall_word (k : Keyword) {gap gap' : List Char} (hgap : ∀ c ∈ gap, Text.isSpace c = true)
    (hgap' : ∀ c ∈ gap', Text.isSpace c = true) (hd : Text.isSpace d = false) (cs : List Char) :
    objectCall k.word (k.word ++ (gap ++ '(' :: (gap' ++ d :: cs))) =
      if d = '\x7b' then findIsField? (some '\x7b') cs else none := by
  rw [objectCall, passWord?_append]
  simp only [passChar?_gap hgap (by decide : Text.isSpace '(' = false), if_true, passChar?_gap hgap' hd]
  by_cases hopen : d = '\x7b' <;> simp [hopen]

theorem namedCall_other {k k' : Keyword} (h : k ≠ k') (cs : List Char) : namedCall k.word (k'.word ++ cs) = none := by
  cases k <;> cases k' <;> first | exact absurd rfl h | rfl

theorem objectCall_other {k k' : Keyword} (h : k ≠ k') (cs : List Char) : objectCall k.word (k'.word ++ cs) = none := by
  cases k <;> cases k' <;> first | exact absurd rfl h | rfl

namespace Registration

variable (r : Registration)

theorem of_quotes {P : Char → Prop} (single : P '\'') (double : P '"') : P r.quote :=
  r.quote_mark.elim (· ▸ single) (· ▸ double)

theorem quote_space : Text.isSpace r.quote = false :=
  r.of_quotes (P := (Text.isSpace · = false)) (by decide) (by decide)

theorem name_inside : ∀ c ∈ r.name, c ≠ r.quote ∧ c ≠ '\n' := by
  intro c hc
  have hrange := nameChar_range (r.name_chars c hc)
  have hquote : r.quote.toNat < 45 := r.of_quotes (P := (·.toNat < 45)) (by decide) (by decide)
  constructor
  · rintro rfl
    omega
  · rintro rfl
    revert hrange
    decide

theorem name_outside : ∀ c ∈ r.name, Text.isSpace c = false ∧ c ≠ '(' := by
  intro c hc
  have hrange := nameChar_range (r.name_chars c hc)
  constructor
  · by_contra hspace
    rw [Bool.not_eq_false] at hspace
    have hmem := Text.mem_spaceNumbers hspace
    simp only [Text.spaceNumbers, List.mem_cons, List.not_mem_nil, or_false] at hmem
    omega
  · rintro rfl
    revert hrange
    decide

/-- The name is read behind its gap. -/
theorem quotedName?_name (rest : List Char) :
    quotedName? (r.beforeName.masked ++ r.quote :: (r.name ++ r.quote :: rest)) = some (r.name, rest) :=
  quotedName?_gap r.beforeName_gap.space r.quote_mark r.name_ne r.name_inside rest

end Registration

/-- In fields that end with a comma, the colon behind a word does not stand behind all of them. -/
theorem HasIsField.of_colon {u v : List Char} (hend : ∀ c ∈ (u ++ 'i' :: 's' :: v).getLast?, c = ',')
    (hword : ∀ c ∈ u.getLast?, Text.isWord c = false)
    (hcolon : ((v ++ rest).dropWhile Text.isSpace).head? = some ':') : HasIsField (u ++ 'i' :: 's' :: v) := by
  have hcomma : ',' ∈ v := by
    have hlast : (u ++ 'i' :: 's' :: v).getLast? = ('s' :: v).getLast? := by
      rw [List.append_cons, List.getLast?_append_of_ne_nil _ (by simp)]
    rw [hlast] at hend
    cases v with
    | nil => exact absurd (hend 's' rfl) (by decide)
    | cons c v =>
        rw [List.getLast?_cons_cons, List.getLast?_eq_getLast_of_ne_nil (by simp)] at hend
        exact hend _ rfl ▸ List.getLast_mem (by simp)
  have hne : v.dropWhile Text.isSpace ≠ [] := by
    intro hnil
    rw [List.dropWhile_eq_nil_iff] at hnil
    exact absurd (hnil _ hcomma) (by decide)
  refine ⟨u, v, rfl, hword, ?_⟩
  rwa [List.dropWhile_append, if_neg (by simpa using hne), List.head?_append_of_ne_nil _ hne] at hcolon

namespace ObjectStart

variable (start : ObjectStart)

/-- No field before the one that gives the name can be taken for it. -/
theorem isField?_fields {u t : List Char} (heq : start.fields.masked ++ start.beforeIs.masked = u ++ t) (hne : t ≠ [])
    (hbefore : Text.wordMayStartAfter (u.getLast?.or (some '\x7b')) = true) (rest : List Char) :
    isField? (t ++ rest) = none := by
  by_contra hfield
  obtain ⟨tail, htext, hcolon⟩ := isField?_ne_none hfield
  have hend := start.fields_end
  have hother := start.fields_other
  have hblank {t : List Char} (hne : t ≠ []) (hspace : ∀ c ∈ t, Text.isSpace c = true) :
      t ++ rest ≠ 'i' :: 's' :: tail := by
    intro htext
    obtain ⟨c, t, rfl⟩ := List.exists_cons_of_ne_nil hne
    obtain rfl : c = 'i' := (List.cons.inj htext).1
    exact absurd (hspace 'i' (by simp)) (by decide)
  rcases List.append_eq_append_iff.mp heq with ⟨v, _, hgap⟩ | ⟨v, hfields, rfl⟩
  · exact hblank hne (fun c hc => start.beforeIs_gap.space c (hgap ▸ List.mem_append_right v hc)) htext
  · rw [hfields] at hend hother
    -- The word stands in the white space, crosses the end of the fields or stands within them.
    match v, hend, hother, htext with
    | [], _, _, htext => exact hblank (by simpa using hne) (by simpa using start.beforeIs_gap.space) htext
    | [c], hend, _, htext =>
        obtain rfl : c = 'i' := (List.cons.inj htext).1
        exact absurd (hend 'i' (by simp)) (by decide)
    | c :: d :: v, hend, hother, htext =>
        obtain ⟨rfl, htail⟩ := List.cons.inj htext
        obtain ⟨rfl, rfl⟩ := List.cons.inj htail
        change ((v ++ start.beforeIs.masked ++ rest).dropWhile Text.isSpace).head? = some ':' at hcolon
        rw [List.append_assoc] at hcolon
        refine hother (.of_colon hend (fun c hc => ?_) hcolon)
        simpa [Text.wordMayStartAfter, Option.mem_def.mp hc] using hbefore

theorem findIsField?_name (r : Registration) (rest : List Char) :
    findIsField? (some '\x7b') (start.fields.masked ++ (start.beforeIs.masked ++ 'i' :: 's' ::
      (start.beforeColon.masked ++ ':' :: (r.beforeName.masked ++ r.quote :: (r.name ++ r.quote :: rest))))) =
        some (r.name, rest) := by
  have hfield : isField? ('i' :: 's' :: (start.beforeColon.masked ++
      ':' :: (r.beforeName.masked ++ r.quote :: (r.name ++ r.quote :: rest)))) = some (r.name, rest) := by
    have hword (cs : List Char) : passWord? ['i', 's'] ('i' :: 's' :: cs) = some cs := passWord?_append ['i', 's'] cs
    rw [isField?, hword]
    simp only [passChar?_gap start.beforeColon_gap.space (by decide : Text.isSpace ':' = false), if_true,
      r.quotedName?_name]
  have hbefore : Text.wordMayStartAfter
      ((start.fields.masked ++ start.beforeIs.masked).getLast?.or (some '\x7b')) = true := by
    have hend := start.fields_end
    have hgap := start.beforeIs_gap.space
    rw [List.getLast?_append]
    cases hlast : start.beforeIs.masked.getLast? with
    | some c => simp [Text.wordMayStartAfter, Text.isWord_of_isSpace (hgap c (List.mem_of_getLast? hlast))]
    | none =>
        cases hlast : start.fields.masked.getLast? with
        | some c => rw [hend c hlast]; decide
        | none => decide
  have hflat : '\x7b' ∉ start.fields.masked ++ start.beforeIs.masked ∧
      '\x7d' ∉ start.fields.masked ++ start.beforeIs.masked := by
    have hfields := start.fields_flat
    have hgap := start.beforeIs_gap.space
    simp only [List.mem_append, not_or]
    exact ⟨⟨hfields.1, fun h => absurd (hgap _ h) (by decide)⟩, hfields.2, fun h => absurd (hgap _ h) (by decide)⟩
  rw [← List.append_assoc, findIsField?_append (fun u t heq hne hb => start.isField?_fields heq hne hb _) hflat,
    findIsField?_found hbefore hfield]

end ObjectStart

namespace Registration

variable (r : Registration)

def isObject : Bool :=
  match r.form with
  | .object _ => true
  | .named _ => false

/-- What a call passes behind its bracket, up to the code behind the name. -/
def argument (rest : List Char) : List Char :=
  r.form.text Layout.masked ++ (r.beforeName.masked ++ r.quote :: (r.name ++ r.quote :: rest))

theorem inner_append (rest : List Char) :
    r.inner Layout.masked ++ rest = r.beforeParen.masked ++ '(' :: r.argument rest := by
  simp only [inner, argument, List.append_assoc, List.cons_append, List.nil_append]

theorem argument_of_object {start : ObjectStart} (h : r.form = .object start) (rest : List Char) :
    r.argument rest = start.beforeBrace.masked ++ '\x7b' :: (start.fields.masked ++ (start.beforeIs.masked ++
      'i' :: 's' :: (start.beforeColon.masked ++
        ':' :: (r.beforeName.masked ++ r.quote :: (r.name ++ r.quote :: rest))))) := by
  simp only [argument, h, Form.text, List.append_assoc, List.cons_append, List.nil_append]

theorem argument_of_named {k : Keyword} (h : r.form = .named k) (rest : List Char) :
    r.argument rest = r.beforeName.masked ++ r.quote :: (r.name ++ r.quote :: rest) := by
  simp only [argument, h, Form.text, List.nil_append]

theorem objectCall_inner (k : Keyword) (rest : List Char) :
    objectCall k.word (r.form.keyword.word ++ (r.inner Layout.masked ++ rest)) =
      if r.form.keyword = k ∧ r.isObject then some (r.name, rest) else none := by
  by_cases hk : r.form.keyword = k
  · subst hk
    rw [r.inner_append]
    cases hform : r.form with
    | object start =>
        rw [r.argument_of_object hform,
          objectCall_word _ r.beforeParen_gap.space start.beforeBrace_gap.space (by decide), start.findIsField?_name]
        simp [isObject, hform]
    | named k =>
        have hquote : r.quote ≠ '\x7b' := r.of_quotes (P := (· ≠ '\x7b')) (by decide) (by decide)
        rw [r.argument_of_named hform, objectCall_word _ r.beforeParen_gap.space r.beforeName_gap.space r.quote_space]
        simp [isObject, hform, hquote]
  · rw [objectCall_other (Ne.symm hk)]
    simp [hk]

theorem namedCall_inner (k : Keyword) (rest : List Char) :
    namedCall k.word (r.form.keyword.word ++ (r.inner Layout.masked ++ rest)) =
      if r.form.keyword = k ∧ !r.isObject then some (r.name, rest) else none := by
  by_cases hk : r.form.keyword = k
  · subst hk
    rw [r.inner_append, namedCall_word _ r.beforeParen_gap.space]
    cases hform : r.form with
    | object start =>
        rw [r.argument_of_object hform, quotedName?_none start.beforeBrace_gap.space (by decide) (by decide)]
        simp [isObject, hform]
    | named k =>
        rw [r.argument_of_named hform, r.quotedName?_name]
        simp [isObject, hform]
  · rw [namedCall_other (Ne.symm hk)]
    simp [hk]

end Registration

/-- Whether a form passes over every text in which no call begins, and reads exactly the calls of a kind. -/
structure Reads (form : CallForm) (kind : Registration → Bool) : Prop where
  quiet : ∀ cs, ¬Opens cs → form cs = none
  call : ∀ (r : Registration) (rest : List Char),
    form (r.form.keyword.word ++ (r.inner Layout.masked ++ rest)) = if kind r then some (r.name, rest) else none

theorem elementObject_reads : Reads elementObject fun r => r.isObject && r.isElement where
  quiet _ := elementObject_quiet
  call r rest := by
    rw [elementObject, show "Polymer".toList = Keyword.polymer.word from rfl, r.objectCall_inner]
    simp [Registration.isElement, and_comm]

theorem elementNamed_reads : Reads elementNamed fun r => !r.isObject && r.isElement where
  quiet _ := elementNamed_quiet
  call r rest := by
    rw [elementNamed, show "Polymer".toList = Keyword.polymer.word from rfl, r.namedCall_inner]
    simp [Registration.isElement, and_comm]

theorem moduleDefinition_reads : Reads moduleDefinition fun r => !r.isElement where
  quiet _ := moduleDefinition_quiet
  call r rest := by
    rw [moduleDefinition, show "modulate".toList = Keyword.modulate.word from rfl,
      show "define".toList = Keyword.define.word from rfl, r.namedCall_inner, r.namedCall_inner]
    cases hform : r.form with
    | object start => simp [Registration.isElement, Registration.isObject, hform, Form.keyword]
    | named k => cases k <;> simp [Registration.isElement, Registration.isObject, hform, Form.keyword]

/-! ## Search -/

theorem isWord_of_isAlpha (h : c.isAlpha = true) : Text.isWord c = true := by
  have hrange := nameChar_range (.inl (by simp [Char.isAlphanum, h]) : c.isAlphanum = true ∨ c ∈ ['-', '_', '.'])
  rw [Text.isWord, if_pos (by omega)]
  simp [Char.isAlphanum, h]

theorem Registration.quote_initial (r : Registration) : r.quote ∉ ['P', 'm', 'd'] :=
  r.of_quotes (P := (· ∉ ['P', 'm', 'd'])) (by decide) (by decide)

theorem space_initial (h : Text.isSpace c = true) : c ∉ ['P', 'm', 'd'] := by
  intro hc
  simp only [List.mem_cons, List.not_mem_nil, or_false] at hc
  rcases hc with rfl | rfl | rfl <;> revert h <;> decide

theorem Layout.IsGap.quiet {l : Layout} (h : l.IsGap) (rest : List Char) : Quiet l.masked rest :=
  .of_initials (fun _ hc => space_initial (h.space _ hc)) rest

theorem Keyword.tail_mute (k : Keyword) : Mute k.word.tail := by
  intro k'
  cases k <;> cases k' <;> decide

theorem ObjectStart.quiet (start : ObjectStart) (rest : List Char) :
    Quiet ((Form.object start).text Layout.masked) rest := by
  have hfields (rest : List Char) : Quiet start.fields.masked rest := by
    refine .of_mute start.fields_mute fun c hc d _ halpha => ?_
    rw [start.fields_end c hc] at halpha
    exact absurd halpha (by decide)
  refine (start.beforeBrace_gap.quiet _).append ?_
  exact .cons (not_opens_initial (by decide) _) ((hfields _).append ((start.beforeIs_gap.quiet _).append
    (.cons (not_opens_initial (by decide) _) (.cons (not_opens_initial (by decide) _)
      ((start.beforeColon_gap.quiet _).append (.single (by decide) _))))))

theorem Registration.inner_head (r : Registration) (rest : List Char) :
    ∀ d ∈ (r.inner Layout.masked ++ rest).head?, d.isAlpha = false := by
  rw [r.inner_append]
  intro d hd
  have hgap := r.beforeParen_gap.space
  cases hbefore : r.beforeParen.masked with
  | nil =>
      rw [hbefore] at hd
      obtain rfl := Option.some.inj hd
      decide
  | cons c cs =>
      rw [hbefore] at hd hgap
      obtain rfl := Option.some.inj hd
      have hword := Text.isWord_of_isSpace (hgap c (List.mem_cons_self ..))
      by_contra halpha
      rw [isWord_of_isAlpha (by simpa using halpha)] at hword
      cases hword

/-- No call begins within a call, be it in its own keyword or in its name. -/
theorem Registration.quiet (r : Registration) (rest : List Char) :
    Quiet (r.form.keyword.word.tail ++ r.inner Layout.masked) rest := by
  have hform (rest : List Char) : Quiet (r.form.text Layout.masked) rest := by
    cases r.form with
    | object start => exact start.quiet rest
    | named k => exact .nil rest
  have hname : Quiet r.name (r.quote :: rest) :=
    .of_name r.name_outside (r.of_quotes (P := (·.isAlpha = false)) (by decide) (by decide)) r.quote_space
      (r.of_quotes (P := (· ≠ '(')) (by decide) (by decide)) rest
  refine .append (.of_mute r.form.keyword.tail_mute fun c _ d hd _ => ?_) ?_
  · exact r.inner_head rest d hd
  · refine (r.beforeParen_gap.quiet _).append (.cons (not_opens_initial (by decide) _) ((hform _).append
      ((r.beforeName_gap.quiet _).append (.cons (not_opens_initial r.quote_initial _) (.append ?_ ?_)))))
    · exact hname
    · exact .single r.quote_initial rest

/-- A search finds a call of its kind at the front of a text, and goes on behind any call. -/
theorem Reads.callsFrom_call {form : CallForm} {kind : Registration → Bool} (h : Reads form kind) (r : Registration)
    (hbefore : Text.wordMayStartAfter before = true) (rest : List Char) :
    callsFrom form 0 before offset line (r.form.keyword.word ++ (r.inner Layout.masked ++ rest)) =
      (if kind r then [⟨offset, line, String.ofList r.name⟩] else []) ++
        callsFrom form 0 (some r.quote) (offset + (r.form.keyword.word ++ r.inner Layout.masked).length)
          (line + (r.form.keyword.word ++ r.inner Layout.masked).count '\n') rest := by
  obtain ⟨c, tail, hword, _⟩ := r.form.keyword.word_initial
  have hquiet := r.quiet rest
  have hcall := h.call r rest
  have hlast (c : Char) : (tail ++ r.inner Layout.masked).getLast?.or (some c) = some r.quote := by
    simp [Registration.inner, List.getLast?_append, List.getLast?_cons]
  rw [hword, List.tail_cons] at hquiet
  rw [hword, List.cons_append, ← List.append_assoc] at hcall ⊢
  cases hkind : kind r with
  | true =>
      rw [hkind, if_pos rfl] at hcall
      rw [callsFrom_found hbefore hcall, hlast]
      rfl
  | false =>
      rw [hkind, if_neg (by simp)] at hcall
      rw [callsFrom, hcall, ite_self]
      simp only
      rw [callsFrom_quiet h.quiet hquiet, hlast, line_cons, Nat.add_right_comm, Nat.add_assoc]
      rfl

/-- Calls with what a search finds for them in a masked text, the first of them at the given offset and line. -/
def callsOf (offset line : Nat) : List Registration → List (Registration × Call)
  | [] => []
  | r :: rs => (r, ⟨offset, line, String.ofList r.name⟩) ::
      callsOf (offset + (r.text Layout.masked).length) (line + (r.text Layout.masked).count '\n') rs

theorem Reads.callsFrom_calls {form : CallForm} {kind : Registration → Bool} (h : Reads form kind) {lead : Layout}
    {rs : List Registration} (hlead : Mute lead.masked) (hsep : Separated lead rs)
    (hbefore : Text.wordMayStartAfter before = true) :
    callsFrom form 0 before offset line (lead.masked ++ rs.flatMap (Registration.text · Layout.masked)) =
      ((callsOf (offset + lead.masked.length) (line + lead.masked.count '\n') rs).filter fun call =>
        kind call.1).map Prod.snd := by
  induction rs generalizing lead before offset line with
  | nil =>
      have hquiet : Quiet lead.masked [] := .of_mute hlead fun _ _ d hd => absurd hd (by simp)
      rw [List.flatMap_nil, callsFrom_quiet h.quiet hquiet]
      rfl
  | cons r rs ih =>
      obtain ⟨hedge, hsep⟩ := hsep
      have hstart : Text.wordMayStartAfter (lead.masked.getLast?.or before) = true := by
        cases hlast : lead.masked.getLast? with
        | none => exact hbefore
        | some c => simp [Text.wordMayStartAfter, hedge c hlast]
      have hquiet : Quiet lead.masked ((r :: rs).flatMap (Registration.text · Layout.masked)) := by
        refine .of_mute hlead fun c hc d _ halpha => ?_
        exact absurd (isWord_of_isAlpha halpha) (by simp [hedge c hc])
      have hquote : Text.wordMayStartAfter (some r.quote) = true :=
        r.of_quotes (P := fun quote => Text.wordMayStartAfter (some quote) = true) (by decide) (by decide)
      rw [callsFrom_quiet h.quiet hquiet, List.flatMap_cons, Registration.text, List.append_assoc, List.append_assoc,
        h.callsFrom_call r hstart, ih r.rest_mute hsep hquote, callsOf]
      have hlength : (r.form.keyword.word ++ r.inner Layout.masked).length + r.rest.masked.length =
          (r.text Layout.masked).length := by
        simp [Registration.text]
        omega
      have hcount : (r.form.keyword.word ++ r.inner Layout.masked).count '\n' + r.rest.masked.count '\n' =
          (r.text Layout.masked).count '\n' := by
        simp [Registration.text]
        omega
      rw [Nat.add_assoc _ _ r.rest.masked.length, hlength, Nat.add_assoc _ _ (r.rest.masked.count '\n'), hcount]
      cases hkind : kind r <;> simp [hkind]

end ImportTree.Script
