import ImportTree.Proofs.Markup.Tags
import Mathlib.Data.List.TakeWhile

/-!
# Quotes in a start tag

The reader that looks for the end of a tag and the one that splits its attributes both decide which quotes open a value.
The first takes every quote behind an equals sign for an opening one, the second only the one behind that of its own
attribute. Where this makes no difference, the tag ends at the first bracket that stands in no quoted value.
-/

namespace ImportTree.Markup

/-! ## Roles -/

namespace Attribute

/-- What a character of a tag stands for, as the attributes are split. -/
inductive Role where
  | ordinary
  | opening
  | enclosed
  | closing
deriving DecidableEq, Repr

def Part.roles : Part → List (Char × Role)
  | .assign name before after (.quoted quote text closed) =>
    (name ++ before ++ '=' :: after).map (·, .ordinary) ++ (quote, .opening) :: text.map (·, .enclosed) ++
      (if closed then [(quote, .closing)] else [])
  | p => p.written.map (·, .ordinary)

def roles (cs : List Char) : List (Char × Role) :=
  (parts cs).flatMap Part.roles

/-- Whether every closing bracket stands in a quoted value, and no quoted value is left open. -/
def Settled (rs : List (Char × Role)) : Prop :=
  (∀ r ∈ rs, r.1 = '>' → r.2 = .enclosed) ∧ ∀ last ∈ rs.getLast?, last.2 = .ordinary ∨ last.2 = .closing

instance (rs : List (Char × Role)) : Decidable (Settled rs) :=
  inferInstanceAs (Decidable (_ ∧ _))

/-- Whether a text ends in an equals sign and any blanks. -/
def endsInEquals (cs : List Char) : Bool :=
  (cs.reverse.dropWhile Text.isAsciiBlank).head? == some '='

/-- Whether no quote that stands for itself is in the place of one that opens a value, given the text before. -/
def Unambiguous (done : List Char) (rs : List (Char × Role)) : Prop :=
  ∀ front quote back, rs = front ++ (quote, .ordinary) :: back → quote = '"' ∨ quote = '\'' →
    endsInEquals (done ++ front.map Prod.fst) = false

variable {done cs u v : List Char} {c d quote : Char} {p : Part} {a b : List (Char × Role)}

/-! ## Splitting a tag -/

theorem Part.map_fst_roles (p : Part) : p.roles.map Prod.fst = p.written := by
  have hplain (cs : List Char) (role : Role) : (cs.map (·, role)).map Prod.fst = cs := by
    rw [List.map_map]
    exact List.map_id cs
  cases p with
  | gap c => rfl
  | flag name => exact hplain ..
  | assign name before after value =>
      cases value with
      | missing => exact hplain ..
      | bare text => exact hplain ..
      | quoted quote text closed =>
          simp only [roles, List.map_append, List.map_cons, hplain]
          cases closed <;> simp [written, Value.written]

theorem Part.roles_cases (p : Part) : p.roles = p.written.map (·, .ordinary) ∨
    ∃ name before after quote text closed, p = .assign name before after (.quoted quote text closed) := by
  cases p with
  | gap c => exact .inl rfl
  | flag name => exact .inl rfl
  | assign name before after value =>
      cases value with
      | missing => exact .inl rfl
      | bare text => exact .inl rfl
      | quoted quote text closed => exact .inr ⟨_, _, _, _, _, _, rfl⟩

theorem roles_cons (c : Char) (cs : List Char) :
    roles (c :: cs) = (readPart c cs).1.roles ++ roles (readPart c cs).2 := by
  rw [roles, parts, List.flatMap_cons, roles]

theorem readValue_cases {closed : Bool} (h : (readValue cs).1 = .quoted quote u closed) :
    (quote = '"' ∨ quote = '\'') ∧ quote ∉ u ∧ (closed = false → (readValue cs).2 = []) := by
  cases cs with
  | nil => cases h
  | cons c cs =>
      have hinner : c ∉ cs.takeWhile (· != c) := fun hc => by simpa using List.mem_takeWhile_imp hc
      simp only [readValue] at h ⊢
      split at h
      next hquote =>
        rw [if_pos hquote]
        split at h
        next =>
          cases h
          exact ⟨hquote, hinner, fun _ => rfl⟩
        next =>
          cases h
          exact ⟨hquote, hinner, fun hopen => by cases hopen⟩
      next => cases h

/-- A quoted value stands behind a name, an equals sign and blanks, and only the end of the tag leaves it open. -/
theorem readPart_cases {name before after : List Char} {closed : Bool}
    (h : (readPart c cs).1 = .assign name before after (.quoted quote u closed)) :
    (∀ d ∈ name, isNameChar d = true) ∧ Blanks before ∧ Blanks after ∧ (quote = '"' ∨ quote = '\'') ∧ quote ∉ u ∧
      (closed = false → (readPart c cs).2 = []) := by
  simp only [readPart] at h ⊢
  split at h
  next hc =>
    rw [if_pos hc]
    split at h
    next rest hrest =>
      simp only [Part.assign.injEq] at h
      obtain ⟨rfl, rfl, rfl, hvalue⟩ := h
      refine ⟨List.forall_mem_cons.mpr ⟨hc, fun d hd => List.mem_takeWhile_imp hd⟩,
        fun d hd => List.mem_takeWhile_imp hd, fun d hd => List.mem_takeWhile_imp hd, ?_⟩
      exact readValue_cases hvalue
    next => cases h
  next => cases h

/-! ## Readers of a tag -/

theorem Settled.append (ha : Settled a) : Settled (a ++ b) ↔ Settled b := by
  cases b with
  | nil => simpa [Settled] using ha
  | cons r b =>
      have hlast : (a ++ r :: b).getLast? = (r :: b).getLast? := List.getLast?_append_of_ne_nil _ (by simp)
      simp only [Settled, hlast, List.forall_mem_append]
      exact ⟨fun h => ⟨h.1.2, h.2⟩, fun h => ⟨⟨ha.1, h.1⟩, h.2⟩⟩

theorem unambiguous_nil (done : List Char) : Unambiguous done [] := by
  rintro front quote back h
  simp at h

theorem unambiguous_cons {r : Char × Role} : Unambiguous done (r :: a) ↔
    (r.2 = .ordinary → r.1 = '"' ∨ r.1 = '\'' → endsInEquals done = false) ∧ Unambiguous (done ++ [r.1]) a := by
  obtain ⟨c, role⟩ := r
  constructor
  · intro h
    refine ⟨?_, fun front quote back heq hquote => ?_⟩
    · rintro rfl hquote
      simpa using h [] c a rfl hquote
    · have := h ((c, role) :: front) quote back (by rw [heq, List.cons_append]) hquote
      rwa [List.map_cons, List.append_cons] at this
  · rintro ⟨hfirst, hrest⟩ front quote back heq hquote
    cases front with
    | nil =>
        obtain ⟨⟨rfl, rfl⟩, -⟩ := by simpa using heq
        simpa using hfirst rfl hquote
    | cons r front =>
        obtain ⟨rfl, rfl⟩ := List.cons.inj heq
        have := hrest front quote back rfl hquote
        rwa [List.append_assoc] at this

instance decidableUnambiguous : (done : List Char) → (rs : List (Char × Role)) → Decidable (Unambiguous done rs)
  | done, [] => isTrue (unambiguous_nil done)
  | done, r :: rs =>
    have := decidableUnambiguous (done ++ [r.1]) rs
    decidable_of_iff _ unambiguous_cons.symm

theorem Unambiguous.left (h : Unambiguous done (a ++ b)) : Unambiguous done a := by
  rintro front quote back rfl
  exact h front quote (back ++ b) (by simp)

theorem Unambiguous.right (h : Unambiguous done (a ++ b)) : Unambiguous (done ++ a.map Prod.fst) b := by
  rintro front quote back rfl
  have := h (a ++ front) quote back (by simp)
  rwa [List.map_append, ← List.append_assoc] at this

theorem endsInEquals_append (h : Blanks cs) (done : List Char) :
    endsInEquals (done ++ '=' :: cs) = true := by
  have hreverse : ∀ c ∈ cs.reverse, Text.isAsciiBlank c = true := fun c hc => h c (List.mem_reverse.mp hc)
  rw [endsInEquals, List.reverse_append, List.reverse_cons, List.append_assoc,
    List.dropWhile_append_of_pos hreverse]
  rfl

theorem endsInEquals_concat (done : List Char) (c : Char) :
    endsInEquals (done ++ [c]) = if Text.isAsciiBlank c then endsInEquals done else c == '=' := by
  rw [endsInEquals, List.reverse_append, List.reverse_singleton, List.singleton_append, List.dropWhile_cons]
  split
  next => rfl
  next => simp

end Attribute

open Attribute

/-- Where a reader stands behind a text that ends outside of quotes. -/
def TagState.standing (done : List Char) : TagState :=
  if endsInEquals done then .afterEquals else .plain

namespace TagState

variable {done cs u v rest : List Char} {c d quote : Char} {s t : TagState}

theorem closes_standing (done : List Char) : (standing done).closes = true := by
  unfold standing
  split <;> rfl

theorem next_standing (h : c = '"' ∨ c = '\'' → endsInEquals done = false) :
    (standing done).next c = standing (done ++ [c]) := by
  rw [standing, standing, endsInEquals_concat]
  cases hdone : endsInEquals done with
  | true =>
      have hquote : ¬(c = '"' ∨ c = '\'') := fun hc => by simp [h hc] at hdone
      cases hblank : Text.isAsciiBlank c <;> simp [next, hquote, hblank]
  | false =>
      cases hblank : Text.isAsciiBlank c with
      | true =>
          have hc : c ≠ '=' := by
            rintro rfl
            exact absurd hblank (by decide)
          simp [next, hc]
      | false => simp [next]

/-- Outside of quotes a reader knows whether an equals sign stands before it. -/
theorem walks_ordinary (hclose : '>' ∉ cs) (h : Unambiguous done (cs.map (·, .ordinary))) :
    Walks (standing done) cs (standing (done ++ cs)) := by
  induction cs generalizing done with
  | nil =>
      rw [List.append_nil]
      exact .nil
  | cons c cs ih =>
      obtain ⟨hc, hrest⟩ := unambiguous_cons.mp h
      have hc := hc rfl
      rw [List.mem_cons, not_or] at hclose
      have hwalk := ih hclose.2 hrest
      rw [← next_standing hc, List.append_assoc, List.singleton_append] at hwalk
      exact .cons (fun hgt => absurd hgt.symm hclose.1) hwalk

/-- What a reader has walked over does not matter for where the tag ends. -/
theorem Walks.cutTag?_iff (h : Walks s u t) (v rest : List Char) :
    Markup.cutTag? s (u ++ v ++ '>' :: rest) = some (u ++ v, rest) ↔
      Markup.cutTag? t (v ++ '>' :: rest) = some (v, rest) := by
  induction h with
  | nil => rfl
  | @cons s t c cs hc _ ih =>
      have hopen : ¬(c = '>' ∧ s.closes = true) := by
        rintro ⟨hgt, hs⟩
        rw [hc hgt] at hs
        cases hs
      rw [← ih, List.cons_append, List.cons_append, Markup.cutTag?, if_neg hopen]
      cases Markup.cutTag? (s.next c) (cs ++ v ++ '>' :: rest) with
      | none => simp
      | some cut => simp [Prod.ext_iff]

/-- Behind its own equals sign a quote opens a value, and what follows is enclosed up to the next such quote. -/
theorem walks_inside (hclose : '>' ∉ u) (hequals : endsInEquals (done ++ u) = true)
    (hquote : quote = '"' ∨ quote = '\'') (htext : quote ∉ v) (h : Unambiguous done (u.map (·, .ordinary))) :
    Walks (standing done) (u ++ quote :: v) (.quoted quote) := by
  have hwalk := walks_ordinary hclose h
  have hstanding : standing (done ++ u) = .afterEquals := by
    rw [standing, hequals]
    rfl
  rw [hstanding] at hwalk
  exact hwalk.append ((Walks.opening hquote).append (Walks.enclosed htext))

theorem standing_quote (hquote : quote = '"' ∨ quote = '\'') (done : List Char) :
    standing (done ++ [quote]) = .plain := by
  rw [standing, endsInEquals_concat]
  rcases hquote with rfl | rfl <;> rfl

/-- A quote that is not closed hides the bracket behind it. -/
theorem cutTag?_quoted (quote : Char) (rest : List Char) :
    cutTag? (.quoted quote) ([] ++ '>' :: rest) ≠ some ([], rest) := by
  rw [List.nil_append, cutTag?, if_neg (by simp [closes])]
  split <;> simp

/-- A bracket outside of quotes ends the tag. -/
theorem cutTag?_ordinary (h : Unambiguous done (u.map (·, .ordinary))) (hclose : '>' ∈ u) (v rest : List Char) :
    cutTag? (standing done) (u ++ v ++ '>' :: rest) ≠ some (u ++ v, rest) := by
  obtain ⟨front, back, rfl, hfront⟩ := List.eq_append_cons_of_mem hclose
  rw [List.map_append] at h
  have hwalk := walks_ordinary hfront h.left
  have hend := hwalk.cutTag? (closes_standing _) (back ++ v ++ '>' :: rest)
  have hwhole : front ++ '>' :: back ++ v ++ '>' :: rest = front ++ '>' :: (back ++ v ++ '>' :: rest) := by simp
  rw [hwhole, hend]
  simp

end TagState

/-! ## The end of a tag -/

namespace Attribute

theorem not_settled_ordinary {u : List Char} (h : '>' ∈ u) (b : List (Char × Role)) :
    ¬Settled (u.map (·, .ordinary) ++ b) := by
  intro hsettled
  cases hsettled.1 ('>', .ordinary) (List.mem_append_left _ (List.mem_map_of_mem h)) rfl

theorem settled_ordinary {u : List Char} (h : '>' ∉ u) : Settled (u.map (·, .ordinary)) := by
  refine ⟨fun r hr hgt => ?_, fun last hlast => .inl ?_⟩
  · obtain ⟨c, hc, rfl⟩ := List.mem_map.mp hr
    exact absurd (hgt ▸ hc) h
  · obtain ⟨c, -, rfl⟩ := List.mem_map.mp (List.mem_of_getLast? hlast)
    rfl

end Attribute

open TagState in
/-- Ordinary characters are read alike: they end the tag, or nothing has to be known about them. -/
theorem cutTag?_ordinary_iff {done u v : List Char} {b : List (Char × Role)}
    (h : Unambiguous done (u.map (·, .ordinary) ++ b)) (rest : List Char)
    (hrest : cutTag? (standing (done ++ u)) (v ++ '>' :: rest) = some (v, rest) ↔ Settled b) :
    cutTag? (standing done) (u ++ v ++ '>' :: rest) = some (u ++ v, rest) ↔ Settled (u.map (·, .ordinary) ++ b) := by
  by_cases hclose : '>' ∈ u
  · exact iff_of_false (cutTag?_ordinary h.left hclose v rest) (not_settled_ordinary hclose b)
  · rw [(walks_ordinary hclose h.left).cutTag?_iff, hrest, (settled_ordinary hclose).append]

namespace Attribute

variable {u text : List Char} {quote : Char}

/-- What stands between a name and the quotes of its value ends no tag. -/
theorem bracket_notMem {name before after : List Char} (hname : ∀ d ∈ name, isNameChar d = true)
    (hbefore : Blanks before) (hafter : Blanks after) : '>' ∉ name ++ before ++ '=' :: after := by
  simp only [List.mem_append, List.mem_cons, not_or]
  exact ⟨⟨fun h => absurd (hname _ h) (by decide), fun h => absurd (hbefore _ h) (by decide)⟩, by decide,
    fun h => absurd (hafter _ h) (by decide)⟩

theorem settled_closed (hclose : '>' ∉ u) (hquote : quote = '"' ∨ quote = '\'') (text : List Char) :
    Settled (u.map (·, .ordinary) ++ (quote, .opening) :: text.map (·, .enclosed) ++ [(quote, .closing)]) := by
  have hgt : quote ≠ '>' := by
    rintro rfl
    simp at hquote
  rw [List.append_assoc, (settled_ordinary hclose).append]
  refine ⟨fun r hr heq => ?_, fun last hlast => .inr ?_⟩
  · rcases List.mem_append.mp hr with hr | hr
    · rcases List.mem_cons.mp hr with rfl | hr
      · exact absurd heq hgt
      · obtain ⟨c, -, rfl⟩ := List.mem_map.mp hr
        rfl
    · rw [List.mem_singleton.mp hr] at heq
      exact absurd heq hgt
  · rw [List.getLast?_concat] at hlast
    exact Option.some.inj hlast ▸ rfl

theorem not_settled_open (u text : List Char) (quote : Char) :
    ¬Settled (u.map (·, .ordinary) ++ (quote, .opening) :: text.map (·, .enclosed)) := by
  intro hsettled
  have hlast := hsettled.2
  rw [List.getLast?_append_of_ne_nil _ (by simp)] at hlast
  rcases List.eq_nil_or_concat text with rfl | ⟨text, c, rfl⟩
  · simpa using hlast (quote, .opening) rfl
  · simpa using hlast (c, .enclosed) (by simp [List.getLast?_cons])

end Attribute

open TagState in
theorem cutTag?_iff_settled {done attributes : List Char} (h : Unambiguous done (roles attributes)) (rest : List Char) :
    cutTag? (standing done) (attributes ++ '>' :: rest) = some (attributes, rest) ↔ Settled (roles attributes) := by
  induction attributes using parts.induct generalizing done with
  | case1 =>
      have hnil : roles [] = [] := by rw [roles, parts, List.flatMap_nil]
      rw [hnil, List.nil_append, cutTag?, if_pos ⟨rfl, closes_standing done⟩]
      simp [Settled]
  | case2 c cs ih =>
      rw [roles_cons] at h ⊢
      have hrest := h.right
      rw [Part.map_fst_roles] at hrest
      have htail := ih hrest
      rw [← readPart_written c cs]
      rcases (readPart c cs).1.roles_cases with hroles | ⟨name, before, after, quote, text, closed, hpart⟩
      · rw [hroles] at h ⊢
        exact cutTag?_ordinary_iff h rest htail
      · obtain ⟨hname, hbefore, hafter, hquote, htext, hclosed⟩ := readPart_cases hpart
        rw [hpart] at h htail ⊢
        have hclose := bracket_notMem hname hbefore hafter
        have hequals : endsInEquals (done ++ (name ++ before ++ '=' :: after)) = true := by
          rw [← List.append_assoc, endsInEquals_append hafter]
        have hinside := walks_inside hclose hequals hquote htext h.left.left.left
        cases closed with
        | true =>
            have hwritten : (Part.assign name before after (.quoted quote text true)).written =
                name ++ before ++ '=' :: after ++ quote :: text ++ [quote] := by
              simp [Part.written, Value.written]
            have hwalk := hinside.append (Walks.closing quote)
            rw [← standing_quote hquote (done ++ (name ++ before ++ '=' :: after ++ quote :: text)),
              List.append_assoc done, ← hwritten] at hwalk
            rw [hwalk.cutTag?_iff, htail]
            exact (settled_closed hclose hquote text).append.symm
        | false =>
            have hwritten : (Part.assign name before after (.quoted quote text false)).written =
                name ++ before ++ '=' :: after ++ quote :: text := by
              simp [Part.written, Value.written]
            have hroles : (Part.assign name before after (.quoted quote text false)).roles ++ roles [] =
                (name ++ before ++ '=' :: after).map (·, .ordinary) ++
                  (quote, .opening) :: text.map (·, .enclosed) := by
              rw [roles, parts, List.flatMap_nil, List.append_nil, Part.roles]
              simp
            rw [hclosed rfl, hwritten, hroles, hinside.cutTag?_iff]
            exact iff_of_false (cutTag?_quoted quote rest) (not_settled_open _ _ _)

/-- The end of a tag that is found settles its attributes, and no other bracket of the text does, unless a quote that
stands for itself follows an equals sign. -/
theorem cutTag?_settled (cs : List Char) :
    (∀ attributes rest, cutTag? .plain cs = some (attributes, rest) → Unambiguous [] (roles attributes) →
      Settled (roles attributes)) ∧
    ∀ attributes rest, cs = attributes ++ '>' :: rest → Unambiguous [] (roles attributes) → Settled (roles attributes) →
      cutTag? .plain cs = some (attributes, rest) := by
  constructor
  · intro attributes rest hcut h
    rw [← cutTag?_append hcut] at hcut
    exact (cutTag?_iff_settled h rest).mp hcut
  · rintro attributes rest rfl h hsettled
    exact (cutTag?_iff_settled h rest).mpr hsettled

/-- A bracket between quotes, and quotes in bare values. -/
theorem cutTag?_settled_quotes :
    let cs := " alt=Bob's title = '<a>' id=it\"s/>\"".toList
    let attributes := " alt=Bob's title = '<a>' id=it\"s/".toList
    cutTag? .plain cs = some (attributes, ['"']) ∧ Unambiguous [] (roles attributes) ∧ Settled (roles attributes) := by
  intro cs attributes
  have hcut : cutTag? .plain cs = some (attributes, ['"']) := by decide +kernel
  have h : Unambiguous [] (roles attributes) := by decide +kernel
  exact ⟨hcut, h, (cutTag?_settled cs).1 _ _ hcut h⟩

/-- A quote behind an equals sign in a bare value hides the bracket that ends the tag. -/
theorem cutTag?_misled :
    let attributes := " rel=import href=a.html?x=\"".toList
    Settled (roles attributes) ∧ cutTag? .plain (attributes ++ ['>']) = none := by
  decide +kernel

end ImportTree.Markup
