/-!
# ASCII text

Case folding, the five blanks of markup, and search for the first place where a mark begins.
-/
namespace ImportTree.Text

/-! ## Case -/

/-- Lower-cases the ASCII letters and leaves every other character alone. -/
def lower (cs : List Char) : List Char :=
  cs.map Char.toLower

/-- Equality up to the case of ASCII letters. -/
def sameLetters (a b : List Char) : Bool :=
  lower a == lower b

def lowerString (s : String) : String :=
  String.ofList (lower s.toList)

/-- Equality of strings up to the case of ASCII letters. -/
def sameString (a b : String) : Bool :=
  sameLetters a.toList b.toList

/-! ## Blanks -/

/-- Space, tab, line feed, form feed and carriage return: what separates words in markup. -/
def isAsciiBlank (c : Char) : Bool :=
  c == ' ' || c == '\t' || c == '\n' || c == '\x0c' || c == '\r'

def asciiWords (cs : List Char) : List (List Char) :=
  (cs.splitBy fun a b => !isAsciiBlank a && !isAsciiBlank b).filter fun w => !w.any isAsciiBlank

/-! ## Search -/

/-- Whether a text begins with `mark`, up to the case of ASCII letters. -/
def startsWithLetters (mark cs : List Char) : Bool :=
  sameLetters mark (cs.take mark.length)

/-- Cuts a text before its first suffix that `marked` accepts; `none` if there is none. -/
def cutBefore? (marked : List Char → Bool) : List Char → Option (List Char × List Char)
  | [] => if marked [] then some ([], []) else none
  | c :: cs =>
    if marked (c :: cs) then some ([], c :: cs)
    else match cutBefore? marked cs with
      | some (before, after) => some (c :: before, after)
      | none => none

/-- Cuts a text around the first occurrence of `mark`, which belongs to neither part. -/
def cutAround? (mark cs : List Char) : Option (List Char × List Char) :=
  match cutBefore? mark.isPrefixOf cs with
  | some (before, after) => some (before, after.drop mark.length)
  | none => none

theorem cutBefore?_append {marked : List Char → Bool} {cs before after : List Char}
    (h : cutBefore? marked cs = some (before, after)) : before ++ after = cs := by
  induction cs generalizing before with
  | nil => grind [cutBefore?]
  | cons c cs ih => grind [cutBefore?]

theorem cutBefore?_marked {marked : List Char → Bool} {cs before after : List Char}
    (h : cutBefore? marked cs = some (before, after)) : marked after = true := by
  induction cs generalizing before with
  | nil => grind [cutBefore?]
  | cons c cs ih => grind [cutBefore?]

theorem cutAround?_append {mark cs before after : List Char}
    (h : cutAround? mark cs = some (before, after)) : before ++ mark ++ after = cs := by
  cases hc : cutBefore? mark.isPrefixOf cs with
  | none => simp [cutAround?, hc] at h
  | some p =>
    obtain ⟨tail, ht⟩ := List.isPrefixOf_iff_prefix.1 (cutBefore?_marked hc)
    simp only [cutAround?, hc, Option.some.injEq, Prod.mk.injEq] at h
    rw [← cutBefore?_append hc, ← h.1, ← h.2, ← ht]
    simp

/-! ## Lines -/

def newlines (cs : List Char) : Nat :=
  cs.count '\n'

end ImportTree.Text
