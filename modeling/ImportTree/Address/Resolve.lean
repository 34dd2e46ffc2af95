import ImportTree.Address.Path
import ImportTree.Address.Url.Read
import ImportTree.Metadata.Error
import ImportTree.Text.Space

/-!
# Resolving references

The address of the document that a reference names. References and bases with a scheme are structured
addresses, all others are plain paths. A fragment never selects another document and is dropped.
-/
namespace ImportTree.Address

/-- Whether a reference begins with a scheme of at least two characters. -/
def hasScheme (cs : List Char) : Bool :=
  let scheme := cs.takeWhile (· != ':')
  scheme.length < cs.length && 1 < scheme.length && scheme.head?.any Char.isAlpha &&
    scheme.all fun c => c.isAlphanum || c == '+' || c == '-' || c == '.'

/-- What counts of a reference: it is trimmed, and its fragment is cut off. -/
def referenced (target : List Char) : List Char :=
  (Text.trim target).takeWhile (· != '#')

/-- What reads structured addresses, by themselves and against others, and writes them. -/
class UrlReader where
  Parsed : Type
  parse? : List Char → Option Parsed
  join? : Parsed → List Char → Option Parsed
  text : Parsed → List Char

instance : UrlReader where
  Parsed := Url
  parse? := Url.read? none
  join? base := Url.read? (some base)
  text := Url.text

variable [UrlReader]

/-- The address that a trimmed reference without a fragment names. -/
def follow? (base target : List Char) : Option (List Char) :=
  if target.isEmpty then none
  else if hasScheme target then (UrlReader.parse? target).map UrlReader.text
  else
    match if hasScheme base then UrlReader.parse? base else none with
    | some base => (UrlReader.join? base target).map UrlReader.text
    | none => some (Path.join base target)

/-- The address that a reference names in the document at the base. -/
def resolve (base target : String) : Except AnalysisError String :=
  match follow? base.toList (referenced target.toList) with
  | some address => .ok (String.ofList address)
  | none => .error (.unresolvable base (String.ofList (referenced target.toList)))

theorem resolve_error {base target : String} {e : AnalysisError} (h : resolve base target = .error e) :
    e = .unresolvable base (String.ofList (referenced target.toList)) := by
  unfold resolve at h
  split at h
  next => cases h
  next => cases h; rfl

end ImportTree.Address
