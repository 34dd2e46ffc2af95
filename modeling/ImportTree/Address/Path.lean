import ImportTree.Text.Split

/-!
# Plain paths

Addresses without a scheme are paths. A reference is joined to the directory of its base, and the
result is normal: it has no empty and no dot segment, and two dots only at the front of a relative path.
-/
namespace ImportTree.Address.Path

/-- Adds a segment to normal segments, the last of them first. -/
def push (absolute : Bool) (done : List (List Char)) (segment : List Char) : List (List Char) :=
  if segment = [] ∨ segment = ['.'] then done
  else if segment = ['.', '.'] then
    match done with
    | last :: rest => if last ≠ ['.', '.'] then rest else if absolute then done else segment :: done
    | [] => if absolute then [] else [segment]
  else segment :: done

def isAbsolute (path : List Char) : Bool :=
  path.head? == some '/'

def segments (path : List Char) : List (List Char) :=
  ((Text.splitOn (· == '/') path).foldl (push (isAbsolute path)) []).reverse

def normalize (path : List Char) : List Char :=
  (if isAbsolute path then ['/'] else []) ++ Text.joinWith '/' (segments path)

/-- The path that a target names in a document at the base. -/
def join (base target : List Char) : List Char :=
  normalize (if isAbsolute target then target else Text.throughLast '/' base ++ target)

end ImportTree.Address.Path
