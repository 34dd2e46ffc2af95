import ImportTree.Text.WordTable

/-!
# Word boundaries

A word starts where a word character follows none.
-/
namespace ImportTree.Text

def isWord (c : Char) : Bool :=
  if c.toNat < 0x80 then c.isAlphanum || c == '_'
  else wordRanges.any fun range => range.1 ≤ c.toNat && c.toNat ≤ range.2

def wordMayStartAfter : Option Char → Bool
  | none => true
  | some c => !isWord c

end ImportTree.Text
