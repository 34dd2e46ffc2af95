import ImportTree.Metadata.Error

/-!
# Loaders

A loader answers addresses with texts, some of them after a delay. A shelf is a loader of documents
that are given one by one.
-/
namespace ImportTree

/-- Where the texts of documents and scripts come from. -/
structure Loader where
  /-- The text at an address, or why there is none. -/
  answer : String → Except LoadFailure String
  /-- How long the answer takes. -/
  delay : String → Nat := fun _ => 0
  /-- A bound on the number of addresses that are answered with a text. -/
  extent : Nat

namespace Loader

def insert (l : Loader) (address text : String) : Loader :=
  { l with answer := fun a => if a = address then .ok text else l.answer a, extent := l.extent + 1 }

/-- A loader of the given documents, the first for each address. -/
def shelf (documents : List (String × String)) (delays : List (String × Nat)) : Loader where
  answer address :=
    match documents.lookup address with
    | some text => .ok text
    | none => .error { message := "No document registered for '" ++ address ++ "'" }
  delay address := (delays.lookup address).getD 0
  extent := documents.length

end Loader

end ImportTree
