import ImportTree.Loader.Basic
import ImportTree.Text.Ascii

/-!
# Routing

Addresses of the web go to one loader, if there is one for them, and all others to another.
-/
namespace ImportTree.Loader

def isRemote (address : String) : Bool :=
  Text.startsWithLetters "http://".toList address.toList || Text.startsWithLetters "https://".toList address.toList

/-- Why an address of the web is not requested. -/
def refusal (address : String) : LoadFailure where
  message := "Remote loading is disabled, refusing to fetch '" ++ address ++
    "' (set allow_remote = true under [loader])"

/-- Asks `nearby` for documents, and `remote?` for those on the web. -/
def routed (nearby : Loader) (remote? : Option Loader) : Loader where
  answer address :=
    if !isRemote address then nearby.answer address
    else
      match remote? with
      | some remote => remote.answer address
      | none => .error (refusal address)
  delay address :=
    if !isRemote address then nearby.delay address
    else
      match remote? with
      | some remote => remote.delay address
      | none => 0
  extent := nearby.extent + (match remote? with | some remote => remote.extent | none => 0)

end ImportTree.Loader
