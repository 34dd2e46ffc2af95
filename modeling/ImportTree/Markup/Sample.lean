/-!
# Sample documents

Small documents put together from parts, for trying out the readers.
-/
namespace ImportTree.Markup

/-- A part of a sample document. -/
inductive SamplePart where
  | importLink (target : String)
  | script (body : String)
  | externalScript (target : String)
  | element (name : String)
  | moduleDefinition (name : String)
  | template (name : String)
deriving DecidableEq, Repr

namespace SamplePart

def scriptText (body : String) : String :=
  "<script>\n" ++ body ++ "\n</script>"

def text : SamplePart → String
  | .importLink target => "<link rel=\"import\" href=\"" ++ target ++ "\">"
  | .script body => scriptText body
  | .externalScript target => "<script src=\"" ++ target ++ "\"></script>"
  | .element name => scriptText ("Polymer(\x7b\n  is: '" ++ name ++ "'\n\x7d);")
  | .moduleDefinition name =>
    scriptText ("modulate('" ++ name ++ "', function() \x7b\n  return \x7b\x7d;\n\x7d);")
  | .template name => "<dom-module id=\"" ++ name ++ "\"><template></template></dom-module>"

end SamplePart

def sampleDocument (parts : List SamplePart) : String :=
  "<!doctype html>\n<html>\n<head>\n" ++ String.join (parts.map fun part => part.text ++ "\n") ++
    "</head>\n<body></body>\n</html>\n"

end ImportTree.Markup
