/-!
# Paths

A path is the list of its components; its text joins them with slashes, so an
absolute path starts with an empty component and a slash at the end leaves an
empty component behind it. Empty components and single dots name nothing; two
dots name the directory above. A child of a path whose text is empty or ends in
a slash takes the place of that last empty component.
-/

set_option autoImplicit false

namespace PredicateIndex

abbrev Path := List String

namespace Path

def ofText (text : String) : Path := text.splitOn "/"

def text (path : Path) : String := "/".intercalate path

def child : Path → String → Path
  | [], name => [name]
  | [last], name => if last = "" then [name] else [last, name]
  | component :: rest, name => component :: child rest name

/-- Whether a component leads to another place than the one it is met at. -/
def isName (component : String) : Bool := component ≠ "" && component ≠ "."

def parts : Path → List Path
  | [] => []
  | component :: rest =>
    if isName component then [component] :: (parts rest).map (component :: ·)
    else (parts rest).map (component :: ·)

def above (path : Path) : List Path := path.parts.dropLast.reverse

def endsInSlash (path : Path) : Bool := path.getLast? = some ""

def trimSlashes (path : Path) : Path := (path.reverse.dropWhile (· = "")).reverse

end Path

end PredicateIndex
