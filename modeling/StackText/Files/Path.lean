/-! Paths of files, without the parts that do not matter. -/

namespace StackText

/-- A path: the slashes it starts with and its components. -/
structure Path where
  root : String
  parts : List String
  deriving DecidableEq, Repr

namespace Path

/-- The components between slashes. -/
def splitSlashes (text : List Char) : List (List Char) :=
  go [] [] text
where
  go (done : List (List Char)) (part : List Char) : List Char → List (List Char)
    | [] => (part.reverse :: done).reverse
    | '/' :: rest => go (part.reverse :: done) [] rest
    | c :: rest => go done (c :: part) rest

/-- Reads a path. Repeated slashes, a last slash and single points are dropped. Exactly two
slashes at the start are kept; more of them are as good as one.
-/
def ofString (text : String) : Path :=
  let slashes := (text.toList.takeWhile (· = '/')).length
  let root := if slashes = 0 then "" else if slashes = 2 then "//" else "/"
  let parts := (splitSlashes text.toList).map String.ofList
  ⟨root, parts.filter fun part => part ≠ "" && part ≠ "."⟩

/-- (path.isAbsolute) holds if the path does not start from the working directory. -/
def isAbsolute (path : Path) : Bool := path.root ≠ ""

/-- A path inside a directory; an absolute one stays as it is. -/
def join (directory path : Path) : Path :=
  if path.isAbsolute then path else ⟨directory.root, directory.parts ++ path.parts⟩

/-- The text of a path; the working directory is a point. -/
def text (path : Path) : String :=
  let text := path.root ++ "/".intercalate path.parts
  if text = "" then "." else text

end Path

end StackText
