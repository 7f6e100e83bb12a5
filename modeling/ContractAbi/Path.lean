import ContractAbi.Text.Basic

/-!
Paths of files. A path is text with slashes between its steps; a dot is a step that stays, two
dots lead up. Paths are joined as text, so what is printed is what was given.
-/
namespace ContractAbi

inductive Step where
  | here | up
  | name (text : String)
  deriving DecidableEq, Repr

structure Path where
  isAbsolute : Bool
  steps : List Step
  /-- A slash at the end, which only a directory may have. -/
  endsInSlash : Bool
  deriving DecidableEq, Repr

namespace Path

def stepOf (piece : String) : Step :=
  if piece = "." then .here else if piece = ".." then .up else .name piece

def isSlash (c : Char) : Bool := c = '/'

/-- The pieces between slashes; two slashes in a row have none between them. -/
def pieces (text : List Char) : List String :=
  ((Text.split isSlash text).filter (!·.isEmpty)).map String.ofList

def ofText (text : String) : Path where
  isAbsolute := text.toList.head?.any isSlash
  steps := (pieces text.toList).map stepOf
  endsInSlash := text.toList.getLast?.any isSlash

/-- The path of something inside a directory. An absolute path stays as it is. -/
def join (directory text : String) : String :=
  if (ofText text).isAbsolute then text
  else if directory.isEmpty || (ofText directory).endsInSlash then directory ++ text
  else directory ++ "/" ++ text

/-- The path without steps that stay, except for the first one. -/
def simplified (path : Path) : Path :=
  let isGone := fun (step : Step) => step = .here
  let steps :=
    match path.steps with
    | .here :: rest =>
      if path.isAbsolute then rest.filter (!isGone ·) else .here :: rest.filter (!isGone ·)
    | steps => steps.filter (!isGone ·)
  { path with steps, endsInSlash := false }

/-- The paths above a path, nearest first. The path without steps is none of them. -/
def above (path : Path) : List Path :=
  let simple := path.simplified
  (List.range simple.steps.length).reverse.filterMap fun count =>
    if count = 0 && !simple.isAbsolute then none
    else some { simple with steps := simple.steps.take count }

/-- The last step, if it is a name. -/
def fileName? (path : Path) : Option String :=
  match path.simplified.steps.getLast? with
  | some (.name text) => some text
  | _ => none

/-- What stands behind the last dot of a file name. A dot at the beginning does not count. -/
def extension? (path : Path) : Option String := do
  let name := (← path.fileName?).toList
  let reversed := name.reverse
  let stem := (reversed.dropWhile (· ≠ '.')).drop 1
  if name.contains '.' && !stem.isEmpty then
    return String.ofList (reversed.takeWhile (· ≠ '.')).reverse
  else none

end Path
end ContractAbi
