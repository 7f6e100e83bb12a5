import ContractAbi.NameMap
import ContractAbi.Path

/-!
Access to files as an interface, and a tree of files and directories as a value. A program that reads
and writes files runs on the files of a system as well as on a tree. In a tree each file and directory
has a location, the names that lead to it from the root; relative paths start at a working directory.
-/
namespace ContractAbi

/-- Why a file cannot be read or written. -/
inductive FileFault where
  | notFound
  | notDirectory
  | isDirectory
  | alreadyExists
  | nameTooLong
  | nulInPath
  | other (text : String)
  deriving DecidableEq, Repr

def FileFault.message : FileFault → String
  | .notFound => "No such file or directory (os error 2)"
  | .notDirectory => "Not a directory (os error 20)"
  | .isDirectory => "Is a directory (os error 21)"
  | .alreadyExists => "File exists (os error 17)"
  | .nameTooLong => "File name too long (os error 36)"
  | .nulInPath => "file name contained an unexpected NUL byte"
  | .other text => text

class FileStore (m : Type → Type) where
  /-- The text of a file. -/
  read : (path : String) → m (Except FileFault String)
  /-- Whether a path names a file and not a directory. -/
  isFile : (path : String) → m Bool
  /-- Makes a directory and those above it, as far as they are missing. -/
  makeDirectories : (path : String) → m (Except FileFault Unit)
  /-- Gives a file a text as a whole, in a directory that exists. -/
  replace : (path text : String) → m (Except FileFault Unit)

/-- The names on the way from the root. -/
abbrev Location := List String

inductive FileEntry where
  | file (text : String)
  | directory
  deriving DecidableEq, Repr

structure FileTree where
  entries : List (Location × FileEntry)
  workingDirectory : Location
  deriving DecidableEq, Repr

namespace FileTree

/-- What stands at a location; at the root there is always a directory. -/
def entry? (tree : FileTree) (location : Location) : Option FileEntry :=
  if location.isEmpty then some .directory else tree.entries.lookup location

def put (tree : FileTree) (location : Location) (entry : FileEntry) : FileTree :=
  { tree with entries := putEntry location entry tree.entries }

/-- The locations on the way to a location, without the root and with the location itself. -/
def wayTo (location : Location) : List Location :=
  (List.range location.length).map fun count => location.take (count + 1)

def putDirectories (tree : FileTree) (location : Location) : FileTree :=
  (wayTo location).foldl (fun tree directory => tree.put directory .directory) tree

/-- The tree with nothing in it but a working directory. -/
def ofDirectory (location : Location) : FileTree :=
  putDirectories ⟨[], location⟩ location

/-- Puts a file at a location, and the directories above it. -/
def putFile (tree : FileTree) (location : Location) (text : String) : FileTree :=
  (tree.putDirectories location.dropLast).put location (.file text)

/-- The greatest number of bytes in a name. -/
def nameLimit : Nat := 255

/-- The greatest number of bytes in a path. -/
def pathLimit : Nat := 4095

/-- Fails unless there is a directory at a location. -/
def demandDirectory (tree : FileTree) (location : Location) : Except FileFault Unit :=
  match tree.entry? location with
  | some .directory => .ok ()
  | some (.file _) => .error .notDirectory
  | none => .error .notFound

/-- The location that a step leads to, where there may be nothing. -/
def next (location : Location) : Step → Except FileFault Location
  | .here => .ok location
  | .up => .ok location.dropLast
  | .name text =>
    if nameLimit < text.utf8ByteSize then .error .nameTooLong else .ok (location ++ [text])

/-- The location that steps lead to; each is taken from a directory. -/
def walk (tree : FileTree) (location : Location) : List Step → Except FileFault Location
  | [] => .ok location
  | step :: rest => do
    tree.demandDirectory location
    tree.walk (← next location step) rest

def origin (tree : FileTree) (path : Path) : Location :=
  if path.isAbsolute then [] else tree.workingDirectory

/-- The location that a path names. -/
def locate (tree : FileTree) (path : Path) : Except FileFault Location :=
  if path.steps.isEmpty && !path.isAbsolute then .error .notFound
  else tree.walk (tree.origin path) path.steps

/-- A path whose text a system takes. -/
def checkText (text : String) : Except FileFault Unit :=
  if text.toList.contains '\x00' then .error .nulInPath
  else if pathLimit < text.utf8ByteSize then .error .nameTooLong
  else .ok ()

/-- The file at a path. -/
def readPath (tree : FileTree) (path : Path) : Except FileFault String := do
  match tree.entry? (← tree.locate path) with
  | none => .error .notFound
  | some .directory => .error .isDirectory
  | some (.file text) => if path.endsInSlash then .error .notDirectory else .ok text

def read (tree : FileTree) (path : String) : Except FileFault String := do
  checkText path
  tree.readPath (.ofText path)

def isDirectory (tree : FileTree) (path : Path) : Bool :=
  match tree.locate path with
  | .ok location => tree.entry? location = some .directory
  | .error _ => false

/-- Where a new entry for a path belongs, with its directory; none where the path does not end
with a name. -/
def newLocation? (tree : FileTree) (path : Path) : Except FileFault (Option Location) := do
  let directory ← tree.walk (tree.origin path) path.steps.dropLast
  tree.demandDirectory directory
  match path.steps.getLast? with
  | some (.name text) => return some (← next directory (.name text))
  | _ => return none

def makeDirectory (tree : FileTree) (path : Path) : Except FileFault FileTree := do
  match ← tree.newLocation? path with
  | none => .error .alreadyExists
  | some location =>
    if (tree.entry? location).isSome then .error .alreadyExists
    else .ok (tree.put location .directory)

/-- Makes a directory; it may be there already. -/
def ensureDirectory (tree : FileTree) (path : Path) : Except FileFault FileTree :=
  match tree.makeDirectory path with
  | .ok tree => .ok tree
  | .error fault => if tree.isDirectory path then .ok tree else .error fault

/-- Makes the first of some directories; each of them lies in the next one, which is made before
if it is missing. -/
def makeChain (tree : FileTree) : List Path → Except FileFault FileTree
  | [] => .ok tree
  | path :: above =>
    match tree.ensureDirectory path with
    | .error .notFound =>
      if above.isEmpty then .error .notFound
      else do (← tree.makeChain above).ensureDirectory path
    | result => result

def makeDirectories (tree : FileTree) (path : String) : Except FileFault FileTree := do
  if path.isEmpty then return tree
  checkText path
  tree.makeChain (.ofText path :: (Path.ofText path).above)

/-- Puts a text at a path, in place of the file that may be there. -/
def replace (tree : FileTree) (path text : String) : Except FileFault FileTree := do
  checkText path
  match ← tree.newLocation? (.ofText path) with
  | none => .error .isDirectory
  | some location =>
    if tree.entry? location = some .directory then .error .isDirectory
    else .ok (tree.put location (.file text))

/-- Applies an operation that leaves the tree alone when it fails. -/
def change (operation : FileTree → Except FileFault FileTree) :
    StateM FileTree (Except FileFault Unit) := fun tree =>
  match operation tree with
  | .ok changed => (.ok (), changed)
  | .error fault => (.error fault, tree)

instance : FileStore (StateM FileTree) where
  read path := fun tree => (tree.read path, tree)
  isFile path := fun tree => ((tree.read path).toBool, tree)
  makeDirectories path := change (·.makeDirectories path)
  replace path text := change (·.replace path text)

end FileTree
end ContractAbi
