import ContractAbi.Command.Program

/-!
The program on the files of the system.
-/
namespace ContractAbi

/-- The fault that an error of the system reports. -/
def FileFault.ofError : IO.Error → FileFault
  | .noFileOrDirectory _ _ _ => .notFound
  | .alreadyExists _ _ _ => .alreadyExists
  | .inappropriateType _ 20 _ => .notDirectory
  | .inappropriateType _ 21 _ => .isDirectory
  | error => .other error.toString

/-- Runs an access to files and gives its fault, if it fails. -/
def guardedAccess (access : IO α) : IO (Except FileFault α) := do
  match ← access.toBaseIO with
  | .ok value => return .ok value
  | .error error => return .error (.ofError error)

instance : FileStore IO where
  read path := guardedAccess (IO.FS.readFile path)
  isFile path := do
    match ← guardedAccess (IO.FS.readFile path) with
    | .ok _ => return true
    | .error _ => return false
  makeDirectories path := guardedAccess (IO.FS.createDirAll path)
  replace path text := guardedAccess (IO.FS.writeFile path text)

end ContractAbi

def main (args : List String) : IO UInt32 := do
  let host := { ContractAbi.Command.Host.standard with rustLog := ← IO.getEnv "RUST_LOG" }
  let report : ContractAbi.Command.Report ← ContractAbi.Command.run args host
  IO.print report.output
  match report.error with
  | some text => IO.eprint text
  | none => pure ()
  return report.code.toUInt32
