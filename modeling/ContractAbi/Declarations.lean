import ContractAbi.Bindings.Code
import ContractAbi.Resolution

/-!
Resolving the named types of a document in their order. A record is declared once all its fields
are resolved, and at the end every field must have a zero value.
-/
namespace ContractAbi

/-- The declarations resolved so far and the context they were resolved in. -/
structure Session where
  records : NameMap (List Field)
  enums : NameMap (List Variant)
  context : Context
  deriving DecidableEq, Repr

namespace Session

def start (context : Context) : Session := ⟨∅, ∅, context⟩

def catalog (session : Session) : Catalog :=
  ⟨session.records, session.enums, session.context.registry.entries⟩

end Session

/-- A step on a session: it may fail, and what it declared before the fault remains. -/
abbrev Declare := EStateM ConversionFault Session

/-- Runs a step of resolution on the context of the session. -/
def Declare.inContext (step : Resolve α) : Declare α := fun session =>
  match step session.context with
  | .ok value context => .ok value { session with context }
  | .error fault context => .error fault { session with context }

/-- The variants of an enum, of which there must be one, with different one-byte discriminants. -/
def resolveVariants (name : String) (seen : List UInt8) :
    List VariantDecl → Except ConversionFault (List Variant)
  | [] => .ok []
  | variant :: rest =>
    if variant.discriminant < 256 then
      let discriminant := UInt8.ofNat variant.discriminant
      if seen.contains discriminant then .error (.invalidEnum name (.repeated discriminant))
      else do
        let variants ← resolveVariants name (discriminant :: seen) rest
        return ⟨variant.name, discriminant⟩ :: variants
    else .error (.invalidEnum name (.tooLarge variant.discriminant variant.name))

def resolveEnum (name : String) (variants : List VariantDecl) :
    Except ConversionFault (List Variant) :=
  if variants.isEmpty then .error (.invalidEnum name .noVariants)
  else resolveVariants name [] variants

def resolveFields (types : NameMap TypeDefinition) (name : String) :
    List FieldDecl → Resolve (List Field)
  | [] => return []
  | field :: rest => do
    let type ← resolve types field.type
    match checkNested type with
    | .error fault => throw (.undecodable (.fieldOf field.name name) fault)
    | .ok _ => return ⟨field.name, type⟩ :: (← resolveFields types name rest)

def declareType (types : NameMap TypeDefinition) (name : String) : TypeDefinition → Declare Unit
  | .record _ fields => do
    let resolved ← Declare.inContext (resolveFields types name fields)
    modify fun session => { session with records := session.records.put name resolved }
  | .enum _ variants =>
    match resolveEnum name variants with
    | .error fault => throw fault
    | .ok resolved =>
      modify fun session => { session with enums := session.enums.put name resolved }

def declareTypes (types : NameMap TypeDefinition) :
    List (String × TypeDefinition) → Declare Unit
  | [] => return ()
  | (name, definition) :: rest => do
    declareType types name definition
    declareTypes types rest

/-- The first fault among the zero values of some fields. -/
def checkZeros (catalog : Catalog) : List Field → Except ConversionFault Unit
  | [] => .ok ()
  | field :: rest => do
    let _ ← field.type.zeroText catalog
    checkZeros catalog rest

/-- Declares every named type of a document. -/
def declareNamedTypes (types : NameMap TypeDefinition) : Declare Unit := do
  declareTypes types types.entries
  let session ← get
  match checkZeros session.catalog session.records.values.flatten with
  | .error fault => throw fault
  | .ok _ => return ()

end ContractAbi
