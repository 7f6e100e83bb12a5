import ContractAbi.ConversionFault
import ContractAbi.Document.Basic
import ContractAbi.NameMap
import ContractAbi.ResolvedType
import ContractAbi.Text.Identifier
import ContractAbi.TypeExpr.Tree

/-!
Resolving type expressions against the named types of a document. What a resolved type needs from
the generated file is noted in a context: alias declarations, imports, and composites, the declarations
that stand for tuples and groups. Equal member lists share one composite, and generated names step over
those that the document uses itself. A failing resolution leaves in the context what was noted before
the fault.
-/
namespace ContractAbi

structure Registry where
  entries : NameMap (List Field)
  /-- Identifiers that belong to named types. -/
  reserved : List String
  deriving DecidableEq, Repr

namespace Registry

def reserving (names : List String) : Registry := ⟨∅, names⟩

def compositeName (index : Nat) : String :=
  "ComplexType" ++ toString index

def isTaken (registry : Registry) (name : String) : Bool :=
  registry.reserved.contains name || registry.entries.contains name

/-- The first index from `index` on whose name is free, within the given number of tries. -/
def firstFree (registry : Registry) (index : Nat) : Nat → Nat
  | 0 => index
  | tries + 1 =>
    if registry.isTaken (compositeName index) then firstFree registry (index + 1) tries else index

/-- The name of the next entry. At most as many names are stepped over as are taken. -/
def freshName (registry : Registry) : String :=
  compositeName
    (registry.firstFree registry.entries.size (registry.reserved.length + registry.entries.size + 1))

/-- The entry that has these fields. -/
def nameOf? (registry : Registry) (fields : List Field) : Option String :=
  (registry.entries.entries.find? fun entry => entry.2 = fields).map (·.1)

/-- The name of the composite with these members, added at the end if there is none yet. -/
def getOrCreate (registry : Registry) (members : List ResolvedType) : String × Registry :=
  let fields := memberFields members
  match registry.nameOf? fields with
  | some name => (name, registry)
  | none =>
    let name := registry.freshName
    (name, { registry with entries := registry.entries.put name fields })

end Registry
structure Context where
  usesBigInt : Bool
  usesBigUint : Bool
  /-- Alias primitives in order of first use. -/
  aliases : List Primitive
  registry : Registry
  deriving DecidableEq, Repr

namespace Context

def reserving (names : List String) : Context :=
  ⟨false, false, [], Registry.reserving names⟩

def empty : Context := reserving []

/-- The context in which no composite takes the identifier of a named type. -/
def ofDocument (document : Document) : Context :=
  reserving (document.types.names.map Identifier.type)

/-- The number types that the generated file has to import, in order. -/
def imports (context : Context) : List String :=
  (if context.usesBigInt then ["BigInt"] else []) ++
    (if context.usesBigUint then ["BigUint"] else [])

def note (context : Context) (kind : Primitive) : Context :=
  match kind with
  | .bigInt => { context with usesBigInt := true }
  | .bigUint => { context with usesBigUint := true }
  | kind =>
    if kind.isAlias && !context.aliases.contains kind then
      { context with aliases := context.aliases ++ [kind] }
    else context

end Context

/-- A step of resolution: it may fail, and it changes the context either way. -/
abbrev Resolve := EStateM ConversionFault Context

namespace Resolve

/-- Runs a step and gives the outcome apart from the context it leaves. -/
def outcome (step : Resolve α) (context : Context) : Except ConversionFault α × Context :=
  match step.run context with
  | .ok value context => (.ok value, context)
  | .error fault context => (.error fault, context)

/-- Runs a step and leaves the context as it was before. -/
def aside (step : Resolve α) : Resolve α := fun context =>
  match step context with
  | .ok value _ => .ok value context
  | .error fault _ => .error fault context

end Resolve

/-- The name of the composite with these members. -/
def registerComposite (members : List ResolvedType) : Resolve String :=
  modifyGet fun context =>
    let (name, registry) := context.registry.getOrCreate members
    (name, { context with registry })

def resolveName (types : NameMap TypeDefinition) (name : String) : Resolve ResolvedType :=
  match types.get? name with
  | some (.record _ _) => return .record name
  | some (.enum _ _) => return .enum name
  | none => throw (.unknownType name)

/-- The type of a group that repeats: a group of one is a plain variadic. -/
def variadicOf : List ResolvedType → Resolve ResolvedType
  | [member] => return .variadic member
  | members => return .variadicMulti (← registerComposite members) members

/-- The type of a group that stands once: a group of one is a list. -/
def multiOf : List ResolvedType → Resolve ResolvedType
  | [member] => return .list member
  | members => return .multi (← registerComposite members) members

def tupleOf (members : List ResolvedType) : Resolve ResolvedType :=
  return .tuple (← registerComposite members) members

mutual

/-- The meaning of an expression tree; its parts are resolved from left to right. -/
def resolveTree (types : NameMap TypeDefinition) : TypeExpr → Resolve ResolvedType
  | .primitive kind => do
    modify (·.note kind)
    return .primitive kind
  | .named name => resolveName types name
  | .list element => return .list (← resolveTree types element)
  | .variadic element => return .variadic (← resolveTree types element)
  | .variadicMulti members => do variadicOf (← resolveTrees types members)
  | .multi members => do multiOf (← resolveTrees types members)
  | .tuple members => do tupleOf (← resolveTrees types members)
  | .unrecognized fault => throw (.unrecognizedExpression fault)

def resolveTrees (types : NameMap TypeDefinition) : List TypeExpr → Resolve (List ResolvedType)
  | [] => return []
  | tree :: rest => do
    let type ← resolveTree types tree
    return type :: (← resolveTrees types rest)

end

/-- The meaning of a type expression. -/
def resolve (types : NameMap TypeDefinition) (expression : String) : Resolve ResolvedType :=
  resolveTree types (TypeExpr.parse expression)

end ContractAbi
