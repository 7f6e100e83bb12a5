import ContractAbi.NameMap
import ContractAbi.Primitive

/-!
Resolved types: what a type expression means in a document. A tuple or group carries the name of
its generated declaration together with its members. The catalog of a document has its records and
enums in document order, and the composites that stand for tuples and groups in the order of their
registration.
-/
namespace ContractAbi

inductive ResolvedType where
  | primitive (kind : Primitive)
  | record (name : String)
  | enum (name : String)
  | list (element : ResolvedType)
  | variadic (element : ResolvedType)
  | variadicMulti (name : String) (members : List ResolvedType)
  | multi (name : String) (members : List ResolvedType)
  | tuple (name : String) (members : List ResolvedType)
  deriving Repr, Inhabited

namespace ResolvedType

/-- Induction on a type in which the members of a composite are given together. -/
@[elab_as_elim]
theorem memberInduction {motive : ResolvedType → Prop}
    (primitive : ∀ kind, motive (.primitive kind)) (record : ∀ name, motive (.record name))
    (enum : ∀ name, motive (.enum name)) (list : ∀ element, motive element → motive (.list element))
    (variadic : ∀ element, motive element → motive (.variadic element))
    (variadicMulti : ∀ name members, (∀ m ∈ members, motive m) → motive (.variadicMulti name members))
    (multi : ∀ name members, (∀ m ∈ members, motive m) → motive (.multi name members))
    (tuple : ∀ name members, (∀ m ∈ members, motive m) → motive (.tuple name members))
    (type : ResolvedType) : motive type :=
  ResolvedType.rec (motive_2 := fun members => ∀ m ∈ members, motive m) primitive record enum list
    variadic variadicMulti multi tuple (fun _ h => absurd h List.not_mem_nil)
    (fun _ _ hm hrest _ h => (List.mem_cons.1 h).elim (fun he => he ▸ hm) (hrest _)) type

mutual

def same : ResolvedType → ResolvedType → Bool
  | .primitive j, .primitive k => j == k
  | .record m, .record n => m == n
  | .enum m, .enum n => m == n
  | .list a, .list b => same a b
  | .variadic a, .variadic b => same a b
  | .variadicMulti m as, .variadicMulti n bs => m == n && sameAll as bs
  | .multi m as, .multi n bs => m == n && sameAll as bs
  | .tuple m as, .tuple n bs => m == n && sameAll as bs
  | _, _ => false

def sameAll : List ResolvedType → List ResolvedType → Bool
  | [], [] => true
  | a :: as, b :: bs => same a b && sameAll as bs
  | _, _ => false

end

mutual

theorem same_iff : (a b : ResolvedType) → (same a b = true ↔ a = b)
  | .primitive j, b => by cases b <;> simp [same]
  | .record m, b => by cases b <;> simp [same]
  | .enum m, b => by cases b <;> simp [same]
  | .list a, b => by cases b <;> simp [same, same_iff a]
  | .variadic a, b => by cases b <;> simp [same, same_iff a]
  | .variadicMulti m as, b => by cases b <;> simp [same, sameAll_iff as]
  | .multi m as, b => by cases b <;> simp [same, sameAll_iff as]
  | .tuple m as, b => by cases b <;> simp [same, sameAll_iff as]

theorem sameAll_iff : (as bs : List ResolvedType) → (sameAll as bs = true ↔ as = bs)
  | [], bs => by cases bs <;> simp [sameAll]
  | a :: as, bs => by cases bs <;> simp [sameAll, same_iff a, sameAll_iff as]

end

instance : DecidableEq ResolvedType := fun a b => decidable_of_iff _ (same_iff a b)

mutual

/-- The type as an expression in canonical spelling. -/
def display : ResolvedType → String
  | .primitive kind => kind.keyword
  | .record name | .enum name => name
  | .list element => "List<" ++ display element ++ ">"
  | .variadic element => "variadic<" ++ display element ++ ">"
  | .variadicMulti _ members => "variadic<multi<" ++ displayMembers members ++ ">>"
  | .multi _ members => "multi<" ++ displayMembers members ++ ">"
  | .tuple _ members => "tuple<" ++ displayMembers members ++ ">"

def displayMembers : List ResolvedType → String
  | [] => ""
  | [member] => display member
  | member :: rest => display member ++ "," ++ displayMembers rest

end

@[simp] theorem display_list (element : ResolvedType) :
    display (.list element) = "List<" ++ display element ++ ">" := rfl

@[simp] theorem display_variadic (element : ResolvedType) :
    display (.variadic element) = "variadic<" ++ display element ++ ">" := rfl

@[simp] theorem display_variadicMulti (name : String) (members : List ResolvedType) :
    display (.variadicMulti name members) = "variadic<multi<" ++ displayMembers members ++ ">>" := rfl

@[simp] theorem display_multi (name : String) (members : List ResolvedType) :
    display (.multi name members) = "multi<" ++ displayMembers members ++ ">" := rfl

@[simp] theorem display_tuple (name : String) (members : List ResolvedType) :
    display (.tuple name members) = "tuple<" ++ displayMembers members ++ ">" := rfl

/-- Records and tuples: values laid out field after field. -/
def isRecordLike : ResolvedType → Bool
  | .record _ | .tuple _ _ => true
  | _ => false

/-- Types of which a value fills one whole slot. -/
def isTopDecodable : ResolvedType → Bool
  | .primitive _ | .record _ | .enum _ | .tuple _ _ => true
  | _ => false

/-- Types that spread one value over several slots. -/
def isMultiValue : ResolvedType → Bool
  | .variadic _ | .variadicMulti _ _ | .multi _ _ => true
  | _ => false

end ResolvedType

structure Field where
  name : String
  type : ResolvedType
  deriving DecidableEq, Repr

structure Variant where
  name : String
  discriminant : UInt8
  deriving DecidableEq, Repr

/-- The field names of tuples and groups, by position. -/
def memberName (index : Nat) : String :=
  "var" ++ toString index

/-- The fields of a tuple or group with the given members. -/
def memberFields (members : List ResolvedType) : List Field :=
  members.mapIdx fun index member => ⟨memberName index, member⟩

structure Catalog where
  records : NameMap (List Field)
  enums : NameMap (List Variant)
  composites : NameMap (List Field)
  deriving DecidableEq, Repr

namespace Catalog

def empty : Catalog := ⟨∅, ∅, ∅⟩

/-- The fields of a record-like type. -/
def fieldsOf? (catalog : Catalog) : ResolvedType → Option (List Field)
  | .record name => catalog.records.get? name
  | .tuple name _ => catalog.composites.get? name
  | _ => none

/-- The variant that stands for the zero value: the one with discriminant 0, or else the first. -/
def defaultVariant? (variants : List Variant) : Option Variant :=
  variants.find? (·.discriminant = 0) <|> variants.head?

end Catalog
end ContractAbi
