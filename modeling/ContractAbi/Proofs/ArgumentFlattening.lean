import ContractAbi.Proofs.ArgumentText
import ContractAbi.Proofs.DecoderAgreement
import ContractAbi.Proofs.ReturnEncoding
import ContractAbi.Proofs.Scalars

/-!
# Flattened arguments

The statements that collect a parameter are run as a loop program over the values of generated
code. Whatever value is passed, they append one argument for each scalar and enum in it, in the
order of the declarations; and they only ever use the parameter, or the variable of the innermost
loop, and fields that its declaration has.
-/
namespace ContractAbi

/-- A value in generated code. -/
inductive NativeValue where
  | scalar (codec : Wire.Codec) (value : Wire.Scalar)
  | variant (type variant : String) (discriminant : UInt8)
  | struct (type : String) (fields : List (String × NativeValue))
  | list (elements : List NativeValue)

namespace NativeValue

mutual

/-- The arguments of a value: one for each scalar and enum in it, in order. -/
def flatten : NativeValue → List Wire.Argument
  | .scalar codec value => [codec.argument value]
  | .variant _ _ discriminant => [.word .u8 discriminant.toNat]
  | .struct _ fields => flattenFields fields
  | .list elements => flattenElements elements

def flattenFields : List (String × NativeValue) → List Wire.Argument
  | [] => []
  | (_, value) :: rest => value.flatten ++ flattenFields rest

def flattenElements : List NativeValue → List Wire.Argument
  | [] => []
  | value :: rest => value.flatten ++ flattenElements rest

end

/-- Scalars and enums are arguments. -/
def argument? : NativeValue → Option Wire.Argument
  | .scalar codec value => some (codec.argument value)
  | .variant _ _ discriminant => some (.word .u8 discriminant.toNat)
  | _ => none

def field? (value : NativeValue) (name : String) : Option NativeValue :=
  match value with
  | .struct _ fields => fields.lookup name
  | _ => none

def elements? : NativeValue → Option (List NativeValue)
  | .list elements => some elements
  | _ => none

end NativeValue

/-- The variables that can be used, the innermost first. -/
abbrev Scope := List (String × NativeValue)

def Place.valueIn (place : Place) (scope : Scope) : Option NativeValue := do
  place.fields.foldlM NativeValue.field? (← scope.lookup place.root)

mutual

/-- Runs a statement on the arguments so far. It fails if it uses what is not there. -/
def EncodeStatement.run : EncodeStatement → Scope → List String → Option (List String)
  | .push place, scope, args => do
    let argument ← (← place.valueIn scope).argument?
    return args ++ [argument.hexText]
  | .forEach item source body, scope, args => do
    let elements ← (← source.valueIn scope).elements?
    elements.foldlM (fun args element => EncodeStatement.runAll body ((item, element) :: scope) args)
      args

def EncodeStatement.runAll : List EncodeStatement → Scope → List String → Option (List String)
  | [], _, args => some args
  | statement :: rest, scope, args => do
    EncodeStatement.runAll rest scope (← statement.run scope args)

end

/-- The types that one argument is made of. -/
def ResolvedType.isArgument : ResolvedType → Bool
  | .primitive _ | .enum _ => true
  | _ => false

/-- The type of what a loop over a value goes through. -/
def ResolvedType.element? : ResolvedType → Option ResolvedType
  | .list element | .variadic element => some element
  | .variadicMulti name members => some (.multi name members)
  | _ => none

namespace Catalog

variable (catalog : Catalog)

/-- The declared struct that a type stands for. -/
def struct? : ResolvedType → Option (String × List Field)
  | .record name => (catalog.records.get? name).map (name, ·)
  | .tuple name _ | .multi name _ => (catalog.composites.get? name).map (name, ·)
  | _ => none

mutual

/-- The values of a type. A struct has the fields of its declaration, under their identifiers. -/
inductive Types : ResolvedType → NativeValue → Prop
  | scalar {kind : Primitive} {value : Wire.Scalar} (hfits : kind.codec.Fits value) :
      Types (.primitive kind) (.scalar kind.codec value)
  | enum (name variant : String) (discriminant : UInt8) :
      Types (.enum name) (.variant (Identifier.type name) variant discriminant)
  | struct {type : ResolvedType} {name : String} {fields : List Field}
      {parts : List (String × NativeValue)} (hstruct : catalog.struct? type = some (name, fields))
      (hparts : TypesFields fields parts) : Types type (.struct (Identifier.type name) parts)
  | list {type element : ResolvedType} {elements : List NativeValue}
      (helement : type.element? = some element) (helements : ∀ value ∈ elements, Types element value) :
      Types type (.list elements)

inductive TypesFields : List Field → List (String × NativeValue) → Prop
  | nil : TypesFields [] []
  | cons {field : Field} {fields : List Field} {part : NativeValue}
      {parts : List (String × NativeValue)} (hpart : Types field.type part)
      (hrest : TypesFields fields parts) :
      TypesFields (field :: fields) ((Identifier.field field.name, part) :: parts)

end

/-- The struct that is declared for a type has the field. -/
def DeclaresField (type : ResolvedType) (identifier : String) (member : ResolvedType) : Prop :=
  ∃ name fields, catalog.struct? type = some (name, fields) ∧
    (∃ field ∈ fields, Identifier.field field.name = identifier ∧ field.type = member) ∧
    ∀ docs item, RecordItem.ofFields catalog name fields docs = .ok item →
      "pub struct " ++ Identifier.type name ++ " \x7b" ∈ item.structLines ∧
      Code.nestLine (fieldLine identifier member.ownedText) ∈ item.structLines

/-- A path of declared fields from one type to another. -/
inductive Path : ResolvedType → List String → ResolvedType → Prop
  | here (type : ResolvedType) : Path type [] type
  | field {type member target : ResolvedType} {identifier : String} {names : List String}
      (hfield : catalog.DeclaresField type identifier member) (hrest : Path member names target) :
      Path type (identifier :: names) target

/-- With one variable of a type in reach, the statement uses that variable only, by paths of
declared fields; the body of a loop has the loop's own variable in reach. -/
inductive Reads : String → ResolvedType → EncodeStatement → Prop
  | push {current : String} {type target : ResolvedType} {place : Place}
      (hroot : place.root = current) (hpath : catalog.Path type place.fields target)
      (hargument : target.isArgument = true) : Reads current type (.push place)
  | forEach {current item : String} {type target element : ResolvedType} {source : Place}
      {body : List EncodeStatement} (hroot : source.root = current)
      (hpath : catalog.Path type source.fields target) (helement : target.element? = some element)
      (hitem : item ≠ "args") (hbody : ∀ statement ∈ body, Reads item element statement) :
      Reads current type (.forEach item source body)

/-- The part is written out in the type, or is the type of a field of a declared record. -/
inductive HasPart : ResolvedType → ResolvedType → Prop
  | list (element : ResolvedType) : HasPart (.list element) element
  | variadic (element : ResolvedType) : HasPart (.variadic element) element
  | tuple {name : String} {members : List ResolvedType} {member : ResolvedType}
      (hmember : member ∈ members) : HasPart (.tuple name members) member
  | multi {name : String} {members : List ResolvedType} {member : ResolvedType}
      (hmember : member ∈ members) : HasPart (.multi name members) member
  | variadicMulti {name : String} {members : List ResolvedType} {member : ResolvedType}
      (hmember : member ∈ members) : HasPart (.variadicMulti name members) member
  | record {name : String} {fields : List Field} {field : Field}
      (hget : catalog.records.get? name = some fields) (hfield : field ∈ fields) :
      HasPart (.record name) field.type

/-- Records and composites are in the catalog, and the fields of a record have different
identifiers. Each of them has to be an identifier: with another text in its place, such as one with a
dot in it, the code would not name the field. -/
def Declares : ResolvedType → Prop
  | .record name => ∃ fields, catalog.records.get? name = some fields ∧
      (fields.map (Identifier.field ·.name)).Nodup ∧
      ∀ field ∈ fields, IsIdentifier (Identifier.field field.name)
  | .tuple name members | .multi name members | .variadicMulti name members =>
    catalog.composites.get? name = some (memberFields members)
  | _ => True

/-- All parts of the type are declared, and no part is inside itself. -/
structure Flattenable (type : ResolvedType) : Prop where
  declared : ∀ part, Relation.ReflTransGen catalog.HasPart type part → catalog.Declares part
  ends : ∀ part, Relation.ReflTransGen catalog.HasPart type part →
    ¬ Relation.TransGen catalog.HasPart part part

end Catalog

theorem EncodeStatement.runAll_append (front back : List EncodeStatement) (scope : Scope)
    (args : List String) :
    runAll (front ++ back) scope args = (runAll front scope args).bind (runAll back scope) := by
  induction front generalizing args with
  | nil => rfl
  | cons statement rest ih =>
    rw [List.cons_append, runAll, runAll]
    cases statement.run scope args with
    | none => rfl
    | some after => exact ih after

theorem Place.valueIn_field {place : Place} {scope : Scope} {value : NativeValue}
    (h : place.valueIn scope = some value) (name : String) :
    (place.field name).valueIn scope = value.field? name := by
  have hfields : (place.field name).fields = place.fields ++ [name] := rfl
  have hroot : (place.field name).root = place.root := rfl
  rw [valueIn, hfields, hroot]
  rw [valueIn] at h
  obtain ⟨start, hstart, h⟩ := Option.bind_eq_some_iff.1 h
  rw [hstart, Option.bind_eq_bind, Option.bind_some, List.foldlM_append, h, Option.bind_eq_bind,
    Option.bind_some, List.foldlM_cons]
  exact Option.bind_fun_some _

theorem Place.valueIn_variable (name : String) (value : NativeValue) (scope : Scope) :
    Place.valueIn ⟨name, []⟩ ((name, value) :: scope) = some value := by
  simp [valueIn, List.lookup]

theorem loopVariable_ne_args (depth : Nat) : loopVariable depth ≠ "args" := by
  intro heq
  have hchars := congrArg String.toList heq
  rw [loopVariable, String.toList_append] at hchars
  cases hchars

theorem Place.isNamed_field {place : Place} (h : place.IsNamed) {name : String}
    (hname : IsIdentifier name) : (place.field name).IsNamed := by
  intro other hother
  change other ∈ (place.root :: place.fields) ++ [name] at hother
  rcases List.mem_append.1 hother with hother | hother
  · exact h other hother
  · exact List.mem_singleton.1 hother ▸ hname

namespace Catalog

variable {catalog : Catalog} {type member : ResolvedType}

theorem Path.append_field {names : List String} {middle : ResolvedType}
    (h : catalog.Path type names middle) {identifier : String}
    (hfield : catalog.DeclaresField middle identifier member) :
    catalog.Path type (names ++ [identifier]) member := by
  induction h with
  | here type => exact .field hfield (.here member)
  | field hfirst _ ih => exact .field hfirst (ih hfield)

/-- What the statements for a type do at any place and inside any loops. -/
structure Encodes (catalog : Catalog) (statements : Place → Nat → List EncodeStatement)
    (type : ResolvedType) : Prop where
  named : ∀ place depth, place.IsNamed → ∀ statement ∈ statements place depth, statement.IsNamed
  reads : ∀ place depth root, catalog.Path root place.fields type →
    ∀ statement ∈ statements place depth, catalog.Reads place.root root statement
  runs : ∀ place depth scope value args, place.valueIn scope = some value →
    catalog.Types type value → EncodeStatement.runAll (statements place depth) scope args =
      some (args ++ value.flatten.map (·.hexText))

theorem struct?_of_isArgument (h : type.isArgument = true) : catalog.struct? type = none := by
  cases type with
  | primitive kind => rfl
  | enum name => rfl
  | _ => cases h

theorem element?_of_isArgument (h : type.isArgument = true) : type.element? = none := by
  cases type with
  | primitive kind => rfl
  | enum name => rfl
  | _ => cases h

theorem struct?_of_element {element : ResolvedType} (h : type.element? = some element) :
    catalog.struct? type = none := by
  cases type with
  | list _ => rfl
  | variadic _ => rfl
  | variadicMulti _ _ => rfl
  | _ => cases h

/-- A scalar or an enum is one argument. -/
theorem encodes_argument (htype : type.isArgument = true) :
    catalog.Encodes (fun place _ => [.push place]) type where
  named place _ hplace statement hstatement := by
    obtain rfl := List.mem_singleton.1 hstatement
    exact .push hplace
  reads place _ root hpath statement hstatement := by
    obtain rfl := List.mem_singleton.1 hstatement
    exact .push rfl hpath htype
  runs place _ scope value args hplace hvalue := by
    have hargument : ∃ argument, value.argument? = some argument ∧ value.flatten = [argument] := by
      cases hvalue with
      | scalar hfits => exact ⟨_, rfl, by rw [NativeValue.flatten]⟩
      | enum name variant discriminant => exact ⟨_, rfl, by rw [NativeValue.flatten]⟩
      | struct hstruct _ =>
        rw [struct?_of_isArgument htype] at hstruct
        cases hstruct
      | list helement _ =>
        rw [element?_of_isArgument htype] at helement
        cases helement
    obtain ⟨argument, hargument, hflatten⟩ := hargument
    rw [hflatten, EncodeStatement.runAll, EncodeStatement.run, hplace]
    simp only [Option.bind_eq_bind, Option.bind_some, hargument]
    rfl

/-- The value of a type with elements is a list of them. -/
theorem exists_elements {value : NativeValue} (h : catalog.Types type value) {element : ResolvedType}
    (helement : type.element? = some element) :
    ∃ elements, value = .list elements ∧ ∀ part ∈ elements, catalog.Types element part := by
  cases h with
  | scalar hfits => cases helement
  | enum name variant discriminant => cases helement
  | struct hstruct _ =>
    rw [struct?_of_element helement] at hstruct
    cases hstruct
  | @list _ other elements hother helements =>
    rw [helement] at hother
    obtain rfl := Option.some.inj hother
    exact ⟨elements, rfl, helements⟩

/-- The value of a type with a declared struct has its fields. -/
theorem exists_parts {value : NativeValue} (h : catalog.Types type value) {name : String}
    {fields : List Field} (hstruct : catalog.struct? type = some (name, fields)) :
    ∃ parts, value = .struct (Identifier.type name) parts ∧ catalog.TypesFields fields parts := by
  cases h with
  | scalar hfits => cases hstruct
  | enum name variant discriminant => cases hstruct
  | list helement _ =>
    rw [struct?_of_element helement] at hstruct
    cases hstruct
  | @struct _ other others parts hother hparts =>
    rw [hstruct] at hother
    obtain ⟨rfl, rfl⟩ := Prod.mk.inj (Option.some.inj hother)
    exact ⟨parts, rfl, hparts⟩

theorem names_of_typesFields {fields : List Field} {parts : List (String × NativeValue)}
    (h : catalog.TypesFields fields parts) :
    parts.map (·.1) = fields.map (Identifier.field ·.name) := by
  induction fields generalizing parts with
  | nil =>
    cases h
    rfl
  | cons field rest ih =>
    cases h with
    | cons hpart hrest => rw [List.map_cons, List.map_cons, ih hrest]

/-- The emitted struct has a line for every field. -/
theorem declaresField_of_struct {name : String} {fields : List Field}
    (hstruct : catalog.struct? type = some (name, fields)) {field : Field} (hfield : field ∈ fields) :
    catalog.DeclaresField type (Identifier.field field.name) field.type := by
  refine ⟨name, fields, hstruct, ⟨field, hfield, rfl, rfl⟩, fun docs item hitem => ?_⟩
  rw [RecordItem.ofFields] at hitem
  obtain ⟨items, hitems, hitem⟩ := of_bind_eq_ok hitem
  obtain rfl := Except.ok.inj hitem
  obtain ⟨fieldItem, hmem, hmade⟩ := exists_of_forall₂_left (forall₂_of_mapM hitems) hfield
  rw [FieldItem.ofField] at hmade
  obtain ⟨zero, -, hmade⟩ := of_bind_eq_ok hmade
  obtain rfl := Except.ok.inj hmade
  refine ⟨List.mem_cons_of_mem _ List.mem_cons_self, List.mem_cons_of_mem _ ?_⟩
  refine List.mem_append_left _ (List.mem_append_right _ (List.mem_map_of_mem ?_))
  exact List.mem_map.2 ⟨_, hmem, rfl⟩

/-- A loop goes through the elements in order. -/
theorem Encodes.loop {statements : Place → Nat → List EncodeStatement} {list element : ResolvedType}
    (h : catalog.Encodes statements element) (helement : list.element? = some element) :
    catalog.Encodes (fun place depth => [.forEach (loopVariable depth) place
      (statements ⟨loopVariable depth, []⟩ (depth + 1))]) list where
  named place depth hplace statement hstatement := by
    obtain rfl := List.mem_singleton.1 hstatement
    have hitem := isIdentifier_loopVariable depth
    refine .forEach hitem hplace (h.named _ _ fun name hname => ?_)
    exact List.mem_singleton.1 hname ▸ hitem
  reads place depth root hpath statement hstatement := by
    obtain rfl := List.mem_singleton.1 hstatement
    refine .forEach rfl hpath helement (loopVariable_ne_args depth) ?_
    exact h.reads ⟨loopVariable depth, []⟩ (depth + 1) element (.here element)
  runs place depth scope value args hplace hvalue := by
    obtain ⟨elements, rfl, helements⟩ := exists_elements hvalue helement
    rw [EncodeStatement.runAll, EncodeStatement.run, hplace]
    simp only [Option.bind_eq_bind, Option.bind_some, NativeValue.elements?]
    have hbody : ∀ after, elements.foldlM (fun args element => EncodeStatement.runAll
        (statements ⟨loopVariable depth, []⟩ (depth + 1)) ((loopVariable depth, element) :: scope) args)
          after = some (after ++ (NativeValue.flattenElements elements).map (·.hexText)) := by
      clear hplace hvalue
      induction elements with
      | nil => intro after; simp [NativeValue.flattenElements]
      | cons first rest ih =>
        intro after
        have hfirst := h.runs ⟨loopVariable depth, []⟩ (depth + 1) _ first after
          (Place.valueIn_variable _ first scope) (helements first List.mem_cons_self)
        rw [List.foldlM_cons, hfirst, Option.bind_eq_bind, Option.bind_some,
          ih (fun other hother => helements other (List.mem_cons_of_mem _ hother)),
          NativeValue.flattenElements, List.map_append, List.append_assoc]
    rw [hbody, NativeValue.flatten]
    rfl

/-- The statements for some fields at a place. -/
def encodeEach (encodeFields : EncodeFields) (fields : List Field) (place : Place) (depth : Nat) :
    List EncodeStatement :=
  fields.flatMap fun field =>
    field.type.encode encodeFields (place.field (Identifier.field field.name)) depth

theorem runAll_encodeEach {encodeFields : EncodeFields} {place : Place} {depth : Nat} {scope : Scope}
    {fields : List Field} {parts : List (String × NativeValue)}
    (hfields : ∀ field ∈ fields, catalog.Encodes (fun place depth =>
      field.type.encode encodeFields place depth) field.type)
    (hparts : catalog.TypesFields fields parts)
    (hplaces : ∀ part ∈ parts, (place.field part.1).valueIn scope = some part.2)
    (args : List String) :
    EncodeStatement.runAll (encodeEach encodeFields fields place depth) scope args =
      some (args ++ (NativeValue.flattenFields parts).map (·.hexText)) := by
  induction fields generalizing parts args with
  | nil =>
    cases hparts
    simp [encodeEach, EncodeStatement.runAll, NativeValue.flattenFields]
  | cons field rest ih =>
    cases hparts with
    | cons hpart hrest =>
      have hfirst := (hfields field List.mem_cons_self).runs _ depth scope _ args
        (hplaces _ List.mem_cons_self) hpart
      have hothers := ih (fun other hother => hfields other (List.mem_cons_of_mem _ hother)) hrest
        fun part hmem => hplaces part (List.mem_cons_of_mem _ hmem)
      rw [encodeEach, List.flatMap_cons, EncodeStatement.runAll_append, hfirst, Option.bind_some,
        NativeValue.flattenFields, List.map_append, ← List.append_assoc]
      exact hothers _

/-- A struct is flattened field after field. -/
theorem encodes_struct {encodeFields : EncodeFields} {name : String} {fields : List Field}
    (hstruct : catalog.struct? type = some (name, fields))
    (hnodup : (fields.map (Identifier.field ·.name)).Nodup)
    (hnamed : ∀ field ∈ fields, IsIdentifier (Identifier.field field.name))
    (hfields : ∀ field ∈ fields, catalog.Encodes (fun place depth =>
      field.type.encode encodeFields place depth) field.type) :
    catalog.Encodes (encodeEach encodeFields fields) type where
  named place depth hplace statement hstatement := by
    obtain ⟨field, hfield, hstatement⟩ := List.mem_flatMap.1 hstatement
    exact (hfields field hfield).named _ _ (Place.isNamed_field hplace (hnamed field hfield))
      statement hstatement
  reads place depth root hpath statement hstatement := by
    obtain ⟨field, hfield, hstatement⟩ := List.mem_flatMap.1 hstatement
    have hdeclares := declaresField_of_struct hstruct hfield
    exact (hfields field hfield).reads (place.field (Identifier.field field.name)) depth root
      (hpath.append_field hdeclares) statement hstatement
  runs place depth scope value args hplace hvalue := by
    obtain ⟨parts, rfl, hparts⟩ := exists_parts hvalue hstruct
    have hkeys : (parts.map (·.1)).Nodup := by
      rw [names_of_typesFields hparts]
      exact hnodup
    have hlookup : ∀ part ∈ parts, (place.field part.1).valueIn scope = some part.2 := by
      intro part hpart
      rw [Place.valueIn_field hplace]
      exact (lookup_eq_some_iff_mem hkeys).2 hpart
    rw [NativeValue.flatten]
    exact runAll_encodeEach hfields hparts hlookup args

theorem encodeMembers_eq (encodeFields : EncodeFields) (place : Place) (depth index : Nat)
    (members : List ResolvedType) :
    ResolvedType.encodeMembers encodeFields place depth index members =
      encodeEach encodeFields (memberFieldsFrom index members) place depth := by
  induction members generalizing index with
  | nil => rfl
  | cons member rest ih =>
    rw [ResolvedType.encodeMembers, ih, memberFieldsFrom, encodeEach, encodeEach, List.flatMap_cons,
      Identifier.field_memberName]

theorem identifiers_memberFields (members : List ResolvedType) :
    (memberFields members).map (Identifier.field ·.name) =
      (List.range members.length).map memberName := by
  calc (memberFields members).map (Identifier.field ·.name)
      = ((memberFields members).map (·.name)).map Identifier.field := by
        simp only [List.map_map, Function.comp_def]
    _ = (List.range members.length).map (fun index => Identifier.field (memberName index)) := by
        rw [names_memberFields, List.map_map, Function.comp_def]
    _ = (List.range members.length).map memberName := by
        simp only [Identifier.field_memberName]

theorem nodup_identifiers_memberFields (members : List ResolvedType) :
    ((memberFields members).map (Identifier.field ·.name)).Nodup := by
  rw [identifiers_memberFields]
  exact List.nodup_range.map fun _ _ => memberName_injective

theorem isIdentifier_of_mem_memberFields {members : List ResolvedType} {field : Field}
    (h : field ∈ memberFields members) : IsIdentifier (Identifier.field field.name) := by
  have hname := List.mem_map_of_mem (f := fun field : Field => Identifier.field field.name) h
  rw [identifiers_memberFields] at hname
  obtain ⟨index, -, heq⟩ := List.mem_map.1 hname
  rw [← heq]
  exact isIdentifier_memberName index

/-- A group is a struct with a field for each member. -/
theorem encodes_group {encodeFields : EncodeFields} {name : String} {members : List ResolvedType}
    (hget : catalog.composites.get? name = some (memberFields members))
    (hmembers : ∀ member ∈ members, catalog.Encodes (fun place depth =>
      member.encode encodeFields place depth) member) :
    catalog.Encodes (fun place depth =>
      ResolvedType.encodeMembers encodeFields place depth 0 members) (.multi name members) := by
  have hstruct : catalog.struct? (.multi name members) = some (name, memberFields members) := by
    rw [struct?, hget]
    rfl
  have hencode : (fun place depth => ResolvedType.encodeMembers encodeFields place depth 0 members) =
      encodeEach encodeFields (memberFields members) := by
    funext place depth
    rw [encodeMembers_eq, memberFields_eq]
  rw [hencode]
  exact encodes_struct hstruct (nodup_identifiers_memberFields members)
    (fun _ hfield => isIdentifier_of_mem_memberFields hfield)
    fun field hfield => hmembers field.type (type_mem_of_mem_memberFields hfield)

/-- The types that take one step of nesting each. -/
def structTypes (catalog : Catalog) : List ResolvedType :=
  catalog.records.names.map .record ++
    catalog.composites.entries.map fun entry => .tuple entry.1 (entry.2.map (·.type))

open Classical in
/-- The records and tuples that a type is or has inside. -/
noncomputable def inside (catalog : Catalog) (type : ResolvedType) : Finset ResolvedType :=
  catalog.structTypes.toFinset.filter (Relation.ReflTransGen catalog.HasPart type)

theorem mem_inside {part : ResolvedType} : part ∈ catalog.inside type ↔
    part ∈ catalog.structTypes ∧ Relation.ReflTransGen catalog.HasPart type part := by
  simp [inside]

theorem card_inside_le (catalog : Catalog) (type : ResolvedType) :
    (catalog.inside type).card ≤ catalog.records.size + catalog.composites.size := by
  have hlength : catalog.structTypes.length = catalog.records.size + catalog.composites.size := by
    simp [structTypes, NameMap.names, NameMap.size]
  have hsubset : catalog.inside type ⊆ catalog.structTypes.toFinset :=
    fun part hpart => List.mem_toFinset.2 (mem_inside.1 hpart).1
  exact (Finset.card_le_card hsubset).trans (hlength ▸ List.toFinset_card_le _)

theorem record_mem_structTypes {name : String} {fields : List Field}
    (hget : catalog.records.get? name = some fields) : .record name ∈ catalog.structTypes :=
  List.mem_append_left _
    (List.mem_map_of_mem (NameMap.mem_names_of_mem (NameMap.get?_eq_some_iff.1 hget)))

theorem tuple_mem_structTypes {name : String} {members : List ResolvedType}
    (hget : catalog.composites.get? name = some (memberFields members)) :
    .tuple name members ∈ catalog.structTypes := by
  refine List.mem_append_right _ (List.mem_map.2 ⟨_, NameMap.get?_eq_some_iff.1 hget, ?_⟩)
  simp only [types_memberFields]

namespace Flattenable

variable {part : ResolvedType}

theorem of_part (h : catalog.Flattenable type) (hpart : catalog.HasPart type part) :
    catalog.Flattenable part :=
  ⟨fun inner hinner => h.declared inner (.head hpart hinner),
    fun inner hinner => h.ends inner (.head hpart hinner)⟩

/-- A type is flattenable if it is declared and its parts are flattenable. -/
theorem of_parts (hdeclares : catalog.Declares type)
    (hparts : ∀ part, catalog.HasPart type part → catalog.Flattenable part) :
    catalog.Flattenable type where
  declared inner hinner := by
    rcases Relation.ReflTransGen.cases_head hinner with rfl | ⟨part, hpart, hrest⟩
    · exact hdeclares
    · exact (hparts part hpart).declared inner hrest
  ends inner hinner hcycle := by
    rcases Relation.ReflTransGen.cases_head hinner with rfl | ⟨part, hpart, hrest⟩
    · -- the part by which the cycle starts is on the cycle too
      obtain ⟨part, hpart, hback⟩ := Relation.TransGen.head'_iff.1 hcycle
      exact (hparts part hpart).ends part .refl (Relation.TransGen.tail' hback hpart)
    · exact (hparts part hpart).ends inner hrest hcycle

theorem of_fields {name : String} {fields : List Field}
    (hget : catalog.records.get? name = some fields)
    (hnodup : (fields.map (Identifier.field ·.name)).Nodup)
    (hnamed : ∀ field ∈ fields, IsIdentifier (Identifier.field field.name))
    (hfields : ∀ field ∈ fields, catalog.Flattenable field.type) :
    catalog.Flattenable (.record name) := by
  refine of_parts ⟨fields, hget, hnodup, hnamed⟩ fun part hpart => ?_
  cases hpart with
  | record hother hfield =>
    rw [hget] at hother
    obtain rfl := Option.some.inj hother
    exact hfields _ hfield

theorem card_inside_mono (hpart : catalog.HasPart type part) :
    (catalog.inside part).card ≤ (catalog.inside type).card := by
  refine Finset.card_le_card fun inner hinner => ?_
  obtain ⟨hstruct, hpath⟩ := mem_inside.1 hinner
  exact mem_inside.2 ⟨hstruct, .head hpart hpath⟩

/-- A record or tuple is not inside its parts, so they have fewer inside. -/
theorem card_inside_lt (h : catalog.Flattenable type) (hstruct : type ∈ catalog.structTypes)
    (hpart : catalog.HasPart type part) :
    (catalog.inside part).card < (catalog.inside type).card := by
  have hself : type ∈ catalog.inside type := mem_inside.2 ⟨hstruct, .refl⟩
  have hnot : type ∉ catalog.inside part := fun hmem =>
    h.ends type .refl (Relation.TransGen.head' hpart (mem_inside.1 hmem).2)
  refine Finset.card_lt_card ⟨fun inner hinner => ?_, fun hsuper => hnot (hsuper hself)⟩
  obtain ⟨hinside, hpath⟩ := mem_inside.1 hinner
  exact mem_inside.2 ⟨hinside, .head hpart hpath⟩

/-- A record or tuple takes one step of nesting, and there is one left for it. -/
theorem exists_nesting (hstruct : type ∈ catalog.structTypes) {nesting : Nat}
    (hnesting : (catalog.inside type).card ≤ nesting) : ∃ rest, nesting = rest + 1 := by
  have hpositive : 0 < (catalog.inside type).card :=
    Finset.card_pos.2 ⟨type, mem_inside.2 ⟨hstruct, .refl⟩⟩
  exact ⟨nesting - 1, by omega⟩

/-- A type that takes a step of nesting is flattened if its fields are with one step less. -/
theorem encodes_of_fields (h : catalog.Flattenable type) (hmem : type ∈ catalog.structTypes)
    {name : String} {fields : List Field} (hstruct : catalog.struct? type = some (name, fields))
    (hfieldsOf : catalog.fieldsOf? type = some fields)
    (hencode : ∀ encodeFields place depth,
      type.encode encodeFields place depth = encodeFields type place depth)
    (hnodup : (fields.map (Identifier.field ·.name)).Nodup)
    (hnamed : ∀ field ∈ fields, IsIdentifier (Identifier.field field.name))
    (hparts : ∀ field ∈ fields, catalog.HasPart type field.type) {nesting : Nat}
    (hnesting : (catalog.inside type).card ≤ nesting)
    (ih : ∀ rest < nesting, ∀ part : ResolvedType, catalog.Flattenable part →
      (catalog.inside part).card ≤ rest → catalog.Encodes (fun place depth =>
        part.encode (catalog.encodeFields rest) place depth) part) :
    catalog.Encodes (fun place depth => type.encode (catalog.encodeFields nesting) place depth)
      type := by
  obtain ⟨rest, rfl⟩ := exists_nesting hmem hnesting
  have hstatements : (fun place depth => type.encode (catalog.encodeFields (rest + 1)) place depth) =
      encodeEach (catalog.encodeFields rest) fields := by
    funext place depth
    rw [hencode, encodeFields, hfieldsOf]
    rfl
  rw [hstatements]
  refine encodes_struct hstruct hnodup hnamed fun field hfield => ?_
  have hpart := hparts field hfield
  exact ih rest (Nat.lt_succ_self rest) field.type (h.of_part hpart)
    (Nat.le_of_lt_succ ((h.card_inside_lt hmem hpart).trans_le hnesting))

/-- With room for the records and tuples inside a type, its statements flatten it. -/
theorem encodes_of_card_le {nesting : Nat} (h : catalog.Flattenable type)
    (hnesting : (catalog.inside type).card ≤ nesting) :
    catalog.Encodes (fun place depth => type.encode (catalog.encodeFields nesting) place depth)
      type := by
  induction nesting using Nat.strong_induction_on generalizing type with
  | h nesting ihnesting =>
    -- only a record or a tuple has less room for its parts, so other types go by their structure
    induction type using ResolvedType.memberInduction with
    | primitive kind => exact encodes_argument rfl
    | enum name => exact encodes_argument rfl
    | record name =>
      obtain ⟨fields, hget, hnodup, hnamed⟩ := h.declared _ .refl
      have hstruct : catalog.struct? (.record name) = some (name, fields) := by
        rw [struct?, hget]
        rfl
      exact h.encodes_of_fields (record_mem_structTypes hget) hstruct hget
        (fun _ _ _ => by rw [ResolvedType.encode]) hnodup hnamed
        (fun field hfield => .record hget hfield) hnesting
        fun rest hrest part hpart => ihnesting rest hrest hpart
    | tuple name members _ =>
      have hget := h.declared _ .refl
      have hstruct : catalog.struct? (.tuple name members) = some (name, memberFields members) := by
        rw [struct?, hget]
        rfl
      exact h.encodes_of_fields (tuple_mem_structTypes hget) hstruct hget
        (fun _ _ _ => by rw [ResolvedType.encode]) (nodup_identifiers_memberFields members)
        (fun field hfield => isIdentifier_of_mem_memberFields hfield)
        (fun field hfield => .tuple (type_mem_of_mem_memberFields hfield)) hnesting
        fun rest hrest part hpart => ihnesting rest hrest hpart
    | multi name members ih =>
      refine encodes_group (h.declared _ .refl) fun member hmember => ?_
      have hpart : catalog.HasPart (.multi name members) member := .multi hmember
      exact ih member hmember (h.of_part hpart) ((card_inside_mono hpart).trans hnesting)
    | list element ih =>
      have hpart : catalog.HasPart (.list element) element := .list element
      exact (ih (h.of_part hpart) ((card_inside_mono hpart).trans hnesting)).loop rfl
    | variadic element ih =>
      have hpart : catalog.HasPart (.variadic element) element := .variadic element
      exact (ih (h.of_part hpart) ((card_inside_mono hpart).trans hnesting)).loop rfl
    | variadicMulti name members ih =>
      refine Encodes.loop (encodes_group (h.declared _ .refl) fun member hmember => ?_) rfl
      have hpart : catalog.HasPart (.variadicMulti name members) member := .variadicMulti hmember
      exact ih member hmember (h.of_part hpart) ((card_inside_mono hpart).trans hnesting)

end Flattenable

/-- The list of arguments is a local of the method, so no parameter is called like it. -/
theorem parameter_ne_args (name : String) : Identifier.parameter name ≠ "args" := by
  intro heq
  rw [Identifier.parameter] at heq
  split at heq
  · have hlast := congrArg (fun text : String => text.toList.getLast?) heq
    rw [String.toList_append, List.getLast?_append] at hlast
    cases Option.some.inj hlast
  · rename_i hkept
    rw [heq] at hkept
    exact hkept rfl

/-- The statements of a parameter are a loop program that appends the arguments of whatever value
is passed, and nothing else. Each statement uses the one variable that it has in reach, along
fields of declared structs. -/
theorem parameters_are_flattened {catalog : Catalog} {type : ResolvedType}
    (h : catalog.Flattenable type) {input : String}
    (hinput : IsIdentifier (Identifier.parameter input)) (level : Nat) :
    ∃ program, ArgumentText.program? ((EncodeStatement.linesOf
        (catalog.encodeStatements ⟨Identifier.parameter input, []⟩ type)).map (Code.indent level)) =
          some program ∧
      Identifier.parameter input ≠ "args" ∧
      (∀ statement ∈ program, catalog.Reads (Identifier.parameter input) type statement) ∧
      ∀ scope value args, scope.lookup (Identifier.parameter input) = some value →
        catalog.Types type value → EncodeStatement.runAll program scope args =
          some (args ++ value.flatten.map (·.hexText)) := by
  have hencodes := h.encodes_of_card_le (card_inside_le catalog type)
  have hplace : Place.IsNamed ⟨Identifier.parameter input, []⟩ :=
    fun name hname => List.mem_singleton.1 hname ▸ hinput
  refine ⟨_, ArgumentText.program?_linesOf (hencodes.named _ 0 hplace) level,
    parameter_ne_args input, hencodes.reads _ 0 type (.here type),
    fun scope value args hvalue htypes => hencodes.runs _ 0 scope value args ?_ htypes⟩
  rw [Place.valueIn, hvalue]
  rfl

/-- A stake as generated code has it. -/
def nativeStake (amount : Nat) (epochs : List UInt16) : NativeValue :=
  .struct "Stake" [("share", .struct "Share" [("amount", .scalar .natural (.integer amount))]),
    ("epochs", .list (epochs.map fun epoch => .scalar (.word .u16) (.unsigned epoch.toNat)))]

def nativeStakes : NativeValue :=
  .list [nativeStake 300 [1, 2], nativeStake 0 []]

theorem types_nativeStake (amount : Nat) (epochs : List UInt16) :
    vaultCatalog.Types (.record "Stake") (nativeStake amount epochs) := by
  have hamount : vaultCatalog.Types (.primitive .bigUint)
      (.scalar Primitive.bigUint.codec (.integer amount)) := .scalar (Int.natCast_nonneg amount)
  have hepoch (epoch : UInt16) : vaultCatalog.Types (.primitive .u16)
      (.scalar Primitive.u16.codec (.unsigned epoch.toNat)) := .scalar epoch.toNat_lt
  have hepochs : vaultCatalog.Types (.list (.primitive .u16))
      (.list (epochs.map fun epoch => .scalar (.word .u16) (.unsigned epoch.toNat))) := by
    refine .list rfl fun value hvalue => ?_
    obtain ⟨epoch, -, rfl⟩ := List.mem_map.1 hvalue
    exact hepoch epoch
  have hshareStruct : vaultCatalog.struct? (.record "Share") =
      some ("Share", [⟨"amount", .primitive .bigUint⟩]) := rfl
  have hstakeStruct : vaultCatalog.struct? (.record "Stake") =
      some ("Stake", [⟨"share", .record "Share"⟩, ⟨"epochs", .list (.primitive .u16)⟩]) := rfl
  have hshare : vaultCatalog.Types (.record "Share")
      (.struct "Share" [("amount", .scalar .natural (.integer amount))]) :=
    .struct hshareStruct (.cons hamount .nil)
  exact .struct hstakeStruct (.cons hshare (.cons hepochs .nil))

theorem types_nativeStakes : vaultCatalog.Types (.list (.record "Stake")) nativeStakes := by
  refine .list rfl fun value hvalue => ?_
  rcases List.mem_pair.1 hvalue with rfl | rfl
  · exact types_nativeStake 300 [1, 2]
  · exact types_nativeStake 0 []

theorem flattenable_stakes : vaultCatalog.Flattenable (.list (.record "Stake")) := by
  have hprimitive (kind : Primitive) : vaultCatalog.Flattenable (.primitive kind) :=
    .of_parts trivial fun part hpart => by cases hpart
  have hlist {element : ResolvedType} (helement : vaultCatalog.Flattenable element) :
      vaultCatalog.Flattenable (.list element) :=
    .of_parts trivial fun part hpart => by
      cases hpart
      exact helement
  have hamount : IsIdentifier (Identifier.field "amount") :=
    isIdentifier_of_isWord (DecoderText.isWord_of_all (by rfl))
  have hfirst : IsIdentifier (Identifier.field "share") :=
    isIdentifier_of_isWord (DecoderText.isWord_of_all (by rfl))
  have hsecond : IsIdentifier (Identifier.field "epochs") :=
    isIdentifier_of_isWord (DecoderText.isWord_of_all (by rfl))
  have hshare : vaultCatalog.Flattenable (.record "Share") :=
    .of_fields rfl (by decide +kernel) (by simpa using hamount) (by simp [hprimitive])
  have hstake : vaultCatalog.Flattenable (.record "Stake") :=
    .of_fields rfl (by decide +kernel) (by simpa using ⟨hfirst, hsecond⟩)
      (by simp [hprimitive, hlist, hshare])
  exact hlist hstake

/-- Stakes are bound to a parameter that is called like the variable of the loop over them. -/
theorem stakes_are_flattened :
    vaultCatalog.Flattenable (.list (.record "Stake")) ∧
    IsIdentifier (Identifier.parameter "item0") ∧
    ∃ program, ArgumentText.program? ((EncodeStatement.linesOf (vaultCatalog.encodeStatements
        ⟨"item0", []⟩ (.list (.record "Stake")))).map (Code.indent 2)) = some program ∧
      EncodeStatement.runAll program [("item0", nativeStakes)] ["ff"] =
        some ["ff", "012c", "0001", "0002", ""] := by
  have hinput : IsIdentifier (Identifier.parameter "item0") :=
    isIdentifier_of_isWord (DecoderText.isWord_of_all (by rfl))
  obtain ⟨program, hprogram, -, -, hruns⟩ := parameters_are_flattened flattenable_stakes hinput 2
  refine ⟨flattenable_stakes, hinput, program, hprogram, ?_⟩
  rw [hruns [("item0", nativeStakes)] nativeStakes ["ff"] rfl types_nativeStakes]
  decide +kernel

end Catalog
end ContractAbi
