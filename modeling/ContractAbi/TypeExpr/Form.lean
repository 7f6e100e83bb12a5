import ContractAbi.Primitive
import ContractAbi.TypeExpr.Brackets

/-!
The outermost form of a type expression. Optional wrappers are stripped first: absence of a value
is not modelled, so the wrapped type stands for itself.
-/
namespace ContractAbi.TypeExpr

/-- The heads that take arguments. -/
inductive Head where
  | optional | list | variadic | multi | tuple
  deriving DecidableEq, Repr

def Head.ofName? (name : String) : Option Head :=
  if name = "Option" ∨ name = "optional" then some .optional
  else if name = "List" then some .list
  else if name = "variadic" then some .variadic
  else if name = "multi" then some .multi
  else if name = "tuple" then some .tuple
  else none

def headOf (head : List Char) : Option Head :=
  Head.ofName? (String.ofList head)

/-- The text inside every optional wrapper of a trimmed text. -/
def unwrap (text : List Char) : List Char :=
  match _h : application? text with
  | .ok (some (head, inner)) =>
    if headOf head = some .optional then unwrap (Text.trim inner) else text
  | _ => text
termination_by text.length
decreasing_by exact Nat.lt_of_le_of_lt (Text.length_trim_le inner) (length_inner_lt _h)

/-- The expression without blanks around it and without optional wrappers. -/
def stripOptional (text : List Char) : List Char :=
  unwrap (Text.trim text)

theorem length_unwrap_le (text : List Char) : (unwrap text).length ≤ text.length := by
  fun_induction unwrap text with
  | case1 text head inner h hopt ih =>
    exact Nat.le_trans ih (Nat.le_trans (Text.length_trim_le inner) (Nat.le_of_lt (length_inner_lt h)))
  | case2 => exact Nat.le_refl _
  | case3 => exact Nat.le_refl _

theorem length_stripOptional_le (text : List Char) : (stripOptional text).length ≤ text.length :=
  Nat.le_trans (length_unwrap_le _) (Text.length_trim_le text)

def isNameStart (c : Char) : Bool := c.isAlpha || c = '_'

def isNameRest (c : Char) : Bool := c.isAlphanum || c = '_'

/-- An ASCII identifier. -/
def isTypeName : List Char → Bool
  | [] => false
  | c :: rest => isNameStart c && rest.all isNameRest

/-- What an expression is at its outermost, with the text of its arguments. -/
inductive Form where
  | primitive (kind : Primitive)
  | list (inner : List Char)
  | variadic (inner : List Char)
  | variadicMulti (members : List Char)
  | multi (members : List Char)
  | tuple (members : List Char)
  | named (name : List Char)
  deriving DecidableEq, Repr

/-- A variadic of groups is told from other variadics by the head of its argument. -/
def Form.ofVariadic (inner : List Char) : Except Unrecognized Form := do
  match ← application? (Text.trim inner) with
  | some (head, members) =>
    return if headOf head = some .multi then .variadicMulti members else .variadic inner
  | none => return .variadic inner

/-- The form of a stripped expression that is no primitive keyword. -/
def Form.ofStripped (text : List Char) : Except Unrecognized Form := do
  match ← application? text with
  | some (head, inner) =>
    match headOf head with
    | some .list => return .list inner
    | some .variadic => Form.ofVariadic inner
    | some .multi => return .multi inner
    | some .tuple => return .tuple inner
    | _ => .error ⟨text⟩
  | none => if isTypeName text then return .named text else .error ⟨text⟩

def Form.ofText (text : List Char) : Except Unrecognized Form :=
  let stripped := stripOptional text
  if stripped.isEmpty then .error ⟨stripped⟩
  else
    match Primitive.ofKeyword? (String.ofList stripped) with
    | some kind => .ok (.primitive kind)
    | none => Form.ofStripped stripped

/-- The text of the arguments, still to be read. -/
def Form.argument? : Form → Option (List Char)
  | .primitive _ | .named _ => none
  | .list inner | .variadic inner | .variadicMulti inner | .multi inner | .tuple inner => some inner

theorem Form.length_argument_of_variadic {inner arg : List Char} {form : Form}
    (h : Form.ofVariadic inner = .ok form) (ha : form.argument? = some arg) :
    arg.length ≤ inner.length := by
  simp only [Form.ofVariadic, bind, Except.bind, pure, Except.pure] at h
  split at h
  · simp at h
  · rename_i parts happ
    split at h
    · rename_i head members
      simp only [Except.ok.injEq] at h
      subst h
      split at ha
      · simp only [Form.argument?, Option.some.injEq] at ha
        subst ha
        exact Nat.le_trans (Nat.le_of_lt (length_inner_lt happ)) (Text.length_trim_le inner)
      · simp only [Form.argument?, Option.some.injEq] at ha
        exact ha ▸ Nat.le_refl _
    · simp only [Except.ok.injEq] at h
      subst h
      simp only [Form.argument?, Option.some.injEq] at ha
      exact ha ▸ Nat.le_refl _

theorem Form.length_argument_of_stripped {text arg : List Char} {form : Form}
    (h : Form.ofStripped text = .ok form) (ha : form.argument? = some arg) :
    arg.length < text.length := by
  simp only [Form.ofStripped, bind, Except.bind, pure, Except.pure] at h
  split at h
  · simp at h
  · rename_i parts happ
    split at h
    · rename_i head inner
      have hlt := length_inner_lt happ
      split at h
      · simp_all [← Except.ok.inj h, Form.argument?]
      · exact Nat.lt_of_le_of_lt (Form.length_argument_of_variadic h ha) hlt
      · simp_all [← Except.ok.inj h, Form.argument?]
      · simp_all [← Except.ok.inj h, Form.argument?]
      · simp at h
    · split at h
      · simp_all [← Except.ok.inj h, Form.argument?]
      · simp at h

theorem Form.length_argument_lt {text arg : List Char} {form : Form}
    (h : Form.ofText text = .ok form) (ha : form.argument? = some arg) :
    arg.length < text.length := by
  simp only [Form.ofText] at h
  split at h
  · simp at h
  · split at h
    · simp_all [← Except.ok.inj h, Form.argument?]
    · exact Nat.lt_of_lt_of_le (Form.length_argument_of_stripped h ha)
        (length_stripOptional_le text)

end ContractAbi.TypeExpr
