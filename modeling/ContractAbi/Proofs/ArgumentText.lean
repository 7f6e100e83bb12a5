import ContractAbi.Proofs.DecoderNames
import ContractAbi.Proofs.Results

/-!
# Reading the text of encoders

The statements that collect the arguments of a call are read back from their lines, whatever the
indentation. A loop reaches from the line that opens it to the brace that closes it, and a value is
reached by a path of names with dots between them.
-/
namespace ContractAbi

open DecoderText (Scan literal literal_append literal_of_head_ne bind_apply orElse_of_some orElse_of_none
  isWordChar takeWhile_append_of_stops whole whole_of_eq)

/-- The characters of identifiers; letters of other alphabets are among them. -/
def isIdentifierChar (c : Char) : Bool :=
  isWordChar c || 128 ≤ c.toNat

def IsIdentifier (name : String) : Prop :=
  name.toList ≠ [] ∧ ∀ c ∈ name.toList, isIdentifierChar c = true

theorem isIdentifier_of_isWord {name : String} (h : DecoderText.IsWord name) : IsIdentifier name :=
  ⟨h.1, fun c hc => by rw [isIdentifierChar, h.2 c hc, Bool.true_or]⟩

theorem isIdentifier_numbered {front : String} (hfront : DecoderText.IsWord front) (n : Nat) :
    IsIdentifier (front ++ toString n) :=
  isIdentifier_of_isWord (DecoderText.isWord_append_left hfront (DecoderText.isWord_toString n).2)

theorem isIdentifier_loopVariable (depth : Nat) : IsIdentifier (loopVariable depth) :=
  isIdentifier_numbered (DecoderText.isWord_of_all (by rfl)) depth

theorem isIdentifier_memberName (index : Nat) : IsIdentifier (memberName index) :=
  isIdentifier_numbered (DecoderText.isWord_of_all (by rfl)) index

/-- A place that is spelled with identifiers. -/
def Place.IsNamed (place : Place) : Prop :=
  ∀ name ∈ place.root :: place.fields, IsIdentifier name

/-- Statements that are spelled with identifiers. -/
inductive EncodeStatement.IsNamed : EncodeStatement → Prop
  | push {place : Place} (hplace : place.IsNamed) : IsNamed (.push place)
  | forEach {item : String} {source : Place} {body : List EncodeStatement} (hitem : IsIdentifier item)
      (hsource : source.IsNamed) (hbody : ∀ statement ∈ body, IsNamed statement) :
      IsNamed (.forEach item source body)

namespace ArgumentText

/-- A line of a loop program. -/
inductive Line where
  | push (place : Place)
  | forEach (item : String) (source : Place)
  | close
  deriving DecidableEq

def isPathChar (c : Char) : Bool :=
  isIdentifierChar c || c = '.'

def identifier : Scan String := fun input =>
  if (input.takeWhile isIdentifierChar).isEmpty then none
  else some (String.ofList (input.takeWhile isIdentifierChar), input.dropWhile isIdentifierChar)

/-- Names with dots between them. -/
def path : Scan (List String) := fun input =>
  let names := (input.takeWhile isPathChar).splitOn '.'
  if names.any List.isEmpty then none
  else some (names.map String.ofList, input.dropWhile isPathChar)

/-- The place that a method is called on. -/
def receiver (method : String) : Scan Place := do
  let names ← path
  match names.dropLast with
  | root :: fields => if names.getLast? = some method then return ⟨root, fields⟩ else failure
  | [] => failure

def push : Scan Line := do
  literal "args.push("
  let place ← receiver "to_wire_arg"
  literal "());"
  return .push place

def forEach : Scan Line := do
  literal "for "
  let item ← identifier
  literal " in "
  let source ← receiver "iter"
  literal "() \x7b"
  return .forEach item source

def close : Scan Line := do
  literal "\x7d"
  return .close

/-- A line with any indentation. -/
def line? (line : String) : Option Line :=
  whole (push <|> forEach <|> close) (String.ofList (line.toList.dropWhile (· = ' ')))

/-- A loop whose body is being read, with the statements in front of it. -/
structure OpenLoop where
  item : String
  source : Place
  before : List EncodeStatement

/-- The statements of some lines behind those of the innermost body that were read before. -/
def programFrom (loops : List OpenLoop) (done : List EncodeStatement) :
    List Line → Option (List EncodeStatement)
  | [] => if loops.isEmpty then some done else none
  | .push place :: rest => programFrom loops (done ++ [.push place]) rest
  | .forEach item source :: rest => programFrom (⟨item, source, done⟩ :: loops) [] rest
  | .close :: rest =>
    match loops with
    | [] => none
    | loop :: loops => programFrom loops (loop.before ++ [.forEach loop.item loop.source done]) rest

/-- The loop program that some lines spell. -/
def program? (lines : List String) : Option (List EncodeStatement) := do
  programFrom [] [] (← lines.mapM line?)

theorem identifier_append {name : String} (hname : IsIdentifier name) {rest : List Char}
    (hrest : rest.head?.any isIdentifierChar = false) :
    identifier (name.toList ++ rest) = some (name, rest) := by
  obtain ⟨htake, hdrop⟩ := takeWhile_append_of_stops hname.2 hrest
  have hne : name.toList.isEmpty = false := List.isEmpty_eq_false_iff.2 hname.1
  rw [identifier, htake, hdrop, hne, String.ofList_toList]
  rfl

theorem splitOn_intercalate {names : List String} (hne : names ≠ [])
    (hnames : ∀ name ∈ names, IsIdentifier name) :
    (".".intercalate names).toList.splitOn '.' = names.map String.toList := by
  rw [String.toList_intercalate]
  refine List.splitOn_intercalate '.' (fun part hpart hdot => ?_) (by simpa using hne)
  obtain ⟨name, hname, rfl⟩ := List.mem_map.1 hpart
  exact absurd ((hnames name hname).2 '.' hdot) (by decide)

theorem isPathChar_of_mem_intercalate {names : List String}
    (hnames : ∀ name ∈ names, IsIdentifier name) :
    ∀ c ∈ (".".intercalate names).toList, isPathChar c = true := by
  induction names with
  | nil => simp
  | cons name rest ih =>
    have hname : ∀ c ∈ name.toList, isPathChar c = true := fun c hc => by
      rw [isPathChar, (hnames name List.mem_cons_self).2 c hc, Bool.true_or]
    cases rest with
    | nil => rwa [String.intercalate_singleton]
    | cons next rest =>
      rw [String.intercalate_cons_cons]
      intro c hc
      rw [String.toList_append, String.toList_append, List.append_assoc] at hc
      rcases List.mem_append.1 hc with hc | hc
      · exact hname c hc
      · rcases List.mem_append.1 hc with hc | hc
        · obtain rfl := List.mem_singleton.1 hc
          rfl
        · exact ih (fun other hother => hnames other (List.mem_cons_of_mem _ hother)) c hc

theorem path_append {names : List String} (hne : names ≠ [])
    (hnames : ∀ name ∈ names, IsIdentifier name) {rest : List Char}
    (hrest : rest.head?.any isPathChar = false) :
    path ((".".intercalate names).toList ++ rest) = some (names, rest) := by
  obtain ⟨htake, hdrop⟩ :=
    takeWhile_append_of_stops (isPathChar_of_mem_intercalate hnames) hrest
  have hempty : (names.map String.toList).any List.isEmpty = false := by
    rw [List.any_eq_false]
    intro part hpart
    obtain ⟨name, hname, rfl⟩ := List.mem_map.1 hpart
    simpa using (hnames name hname).1
  have hback : (names.map String.toList).map String.ofList = names := by
    rw [List.map_map]
    exact (List.map_congr_left fun name _ => String.ofList_toList).trans (List.map_id _)
  rw [path]
  simp only [htake, hdrop, splitOn_intercalate hne hnames, hempty, hback]
  rfl

/-- The place of a method call is read back from the call. -/
theorem receiver_append {place : Place} (hplace : place.IsNamed) {method : String}
    (hmethod : IsIdentifier method) {rest : List Char} (hrest : rest.head?.any isPathChar = false) :
    receiver method (place.text.toList ++ (".".toList ++ (method.toList ++ rest))) =
      some (place, rest) := by
  have htext : place.text.toList ++ (".".toList ++ (method.toList ++ rest)) =
      (".".intercalate ((place.root :: place.fields) ++ [method])).toList ++ rest := by
    rw [Place.text, String.intercalate_append_of_ne_nil (List.cons_ne_nil _ _) (List.cons_ne_nil _ _)]
    simp
  have hnames : ∀ name ∈ (place.root :: place.fields) ++ [method], IsIdentifier name := by
    intro name hname
    rcases List.mem_append.1 hname with hname | hname
    · exact hplace name hname
    · exact List.mem_singleton.1 hname ▸ hmethod
  have hpath := path_append (by simp) hnames hrest
  have hplaces : ((place.root :: place.fields) ++ [method]).dropLast = place.root :: place.fields :=
    List.dropLast_concat
  have hlast : ((place.root :: place.fields) ++ [method]).getLast? = some method :=
    List.getLast?_concat
  rw [htext, receiver, bind_apply, hpath]
  simp only [hplaces, hlast, if_true]
  rfl

theorem push_text {place : Place} (hplace : place.IsNamed) :
    push ("args.push(" ++ place.text ++ ".to_wire_arg());").toList = some (.push place, []) := by
  have hmethod : IsIdentifier "to_wire_arg" :=
    isIdentifier_of_isWord (DecoderText.isWord_of_all (by rfl))
  have hclose : ".to_wire_arg());" = "." ++ ("to_wire_arg" ++ "());") := by simp
  have hreceiver : receiver "to_wire_arg" (place.text.toList ++
      (".".toList ++ ("to_wire_arg".toList ++ "());".toList))) = some (place, "());".toList) :=
    receiver_append hplace hmethod (by decide)
  have hend := literal_append "());" []
  rw [List.append_nil] at hend
  simp only [hclose, String.toList_append, List.append_assoc]
  rw [push]
  simp only [bind_apply, literal_append, hreceiver, hend]
  rfl

theorem forEach_text {item : String} {source : Place} (hitem : IsIdentifier item)
    (hsource : source.IsNamed) :
    forEach ("for " ++ item ++ " in " ++ source.text ++ ".iter()" ++ " \x7b").toList =
      some (.forEach item source, []) := by
  have hmethod : IsIdentifier "iter" :=
    isIdentifier_of_isWord (DecoderText.isWord_of_all (by rfl))
  have hclose : ".iter()" ++ " \x7b" = "." ++ ("iter" ++ "() \x7b") := by simp
  have hname : identifier (item.toList ++ (" in ".toList ++ (source.text.toList ++
      (".".toList ++ ("iter".toList ++ "() \x7b".toList))))) = some (item, " in ".toList ++
        (source.text.toList ++ (".".toList ++ ("iter".toList ++ "() \x7b".toList)))) :=
    identifier_append hitem rfl
  have hreceiver : receiver "iter" (source.text.toList ++
      (".".toList ++ ("iter".toList ++ "() \x7b".toList))) = some (source, "() \x7b".toList) :=
    receiver_append hsource hmethod (by decide)
  have hend := literal_append "() \x7b" []
  rw [List.append_nil] at hend
  simp only [String.append_assoc, hclose]
  simp only [String.toList_append]
  rw [forEach]
  simp only [bind_apply, literal_append, hname, hreceiver, hend]
  rfl

/-- Blanks in front of a line do not matter. -/
theorem line?_indent (level : Nat) (text : String) :
    line? (Code.indent level text) = line? text := by
  have hblanks : (Code.indent level text).toList.dropWhile (· = ' ') =
      text.toList.dropWhile (· = ' ') := by
    rw [Code.indent, String.toList_append, String.toList_ofList]
    exact List.dropWhile_append_of_pos fun c hc => decide_eq_true (List.eq_of_mem_replicate hc)
  rw [line?, line?, hblanks]

/-- A line that begins with no blank is read from its first character on. -/
theorem line?_of_head {text : String} {line : Line}
    (hhead : text.toList.head?.any (· = ' ') = false)
    (h : (push <|> forEach <|> close) text.toList = some (line, [])) : line? text = some line := by
  have hblanks : text.toList.dropWhile (· = ' ') = text.toList :=
    (takeWhile_append_of_stops (fun _ hc => absurd hc List.not_mem_nil) hhead).2
  rw [line?, hblanks, String.ofList_toList]
  exact whole_of_eq h

theorem line?_push (level : Nat) {place : Place} (hplace : place.IsNamed) :
    line? (Code.indent level ("args.push(" ++ place.text ++ ".to_wire_arg());")) =
      some (.push place) := by
  rw [line?_indent]
  refine line?_of_head ?_ (orElse_of_some (push_text hplace))
  rw [String.append_assoc, String.toList_append]
  rfl

theorem line?_forEach (level : Nat) {item : String} {source : Place} (hitem : IsIdentifier item)
    (hsource : source.IsNamed) :
    line? (Code.indent level ("for " ++ item ++ " in " ++ source.text ++ ".iter()" ++ " \x7b")) =
      some (.forEach item source) := by
  have htext : "for " ++ item ++ " in " ++ source.text ++ ".iter()" ++ " \x7b" =
      "for " ++ (item ++ (" in " ++ (source.text ++ (".iter()" ++ " \x7b")))) := by
    simp only [String.append_assoc]
  rw [line?_indent]
  refine line?_of_head ?_ ?_
  · rw [htext, String.toList_append]
    rfl
  · rw [orElse_of_none]
    · exact orElse_of_some (forEach_text hitem hsource)
    · rw [htext, String.toList_append, push, bind_apply, literal_of_head_ne (by rfl)]

mutual

/-- The lines of a statement without their texts. -/
def linesOf : EncodeStatement → List Line
  | .push place => [.push place]
  | .forEach item source body => .forEach item source :: (linesOfAll body ++ [.close])

def linesOfAll : List EncodeStatement → List Line
  | [] => []
  | statement :: rest => linesOf statement ++ linesOfAll rest

end

theorem line?_nestLine (text : String) : line? (Code.nestLine text) = line? text := by
  rw [Code.nestLine]
  split
  · rfl
  · exact line?_indent 2 text

theorem line?_close : line? "\x7d" = some .close := by
  refine line?_of_head (by rfl) ?_
  rw [orElse_of_none, orElse_of_none] <;> rfl

theorem map_line?_linesOf {statements : List EncodeStatement}
    (h : ∀ statement ∈ statements, statement.lines.map line? = (linesOf statement).map some) :
    (EncodeStatement.linesOf statements).map line? = (linesOfAll statements).map some := by
  induction statements with
  | nil => rfl
  | cons statement rest ih =>
    rw [EncodeStatement.linesOf, linesOfAll, List.map_append, List.map_append,
      h statement List.mem_cons_self, ih fun other hother => h other (List.mem_cons_of_mem _ hother)]

/-- Every line of a statement is read, and nested lines are read like others. -/
theorem map_line?_lines {statement : EncodeStatement} (h : statement.IsNamed) :
    statement.lines.map line? = (linesOf statement).map some := by
  induction h with
  | push hplace =>
    have hline := line?_push 0 hplace
    rw [line?_indent] at hline
    rw [EncodeStatement.lines, linesOf, List.map_singleton, hline]
    rfl
  | @forEach item source body hitem hsource _ ih =>
    have hline := line?_forEach 0 hitem hsource
    rw [line?_indent] at hline
    have hnest : (Code.nest (EncodeStatement.linesOf body)).map line? =
        (linesOfAll body).map some := by
      simp only [Code.nest, List.map_map, Function.comp_def, line?_nestLine, map_line?_linesOf ih]
    simp only [EncodeStatement.lines, linesOf, Code.braces, Code.block, List.map_append,
      List.map_cons, List.map_nil, hline, hnest, line?_close, List.cons_append, List.nil_append]

mutual

theorem programFrom_linesOf : (statement : EncodeStatement) → (loops : List OpenLoop) →
    (done : List EncodeStatement) → (rest : List Line) →
    programFrom loops done (linesOf statement ++ rest) = programFrom loops (done ++ [statement]) rest
  | .push _, _, _, _ => rfl
  | .forEach item source body, loops, done, rest => by
    rw [linesOf, List.cons_append, programFrom, List.append_assoc,
      programFrom_linesOfAll body (⟨item, source, done⟩ :: loops) []]
    rfl

theorem programFrom_linesOfAll : (statements : List EncodeStatement) → (loops : List OpenLoop) →
    (done : List EncodeStatement) → (rest : List Line) →
    programFrom loops done (linesOfAll statements ++ rest) =
      programFrom loops (done ++ statements) rest
  | [], _, _, _ => by rw [linesOfAll, List.nil_append, List.append_nil]
  | statement :: others, loops, done, rest => by
    rw [linesOfAll, List.append_assoc, programFrom_linesOf statement,
      programFrom_linesOfAll others, List.append_assoc, List.singleton_append]

end

/-- Statements are read back from their lines at any indentation. -/
theorem program?_linesOf {statements : List EncodeStatement}
    (h : ∀ statement ∈ statements, statement.IsNamed) (level : Nat) :
    program? ((EncodeStatement.linesOf statements).map (Code.indent level)) = some statements := by
  have hlines : ((EncodeStatement.linesOf statements).map (Code.indent level)).map line? =
      (linesOfAll statements).map some := by
    simp only [List.map_map, Function.comp_def, line?_indent]
    exact map_line?_linesOf fun statement hstatement => map_line?_lines (h statement hstatement)
  have hprogram := programFrom_linesOfAll statements [] [] []
  rw [List.append_nil, List.nil_append] at hprogram
  rw [program?, mapM_eq_some_of_map_eq hlines]
  exact hprogram

end ArgumentText
end ContractAbi
