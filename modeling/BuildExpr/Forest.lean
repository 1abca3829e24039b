import BuildExpr.Text.Span
import BuildExpr.Delimiter

/-!
# Forests

What a text says: literal text in between operations, in order. An operation has a name and
parameters, each of them a forest of its own, and remembers the span it was read from. A name that
is plain text is *literal*; one with an operation in it is *computed* at evaluation.

`render` writes a forest as text again. `push` and `extend` build forests in normal form: no text
node is empty and no two text nodes are next to each other.
-/

namespace BuildExpr

/-- A node of a forest. -/
inductive Node where
  /-- Literal text. -/
  | text (value : Text)
  /-- An operation, written `$<name:parameter,...,parameter>`; without parameters, `$<name>`. -/
  | operation (name : List Node) (parameters : List (List Node)) (span : Span)
deriving Repr

/-- A sequence of nodes. -/
abbrev Forest := List Node

namespace Forest

/-! ## Measures and writing -/

mutual

/-- The number of operations in a node, inner ones included. -/
def nodeOperations : Node → Nat
  | .text _ => 0
  | .operation name parameters _ =>
    1 + operationCount name + partsOperations parameters

/-- The number of operations in a forest, inner ones included. -/
def operationCount : Forest → Nat
  | [] => 0
  | node :: rest => nodeOperations node + operationCount rest

/-- The number of operations in some parameters. -/
def partsOperations : List Forest → Nat
  | [] => 0
  | part :: rest => operationCount part + partsOperations rest

end

mutual

/-- How deeply operations are nested in a node. -/
def nodeNesting : Node → Nat
  | .text _ => 0
  | .operation name parameters _ => 1 + max (nesting name) (partsNesting parameters)

/-- How deeply operations are nested in a forest. -/
def nesting : Forest → Nat
  | [] => 0
  | node :: rest => max (nodeNesting node) (nesting rest)

/-- How deeply operations are nested in some parameters. -/
def partsNesting : List Forest → Nat
  | [] => 0
  | part :: rest => max (nesting part) (partsNesting rest)

end

mutual

/-- A node as text. -/
def renderNode : Node → Text
  | .text value => value
  | .operation name parameters _ => opening ++ render name ++ renderParts ':' parameters ++ ['>']

/-- A forest as text. -/
def render : Forest → Text
  | [] => []
  | node :: rest => renderNode node ++ render rest

/-- Parameters as text, the first after `mark` and each further one after a comma. -/
def renderParts : Char → List Forest → Text
  | _, [] => []
  | mark, part :: rest => mark :: render part ++ renderParts ',' rest

end

/-- The forest without nodes is written as nothing. -/
@[simp] theorem render_nil : render [] = [] := by simp [render]

/-- A forest is written node after node. -/
@[simp] theorem render_cons (node : Node) (rest : Forest) :
    render (node :: rest) = renderNode node ++ render rest := by simp [render]

/-- A text node is written as its value. -/
@[simp] theorem renderNode_text (value : Text) : renderNode (.text value) = value := by
  simp [renderNode]

/-- Two forests in a row are written one after the other. -/
@[simp] theorem render_append (a b : Forest) : render (a ++ b) = render a ++ render b := by
  induction a with
  | nil => simp
  | cons node a ih => simp [ih]

/-- The spelling of a name without operations. -/
def literal? : Forest → Option Text
  | [] => some []
  | [.text value] => some value
  | _ => none

/-! ## Building -/

/-- The forest with a node at its end. Empty text adds nothing, and text after text is joined to
it. -/
def push : Forest → Node → Forest
  | [], .text [] => []
  | [], node => [node]
  | [.text before], .text value => [.text (before ++ value)]
  | first :: rest, node => first :: push rest node

/-- The forest with some nodes at its end, one after the other. -/
def extend (forest nodes : Forest) : Forest := nodes.foldl push forest

/-- A node pushed onto a forest is written after it, whether or not two texts become one. -/
@[simp] theorem render_push (forest : Forest) (node : Node) :
    render (push forest node) = render forest ++ renderNode node := by
  fun_induction push forest node <;> simp_all

/-- So are the nodes of another forest. -/
@[simp] theorem render_extend (forest nodes : Forest) :
    render (extend forest nodes) = render forest ++ render nodes := by
  induction nodes generalizing forest with
  | nil => simp [extend]
  | cons node nodes ih =>
    have := ih (push forest node)
    simp only [extend, List.foldl_cons] at this ⊢
    simp [this]

end Forest

end BuildExpr
