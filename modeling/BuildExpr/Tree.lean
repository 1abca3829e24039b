import BuildExpr.Forest.Reading

/-!
# Trees

A tree is a text made ready for evaluation. A text without `$<` stands for itself; any other is
read into a forest, unless it nests deeper than a limit allows: then the tree only remembers how
deep it nests, and evaluating it fails.
-/

namespace BuildExpr

/-- The nesting allowed unless one asks for another limit. -/
def defaultLimit : Nat := 256

/-- A text made ready for evaluation. -/
inductive Tree where
  /-- A text without `$<`. -/
  | plain (source : Text)
  /-- A text with the forest it says. -/
  | forest (source : Text) (nodes : Forest)
  /-- A text that nests to a depth beyond the limit. -/
  | tooDeep (source : Text) (depth limit : Nat)
deriving Repr

namespace Tree

/-- The tree of a text under a nesting limit. -/
def parse (limit : Nat) (source : Text) : Tree :=
  let tokens := Token.scan source
  if Token.anyOpening tokens then
    let depth := Token.deepest tokens
    if limit < depth then .tooDeep source depth limit
    else .forest source (Forest.ofTokens tokens)
  else .plain source

/-- The text the tree was read from. -/
def source : Tree → Text
  | .plain source | .forest source _ | .tooDeep source _ _ => source

/-- The forest of the tree; a text that is not read is a single text node. -/
def nodes : Tree → Forest
  | .forest _ nodes => nodes
  | .plain source | .tooDeep source _ _ => Forest.push [] (.text source)

/-- Whether the text has an expression opening in it. Otherwise its value is the text itself. -/
def needsEvaluation : Tree → Bool
  | .plain _ => false
  | .forest _ _ | .tooDeep _ _ _ => true

/-- The depth and the limit of a text that nests too deep. -/
def overflow? : Tree → Option (Nat × Nat)
  | .tooDeep _ depth limit => some (depth, limit)
  | .plain _ | .forest _ _ => none

/-- The number of operations, inner ones included. -/
def operationCount (t : Tree) : Nat := Forest.operationCount t.nodes

end Tree

end BuildExpr
