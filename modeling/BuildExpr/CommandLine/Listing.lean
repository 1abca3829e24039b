import BuildExpr.CommandLine.Report
import BuildExpr.Text.Quoted
import BuildExpr.Tree

/-!
# Listings

The output of the commands that show how a text is read: its tokens one on a line, or its forest
with each level set in from the one around it.
-/

namespace BuildExpr.CommandLine

/-- The line of a token. -/
def tokenLine (token : Token) : Text :=
  List.flatten ["  ", token.kind.name, " @ ", token.span.toText, " ", Text.Quoted.encode token.text]

/-- The tokens of a text. -/
def listTokens (input : Text) : Report :=
  let tokens := Token.scan input
  .ofLines ((Text.ofNat tokens.length ++ " tokens") :: tokens.map tokenLine)

/-- A line set in by a number of levels. -/
def setIn (level : Nat) (line : Text) : Text := List.replicate (2 * level) ' ' ++ line

mutual

/-- The lines of a node at a level. -/
def nodeLines (level : Nat) : Node → List Text
  | .text value => [setIn level ("text " ++ Text.Quoted.encode value)]
  | .operation name parameters span =>
    (match Forest.literal? name with
      | some literal => [setIn level (List.flatten ["op ", literal, " @ ", span.toText])]
      | none =>
        setIn level (List.flatten ["op <computed> @ ", span.toText]) ::
          setIn (level + 1) "name" :: forestLines (level + 2) name) ++
      parameterLines (level + 1) 0 parameters

/-- The lines of a forest at a level. -/
def forestLines (level : Nat) : Forest → List Text
  | [] => []
  | node :: rest => nodeLines level node ++ forestLines level rest

/-- The lines of parameters at a level, counted from `index`. -/
def parameterLines (level index : Nat) : List Forest → List Text
  | [] => []
  | parameter :: rest =>
    setIn level ("param " ++ Text.ofNat index) ::
      (forestLines (level + 1) parameter ++ parameterLines level (index + 1) rest)

end

/-- The forest of a text read under a limit. -/
def listForest (input : Text) (limit : Nat) : Report :=
  let tree := Tree.parse limit input
  match tree.overflow? with
  | some (depth, limit) =>
    .failure [List.flatten ["expression nests ", Text.ofNat depth,
      " levels deep, more than the limit of ", Text.ofNat limit]]
  | none =>
    .ofLines (List.flatten [Text.ofNat tree.nodes.length, " nodes, ",
      Text.ofNat tree.operationCount, " operations"] :: forestLines 1 tree.nodes)

end BuildExpr.CommandLine
