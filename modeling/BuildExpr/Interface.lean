import BuildExpr.Elements.Split
import BuildExpr.Path

/-!
# Lists as they are exported

A property that is exported is read in another place than the one it was written for. Two
operations say which part is meant for where: the content of `$<BUILD_INTERFACE:...>` is for the
build tree and that of `$<INSTALL_INTERFACE:...>` for an installation. Keeping one side puts the
content of the chosen operation in its place and drops the other operation; all other expressions
are left as they stand. Alternatively all expressions are removed.

All this works on the text and looks only for the places where these expressions begin and
end. An expression without an end is kept, with all that follows it.
-/

namespace BuildExpr

/-- One of the two places an exported property can be read in. -/
inductive Side where
  /-- The build tree. -/
  | build
  /-- An installation. -/
  | install
deriving DecidableEq, Repr

namespace Side

/-- The name of the operation whose content is for this side. -/
def selector : Side → Text
  | .build => "BUILD_INTERFACE"
  | .install => "INSTALL_INTERFACE"

/-- What starts content for this side. -/
def marker (side : Side) : Text := opening ++ side.selector ++ [':']

end Side

namespace Interface

/-- What is put before relative paths of an installation unless one asks for something else. -/
def defaultRoot : Text := "$\x7b_IMPORT_PREFIX\x7d/"

/-- The text without its expressions. -/
def removeExpressions (t : Text) : Text :=
  match _hopen : t.splitAtOpening with
  | none => t
  | some (before, after) =>
    match _hclose : after.splitAtClosing 0 with
    | none => t
    | some (_, rest) => before ++ removeExpressions rest
termination_by t.length
decreasing_by
  have hafter := Text.length_lt_of_splitAtOpening _hopen
  have hrest := Text.length_lt_of_splitAtClosing _hclose
  omega

/-- The side whose marker the text starts with, and the text after the marker. -/
def startsSide? (t : Text) : Option (Side × Text) :=
  if Side.build.marker.isPrefixOf t then some (.build, t.drop Side.build.marker.length)
  else if Side.install.marker.isPrefixOf t then some (.install, t.drop Side.install.marker.length)
  else none

/-- What follows the name of a side is no longer than the text. -/
theorem length_le_of_startsSide? {t body : Text} {side : Side}
    (h : startsSide? t = some (side, body)) : body.length ≤ t.length := by
  unfold startsSide? at h
  split at h
  · simp only [Option.some.injEq, Prod.mk.injEq] at h
    obtain ⟨-, rfl⟩ := h
    simp
  · split at h
    · simp only [Option.some.injEq, Prod.mk.injEq] at h
      obtain ⟨-, rfl⟩ := h
      simp
    · simp at h

/-- The text with every piece of content for a side replaced by what `keep` makes of it, from left
to right. What `keep` gives is not looked at again. -/
def select (keep : Side → Text → Text) (t : Text) : Text :=
  match t with
  | [] => []
  | c :: rest =>
    match _hside : startsSide? (c :: rest) with
    | none => c :: select keep rest
    | some (side, body) =>
      match _hclose : body.splitAtClosing 0 with
      | none => c :: rest
      | some (content, after) => keep side content ++ select keep after
termination_by t.length
decreasing_by
  · simp
  · have hbody := length_le_of_startsSide? _hside
    have hafter := Text.length_lt_of_splitAtClosing _hclose
    omega

/-- One element of installed content with `root` before it, unless it is absolute or starts with an
expression. -/
def resolveElement (root element : Text) : Text :=
  if !isFullPath element && element.firstExpression ≠ some 0 then root ++ element else element

/-- Installed content with its relative elements resolved against `root`. -/
def resolve (root content : Text) : Text :=
  Text.join [';'] ((Elements.split content).map (resolveElement root))

/-- How a property is exported. -/
inductive Mode where
  /-- Expressions are removed. -/
  | stripAll
  /-- The content for one side is kept. -/
  | keep (side : Side)
deriving DecidableEq, Repr

/-- What stands for content of a side when the content for another or the same side is kept;
relative elements of installed content are resolved if there is a root. -/
def kept (wanted : Side) (root : Option Text) (side : Side) (content : Text) : Text :=
  match wanted, side, root with
  | .build, .build, _ | .install, .install, none => content
  | .install, .install, some root => resolve root content
  | .build, .install, _ | .install, .build, _ => []

/-- A property as it is exported, without empty elements. With a root, relative elements kept
from installed content are resolved against it. -/
def exported (mode : Mode) (root : Option Text) (t : Text) : Text :=
  Elements.dropEmpty <|
    match mode with
    | .stripAll => removeExpressions t
    | .keep side => select (kept side root) t

end Interface

end BuildExpr
