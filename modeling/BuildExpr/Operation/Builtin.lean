import BuildExpr.Operation.Wording
import BuildExpr.Operation.Surroundings
import BuildExpr.Operation.Target
import BuildExpr.Operation.Features
import BuildExpr.Table

/-!
# Built-in operations

The operations that every engine has. They are found through a table of names; that each stands there
under its own name, and under no other, is a fact about the table (`names_eq`).
-/

namespace BuildExpr

/-- The operations that every engine has. -/
inductive Builtin where
  | zero | one | bool | and | or | not | choice
  | stringEqual | integerEqual | inList
  | angle | comma | semicolon | lowerCase | upperCase | join | removeDuplicates
  | config | compileLanguage
  | targetProperty | targetExists | targetNameIfExists | targetObjects
  | buildInterface | installInterface
  | compileFeatures
deriving DecidableEq, Repr

namespace Builtin

/-- All of them, in the order in which they are listed. -/
def all : List Builtin :=
  [zero, one, bool, and, or, not, choice, stringEqual, integerEqual, inList, angle, comma,
    semicolon, lowerCase, upperCase, join, removeDuplicates, config, compileLanguage,
    targetProperty, targetExists, targetNameIfExists, targetObjects, buildInterface,
    installInterface, compileFeatures]

/-- What a built-in operation does. -/
def operation : Builtin → Operation
  | zero => .zero
  | one => .one
  | bool => .bool
  | and => .and
  | or => .or
  | not => .not
  | choice => .choice
  | stringEqual => .stringEqual
  | integerEqual => .integerEqual
  | inList => .inList
  | angle => .angle
  | comma => .comma
  | semicolon => .semicolon
  | lowerCase => .lowerCase
  | upperCase => .upperCase
  | join => .join
  | removeDuplicates => .removeDuplicates
  | config => .config
  | compileLanguage => .compileLanguage
  | targetProperty => .targetProperty
  | targetExists => .targetExists
  | targetNameIfExists => .targetNameIfExists
  | targetObjects => .targetObjects
  | buildInterface => .buildInterface
  | installInterface => .installInterface
  | compileFeatures => .compileFeatures

/-- The name it is called by. -/
def name (b : Builtin) : Text := b.operation.name

/-- The names that are built in, with what each of them calls. -/
def names : List (Text × Builtin) :=
  [("0", zero), ("1", one), ("BOOL", bool), ("AND", and), ("OR", or), ("NOT", not), ("IF", choice),
    ("STREQUAL", stringEqual), ("EQUAL", integerEqual), ("IN_LIST", inList), ("ANGLE-R", angle),
    ("COMMA", comma), ("SEMICOLON", semicolon), ("LOWER_CASE", lowerCase),
    ("UPPER_CASE", upperCase), ("JOIN", join), ("REMOVE_DUPLICATES", removeDuplicates),
    ("CONFIG", config), ("COMPILE_LANGUAGE", compileLanguage),
    ("TARGET_PROPERTY", targetProperty), ("TARGET_EXISTS", targetExists),
    ("TARGET_NAME_IF_EXISTS", targetNameIfExists), ("TARGET_OBJECTS", targetObjects),
    ("BUILD_INTERFACE", buildInterface), ("INSTALL_INTERFACE", installInterface),
    ("COMPILE_FEATURES", compileFeatures)]

/-- The built-in operation of a name. -/
def ofName? (n : Text) : Option Builtin := Table.lookup n names

/-- None is left out of the list. -/
theorem mem_all (b : Builtin) : b ∈ all := by cases b <;> decide

/-- The table of names has each operation once, under the name that the operation gives itself. -/
theorem names_eq : names = all.map fun b => (b.name, b) := by decide

/-- Each is found by its name. -/
theorem ofName?_name (b : Builtin) : ofName? b.name = some b := by cases b <;> decide

/-- What is found by a name has that name. -/
theorem name_of_ofName? {n : Text} {b : Builtin} (h : ofName? n = some b) : b.name = n := by
  have hmem : (n, b) ∈ names := Table.mem_of_lookup h
  rw [names_eq] at hmem
  obtain ⟨found, -, heq⟩ := List.mem_map.1 hmem
  cases heq
  rfl

end Builtin

end BuildExpr
