import ShaderInterface.ElementFormat
import ShaderInterface.Interface.Variable
import Std.Data.TreeMap.Basic

/-!
# Vertex attributes

A vertex attribute takes the location of its semantic, which a map gives for its name; an
attribute without a semantic is dropped. Where the host stores integers that are not normalized,
the stage takes an integer input under another name and converts it to the declared type.
-/

namespace ShaderInterface

/-- The semantics of attributes, by name. -/
abbrev SemanticMap := Std.TreeMap String Semantic

/-- The formats in which a host stores the elements of a vertex. -/
abbrev FormatMap := Semantic → Option ElementFormat

/-- An attribute at the location of its semantic. -/
structure Attribute extends PlacedVariable where
  semantic : Semantic
  /-- The integers from which the attribute is converted, if it does not arrive as floats. -/
  integers : Option Signedness
deriving DecidableEq, Repr

namespace Attribute

/-- The number of components that the last character of a type's name tells, or 1. -/
def componentCount (typeName : String) : Nat :=
  match typeName.toList.getLast? with
  | some c => if c.isDigit then c.toNat - '0'.toNat else 1
  | none => 1

/-- The integer type with a number of components. -/
def integerType (signedness : Signedness) (components : Nat) : String :=
  match signedness, components with
  | .signed, 1 => "int"
  | .unsigned, 1 => "uint"
  | .signed, n => "ivec" ++ toString n
  | .unsigned, n => "uvec" ++ toString n

/-- The type of the stage's input. -/
def inputType (a : Attribute) : String :=
  match a.integers with
  | some signedness => integerType signedness (componentCount a.typeName)
  | none => a.typeName

/-- The name of the stage's input. -/
def inputName (a : Attribute) : String :=
  match a.integers with
  | some _ => "_private_" ++ a.name
  | none => a.name

/-- The statement that converts an integer input to the attribute. -/
def conversion? (a : Attribute) : Option String :=
  a.integers.map fun _ =>
    a.typeName ++ " " ++ a.name ++ " = " ++ a.typeName ++ "(" ++ a.inputName ++ ");"

/-- The lines that declare the input and convert it. -/
def declaration (a : Attribute) : String :=
  locationLine a.location
      (Direction.into.word ++ " " ++ a.qualifierText ++ a.inputType ++ " " ++ a.inputName)
    ++ (match a.conversion? with | some statement => statement ++ "\n" | none => "")

/-- The lines that declare all of the given attributes. -/
def declarations (attributes : List Attribute) : String :=
  String.join (attributes.map declaration)

/-- Adds a declared attribute to those placed before it, unless it has no semantic. -/
def place (semantics : SemanticMap) (formats : FormatMap)
    (location : Semantic → Except UnsupportedSemantic Nat) (placed : Array Attribute)
    (text : String) : Except LinkError (Array Attribute) := do
  let v ← Variable.parse .vertex .attrib text
  match semantics[v.name]? with
  | none => return placed
  | some semantic =>
    match location semantic with
    | .error cause => throw (.unplaceableAttribute v.name cause)
    | .ok location =>
      match placed.find? (·.location == location) with
      | some first => throw (.locationCollision location first.semantic semantic)
      | none => return placed.push ⟨⟨v, location⟩, semantic, (formats semantic).bind (·.integers?)⟩

/-- Reads the attributes and gives them the locations of their semantics. -/
def assign (semantics : SemanticMap) (formats : FormatMap)
    (location : Semantic → Except UnsupportedSemantic Nat) (lines : List String) :
    Except LinkError (List Attribute) :=
  (lines.foldlM (place semantics formats location) #[]).map Array.toList

end Attribute

end ShaderInterface
