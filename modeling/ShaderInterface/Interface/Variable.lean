import ShaderInterface.LinkError
import ShaderInterface.Text.Blank
import ShaderInterface.Text.Identifier

/-!
# Variables of a stage's interface

Attributes, varyings and outputs are declared alike: any number of qualifiers, then a type and a
name. A variable that has been given a location is declared anew with it, in one of two
directions.
-/

namespace ShaderInterface

/-- A variable as it is declared. -/
structure Variable where
  qualifiers : List String
  typeName : String
  name : String
deriving DecidableEq, Repr

namespace Variable

/-- The words that may stand in front of the type. -/
def qualifierWords : List String :=
  ["lowp", "mediump", "highp", "flat", "smooth", "noperspective", "centroid"]

/-- A word that may stand in front of the type. -/
def isQualifier (w : String) : Bool :=
  qualifierWords.contains w

/-- Reads a variable. All leading qualifiers are taken, so none is left to be the type. -/
def parse? (text : String) : Option Variable :=
  let ws := Text.words text
  match ws.dropWhile isQualifier with
  | [typeName, name] =>
    if Text.isIdentifier typeName && Text.isIdentifier name then
      some ⟨ws.takeWhile isQualifier, typeName, name⟩
    else none
  | _ => none

/-- Reads a variable declared with a keyword in the source of a stage. -/
def parse (stage : Stage) (keyword : Source.Keyword) (text : String) : Except LinkError Variable :=
  match parse? text with
  | some v => .ok v
  | none => .error (.invalidDeclaration stage keyword text)

/-- The qualifiers as they stand in front of a declaration, each with a space behind it. -/
def qualifierText (v : Variable) : String :=
  String.join (v.qualifiers.map (· ++ " "))

end Variable

/-- Which way a variable passes through the interface of its stage. -/
inductive Direction where
  | into
  | out
deriving DecidableEq, Repr

namespace Direction

/-- The word that stands in a declaration. -/
def word : Direction → String
  | into => "in"
  | out => "out"

end Direction

/-- The line that gives a location to what `declared` declares. -/
def locationLine (location : Nat) (declared : String) : String :=
  "layout(location = " ++ toString location ++ ") " ++ declared ++ ";\n"

/-- A variable at a location. -/
structure PlacedVariable extends Variable where
  location : Nat
deriving DecidableEq, Repr

namespace PlacedVariable

/-- The line that declares the variable at its location. -/
def declaration (direction : Direction) (v : PlacedVariable) : String :=
  locationLine v.location
    (v.qualifierText ++ direction.word ++ " " ++ v.typeName ++ " " ++ v.name)

/-- The lines that declare all of the given variables. -/
def declarations (direction : Direction) (placed : List PlacedVariable) : String :=
  String.join (placed.map (declaration direction))

end PlacedVariable

end ShaderInterface
