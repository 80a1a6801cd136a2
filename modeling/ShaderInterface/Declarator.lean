import ShaderInterface.Text.Blank
import ShaderInterface.Text.Identifier
import ShaderInterface.Text.Numeral

/-!
# Declarators of uniforms

A declarator is what stands between `uniform` and the semicolon: an optional precision, a type, a
name and an optional array size. It is read by words, so it does not matter which blanks part
them.
-/

namespace ShaderInterface

/-- The precision that a declaration asks for. -/
inductive Precision where
  | low
  | medium
  | high
deriving DecidableEq, Repr

namespace Precision

/-- The qualifier that stands in the source. -/
def word : Precision → String
  | low => "lowp"
  | medium => "mediump"
  | high => "highp"

/-- Reads a qualifier. -/
def ofWord? (w : String) : Option Precision :=
  if w = "lowp" then some low
  else if w = "mediump" then some medium
  else if w = "highp" then some high
  else none

/-- The word of a precision is read as that precision. -/
@[simp]
theorem ofWord?_word (p : Precision) : ofWord? p.word = some p := by
  cases p <;> decide

end Precision

/-- What is declared: a single variable, or an array of them. -/
structure Declarator where
  precision : Option Precision
  typeName : String
  name : String
  /-- The number of elements, or 0 for what is not an array. -/
  arraySize : Nat
deriving DecidableEq, Repr

namespace Declarator

/-- Why a text is not a declarator of one variable. -/
inductive Fault where
  /-- The text has not the form of a declarator. -/
  | malformed
  /-- The text declares several variables. -/
  | several
  /-- The array size is not a number that stands behind the name. -/
  | arraySize
deriving DecidableEq, Repr

/-- The greatest array size that can be written. -/
def maxArraySize : Nat := UInt32.size - 1

/-- The written form of a declarator. -/
def render (d : Declarator) : String :=
  (match d.precision with | some p => p.word ++ " " | none => "") ++ d.typeName ++ " " ++ d.name
    ++ (if d.arraySize = 0 then "" else "[" ++ toString d.arraySize ++ "]")

/-- Takes a precision from the front of the words of a declarator. -/
def takePrecision : List String → Option Precision × List String
  | [] => (none, [])
  | w :: ws =>
    match Precision.ofWord? w with
    | some p => (some p, ws)
    | none => (none, w :: ws)

/-- Divides a name from the array size in brackets behind it; without brackets the size is 0. -/
def splitArraySize (cs : List Char) : Except Fault (List Char × Nat) :=
  let name := cs.takeWhile (· != '[')
  match cs.dropWhile (· != '[') with
  | [] => .ok (name, 0)
  | _ :: inner =>
    if name.contains ']' || !inner.contains ']' then .error .malformed
    else if !(Text.trim ((inner.dropWhile (· != ']')).drop 1)).isEmpty then .error .malformed
    else
      match Text.readNumeral maxArraySize (Text.trim (inner.takeWhile (· != ']'))) with
      | some size => .ok (Text.trim name, size)
      | none => .error .arraySize

/-- Reads a declarator. -/
def parse (text : String) : Except Fault Declarator :=
  let (precision, rest) := takePrecision (Text.words text)
  match rest with
  | [] => .error .malformed
  | typeName :: rest =>
    if text.toList.contains ',' then .error .several
    else if typeName.toList.contains '[' then .error .arraySize
    else
      match splitArraySize (" ".intercalate rest).toList with
      | .error fault => .error fault
      | .ok (name, arraySize) =>
        if Text.isIdentifier (String.ofList name) then
          .ok ⟨precision, typeName, String.ofList name, arraySize⟩
        else .error .malformed

/-- The word `sampler` stands somewhere in a name. -/
def speaksOfSampler : List Char → Bool
  | [] => false
  | c :: cs => "sampler".toList.isPrefixOf (c :: cs) || speaksOfSampler cs

/-- The type is one of the texture types, whose names all speak of a sampler. -/
def isTexture (d : Declarator) : Bool :=
  speaksOfSampler d.typeName.toList

/-- The name of a texture type holds the word `sampler`. -/
theorem isTexture_iff (d : Declarator) :
    d.isTexture ↔ "sampler".toList <:+: d.typeName.toList := by
  rw [isTexture]
  induction d.typeName.toList with
  | nil => decide
  | cons c cs ih =>
    rw [speaksOfSampler, Bool.or_eq_true, List.isPrefixOf_iff_prefix, ih, List.infix_cons_iff]

/-- What was read has an identifier for its name. -/
theorem isIdentifier_of_parse {text : String} {d : Declarator} (h : parse text = .ok d) :
    Text.isIdentifier d.name := by
  unfold parse at h
  dsimp only at h
  repeat' split at h
  all_goals try contradiction
  next hid =>
    cases h
    exact hid

end Declarator

end ShaderInterface
