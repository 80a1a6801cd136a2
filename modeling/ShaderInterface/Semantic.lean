import ShaderInterface.Text.Numeral

/-!
# Vertex semantics

A semantic says what a vertex attribute means, whatever a shader calls it. Semantics are written
in upper case; two of them carry an index, which the written form admits only up to a bound. The
standard locations are the fixed numbers at which hosts bind their vertex buffers.
-/

namespace ShaderInterface

/-- The meaning of a vertex attribute. Generic attributes share the numbers of the standard
locations with the built-in semantics. -/
inductive Semantic where
  | position
  | normal
  | tangent
  | blendWeight
  | blendIndices
  | color
  | texCoord (index : Nat)
  | generic (index : Nat)
deriving DecidableEq, Repr

/-- A text that names no semantic. -/
structure UnknownSemantic where
  text : String
deriving DecidableEq, Repr

namespace UnknownSemantic

/-- The message for a text that names no semantic. -/
def message (e : UnknownSemantic) : String :=
  "unknown vertex semantic `" ++ e.text ++ "`"

end UnknownSemantic

/-- A semantic for which a host has no location. -/
structure UnsupportedSemantic where
  semantic : Semantic
deriving DecidableEq, Repr

namespace Semantic

/-- The greatest index of a texture coordinate that can be written. -/
def maxTexCoord : Nat := 7

/-- The greatest index of a generic attribute that can be written. -/
def maxGeneric : Nat := 15

/-- The number of locations that a vertex stage offers at least. -/
def locationCount : Nat := 16

/-- The written form of a semantic. -/
def name : Semantic → String
  | position => "POSITION"
  | normal => "NORMAL"
  | tangent => "TANGENT"
  | blendWeight => "BLENDWEIGHT"
  | blendIndices => "BLENDINDICES"
  | color => "COLOR"
  | texCoord index => "TEXCOORD" ++ toString index
  | generic index => "ATTR" ++ toString index

/-- The semantics without an index. -/
def plain : List Semantic :=
  [position, normal, tangent, blendWeight, blendIndices, color]

/-- The index written behind `stem` in `cs`, if it is at most `max`. -/
def indexBehind (stem : List Char) (max : Nat) (cs : List Char) : Option Nat :=
  if stem <+: cs then Text.readNumeral max (cs.drop stem.length) else none

/-- Reads the written form of a semantic. -/
def ofName (text : String) : Except UnknownSemantic Semantic :=
  match plain.find? (·.name == text) with
  | some s => .ok s
  | none =>
    match indexBehind "TEXCOORD".toList maxTexCoord text.toList with
    | some index => .ok (texCoord index)
    | none =>
      match indexBehind "ATTR".toList maxGeneric text.toList with
      | some index => .ok (generic index)
      | none => .error ⟨text⟩

/-- The location at which hosts bind a semantic. -/
def standardLocation : Semantic → Except UnsupportedSemantic Nat
  | position => .ok 0
  | normal => .ok 1
  | blendWeight => .ok 2
  | blendIndices => .ok 3
  | color => .ok 4
  | tangent => .ok 13
  | texCoord index =>
    if index ≤ maxTexCoord then .ok (5 + index) else .error ⟨texCoord index⟩
  | generic index =>
    if index < locationCount then .ok index else .error ⟨generic index⟩

/-- A standard location is one of those that a vertex stage offers. -/
theorem standardLocation_lt {s : Semantic} {location : Nat}
    (h : s.standardLocation = .ok location) : location < locationCount := by
  unfold standardLocation at h
  split at h
  all_goals (try split at h)
  all_goals simp_all [locationCount, maxTexCoord]
  all_goals omega

end Semantic

namespace UnsupportedSemantic

/-- The message for a semantic without a location. -/
def message (e : UnsupportedSemantic) : String :=
  "unsupported vertex semantic " ++ e.semantic.name ++ " for location mapping"

end UnsupportedSemantic

end ShaderInterface
