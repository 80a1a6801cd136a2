import ShaderInterface.Resource.Texture
import ShaderInterface.Semantic

/-!
# Tables shared with the host

What linker and host agree on: the sizes of the types in a uniform buffer, the dimensions of
texture types, the texture types that compare depths, and the locations of the vertex semantics.
An entry that is set later hides an earlier one for the same type.
-/

namespace ShaderInterface

/-- The tables on which linker and host agree. -/
structure HostTables where
  /-- The number of 4-byte elements that a type takes in a uniform buffer. A host sets it to a word
  of 32 bits, and what is computed with it is exact as long as it fits into such a word. -/
  elementCounts : List (String × Nat)
  dimensions : List (String × TextureDimension)
  shadowSamplers : List String
  location : Semantic → Except UnsupportedSemantic Nat

namespace HostTables

/-- The sizes of the scalar, vector and matrix types; a matrix has a four-element slot for each
column. -/
def standardElementCounts : List (String × Nat) :=
  [("bool", 1), ("int", 1), ("uint", 1), ("float", 1),
    ("vec2", 2), ("ivec2", 2), ("uvec2", 2), ("bvec2", 2),
    ("vec3", 3), ("ivec3", 3), ("uvec3", 3), ("bvec3", 3),
    ("vec4", 4), ("ivec4", 4), ("uvec4", 4), ("bvec4", 4),
    ("mat2", 8), ("mat3", 12), ("mat4", 16)]

/-- The dimensions of the texture types. -/
def standardDimensions : List (String × TextureDimension) :=
  [("sampler2D", .d2), ("sampler2DShadow", .d2), ("isampler2D", .d2), ("usampler2D", .d2),
    ("sampler3D", .d3), ("isampler3D", .d3), ("usampler3D", .d3),
    ("samplerCube", .cube), ("samplerCubeShadow", .cube),
    ("sampler2DArray", .d2Array), ("sampler2DArrayShadow", .d2Array),
    ("isampler2DArray", .d2Array), ("usampler2DArray", .d2Array),
    ("samplerCubeArray", .cubeArray), ("samplerCubeArrayShadow", .cubeArray)]

/-- The texture types that compare depths. -/
def standardShadowSamplers : List String :=
  ["sampler2DShadow", "samplerCubeShadow", "sampler2DArrayShadow", "samplerCubeArrayShadow"]

/-- The tables that hosts agree on unless they say otherwise. -/
def standard : HostTables where
  elementCounts := standardElementCounts
  dimensions := standardDimensions
  shadowSamplers := standardShadowSamplers
  location := Semantic.standardLocation

/-- The number of 4-byte elements of a type. -/
def elementCount? (tables : HostTables) (typeName : String) : Option Nat :=
  tables.elementCounts.lookup typeName

/-- The dimension of a texture type. -/
def dimension? (tables : HostTables) (typeName : String) : Option TextureDimension :=
  tables.dimensions.lookup typeName

/-- The texture type compares depths. -/
def isShadowSampler (tables : HostTables) (typeName : String) : Bool :=
  tables.shadowSamplers.contains typeName

/-- Sets the number of elements of a type. -/
def setElementCount (tables : HostTables) (typeName : String) (count : Nat) : HostTables :=
  { tables with elementCounts := (typeName, count) :: tables.elementCounts }

/-- Sets the dimension of a texture type. -/
def setDimension (tables : HostTables) (typeName : String) (dimension : TextureDimension) :
    HostTables :=
  { tables with dimensions := (typeName, dimension) :: tables.dimensions }

/-- Makes a texture type one that compares depths. -/
def addShadowSampler (tables : HostTables) (typeName : String) : HostTables :=
  { tables with shadowSamplers := typeName :: tables.shadowSamplers }

/-- Setting the size of a type changes the size of that type only. -/
@[simp]
theorem elementCount?_setElementCount (tables : HostTables) (t u : String) (count : Nat) :
    (tables.setElementCount t count).elementCount? u =
      if u = t then some count else tables.elementCount? u := by
  by_cases h : u = t
  · simp [setElementCount, elementCount?, h]
  · simp [setElementCount, elementCount?, List.lookup_cons, h, beq_false_of_ne h]

/-- Setting the dimension of a type changes the dimension of that type only. -/
@[simp]
theorem dimension?_setDimension (tables : HostTables) (t u : String) (d : TextureDimension) :
    (tables.setDimension t d).dimension? u = if u = t then some d else tables.dimension? u := by
  by_cases h : u = t
  · simp [setDimension, dimension?, h]
  · simp [setDimension, dimension?, List.lookup_cons, h, beq_false_of_ne h]

end HostTables

end ShaderInterface
