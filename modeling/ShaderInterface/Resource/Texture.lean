import ShaderInterface.Stage

/-!
# Textures and samplers

What a texture yields when it is sampled, its dimension, and how a texture and its sampler are
declared apart.
-/

namespace ShaderInterface

/-- What sampling a texture yields. -/
inductive SampleType where
  | float
  | unfilterableFloat
  | depth
  | sint
  | uint
deriving DecidableEq, Repr

namespace SampleType

/-- What stands in front of the name of a texture type. -/
def textureStem : SampleType → String
  | sint => "i"
  | uint => "u"
  | float | unfilterableFloat | depth => ""

/-- The type of the sampler that goes with a texture. -/
def samplerType : SampleType → String
  | depth => "samplerShadow"
  | float | unfilterableFloat | sint | uint => "sampler"

end SampleType

/-- The arrangement of a texture's texels. -/
inductive TextureDimension where
  | d2
  | d3
  | cube
  | d2Array
  | cubeArray
deriving DecidableEq, Repr

namespace TextureDimension

/-- The name of the texture type for floats. -/
def typeName : TextureDimension → String
  | d2 => "texture2D"
  | d3 => "texture3D"
  | cube => "textureCube"
  | d2Array => "texture2DArray"
  | cubeArray => "textureCubeArray"

end TextureDimension

/-- Whether textures of high precision are sampled with a filter. -/
inductive HighpSampling where
  | unfilterable
  | filterable
deriving DecidableEq, Repr

/-- A texture with its sampler, bound to two slots of a group. Slots are exact numbers; a host
counts them in words of 32 bits, which come to the same below `2 ^ 32`
(`Texture.BoundFrom.map_toNat_slotWords`). -/
structure Texture where
  name : String
  sampleType : SampleType
  dimension : TextureDimension
  visibility : Visibility
  textureSlot : Nat
  samplerSlot : Nat
deriving DecidableEq, Repr

namespace Texture

/-- The name under which the sampler is declared. -/
def samplerName (t : Texture) : String :=
  t.name ++ "_sampler"

/-- The line that declares a resource of a given type at a slot of a group. -/
def resourceLine (group slot : Nat) (typeName name : String) : String :=
  "layout(set = " ++ toString group ++ ", binding = " ++ toString slot ++ ") uniform " ++ typeName
    ++ " " ++ name ++ ";\n"

/-- The lines that declare the texture and its sampler. -/
def declaration (group : Nat) (t : Texture) : String :=
  resourceLine group t.textureSlot (t.sampleType.textureStem ++ t.dimension.typeName) t.name
    ++ resourceLine group t.samplerSlot t.sampleType.samplerType t.samplerName

end Texture

end ShaderInterface
