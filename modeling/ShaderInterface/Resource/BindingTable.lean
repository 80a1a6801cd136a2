import ShaderInterface.Resource.HostTables
import ShaderInterface.Uniform

/-!
# Bindings of a group

The resources of a bind group have numbered slots: a uniform buffer takes slot 0 if there is one,
and each texture takes the next two slots, for itself and for its sampler.
-/

namespace ShaderInterface

/-- A uniform buffer bound to a slot. -/
structure BufferBinding where
  name : String
  slot : Nat
  visibility : Visibility
  byteSize : Nat
deriving DecidableEq, Repr

/-- The resources of one bind group. -/
structure BindingTable where
  group : Nat
  buffer : Option BufferBinding
  textures : List Texture
deriving DecidableEq, Repr

namespace BindingTable

/-- The slot of a uniform buffer. -/
def bufferSlot : Nat := 0

/-- A group without resources. -/
def empty (group : Nat) : BindingTable := ⟨group, none, []⟩

/-- The group has no resources. -/
def isEmpty (table : BindingTable) : Bool :=
  table.buffer.isNone && table.textures.isEmpty

/-- The first texture of the given name. -/
def texture? (table : BindingTable) (name : String) : Option Texture :=
  table.textures.find? (·.name == name)

/-- The first slot that textures can take. -/
def firstTextureSlot (table : BindingTable) : Nat :=
  match table.buffer with
  | some _ => bufferSlot + 1
  | none => bufferSlot

/-- The lines that declare the textures of the group and their samplers. -/
def textureDeclarations (table : BindingTable) : String :=
  String.join (table.textures.map (Texture.declaration table.group))

end BindingTable

namespace Texture

/-- What sampling a texture uniform yields: a depth for a type that compares depths, else integers
for an integer type, else floats. -/
def sampleTypeOf (tables : HostTables) (sampling : HighpSampling) (d : Declarator) : SampleType :=
  if tables.isShadowSampler d.typeName then .depth
  else if "isampler".toList <+: d.typeName.toList then .sint
  else if "usampler".toList <+: d.typeName.toList then .uint
  else if d.precision = some .high ∧ sampling = .unfilterable then .unfilterableFloat
  else .float

/-- Binds a texture uniform to two slots, of which `slot` is the first. -/
def ofUniform (tables : HostTables) (sampling : HighpSampling) (slot : Nat) (u : Uniform) :
    Except LinkError Texture :=
  if u.arraySize > 1 then .error (.uniformArray u.stage u.text)
  else
    match tables.dimension? u.typeName with
    | none => .error (.unknownUniformType u.stage u.typeName u.text)
    | some dimension =>
      .ok ⟨u.name, sampleTypeOf tables sampling u.toDeclarator, dimension, .both, slot, slot + 1⟩

/-- Binds texture uniforms to the slots from `first` on, in order. -/
def assign (tables : HostTables) (sampling : HighpSampling) (first : Nat) (us : List Uniform) :
    Except LinkError (List Texture) :=
  us.zipIdx.mapM fun (u, k) => ofUniform tables sampling (first + 2 * k) u

end Texture

end ShaderInterface
