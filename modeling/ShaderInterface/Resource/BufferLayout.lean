import ShaderInterface.Resource.HostTables
import ShaderInterface.Resource.RoundUp
import ShaderInterface.Uniform

/-!
# Layout of a uniform buffer

The value uniforms of a group share one buffer. They stand in it in order, each at the first
multiple of its alignment that the fields before it leave free; the size of the whole is a
multiple of 16.

Sizes and offsets are exact numbers here. A host has words of 32 bits for them (`WordLayout`), which
are the same numbers as long as these are below `2 ^ 32` (`WordLayout.toLayout_ofMembers`). One test
is about the words themselves: whether a type has a size (`Member.wordBytes`).
-/

namespace ShaderInterface

/-- A uniform with the number of 4-byte elements that one value of its type takes. The number is
that of the tables, exact where the host's word for its bytes may have wrapped around. -/
structure Member extends Declarator where
  elementCount : Nat
deriving DecidableEq, Repr

namespace Member

/-- The size of the elements of a buffer. -/
def elementBytes : Nat := 4

/-- The greatest alignment, that of a vector of four elements. -/
def vectorBytes : Nat := 16

/-- The bytes of a number of elements in a word of 32 bits, where the product wraps around. -/
def wordBytes (count : Nat) : UInt32 :=
  .ofNat count * .ofNat elementBytes

/-- The size of the member in bytes; an element of an array is rounded up to full vectors. -/
def byteSize (m : Member) : Nat :=
  let size := m.elementCount * elementBytes
  if m.arraySize = 0 then size else roundUp size vectorBytes

/-- The number of which the member's offset is a multiple. -/
def alignment (m : Member) : Nat :=
  if m.arraySize > 0 ∨ m.byteSize > 8 then vectorBytes else m.byteSize

/-- The member that a uniform becomes. A type without a size is refused, and so is one whose word
for it has wrapped around to 0, that is, one with a multiple of `2 ^ 30` elements. -/
def ofUniform (tables : HostTables) (u : Uniform) : Except LinkError Member :=
  match tables.elementCount? u.typeName with
  | none => .error (.unknownUniformType u.stage u.typeName u.text)
  | some count =>
    if u.arraySize > 1 then .error (.uniformArray u.stage u.text)
    else if wordBytes count = 0 then .error (.sizelessUniform u.name u.typeName)
    else .ok ⟨u.toDeclarator, count⟩

end Member

/-- A member at its place in a buffer. The offset is an exact number, also behind `2 ^ 32` bytes. -/
structure Field extends Member where
  byteOffset : Nat
deriving DecidableEq, Repr

namespace Field

/-- The offset behind the field. -/
def stop (f : Field) : Nat :=
  f.byteOffset + f.byteSize

end Field

/-- The fields of a uniform buffer, in order. -/
structure BufferLayout where
  fields : List Field
deriving DecidableEq, Repr

namespace BufferLayout

/-- Places a member behind the fields that are placed already. -/
def place (placed : Array Field) (m : Member) : Array Field :=
  placed.push ⟨m, roundUp ((placed.back?.map Field.stop).getD 0) m.alignment⟩

/-- The layout of a list of members. -/
def ofMembers (ms : List Member) : BufferLayout :=
  ⟨(ms.foldl place #[]).toList⟩

/-- The layout of a buffer for the given uniforms; without uniforms there is no buffer. -/
def ofUniforms (tables : HostTables) (us : List Uniform) :
    Except LinkError (Option BufferLayout) := do
  let ms ← us.mapM (Member.ofUniform tables)
  return if ms.isEmpty then none else some (ofMembers ms)

/-- The size of the buffer in bytes. -/
def totalBytes (layout : BufferLayout) : Nat :=
  roundUp ((layout.fields.getLast?.map Field.stop).getD 0) Member.vectorBytes

/-- The first field of the given name. -/
def field? (layout : BufferLayout) (name : String) : Option Field :=
  layout.fields.find? (·.name == name)

/-- The buffer has a field of the given name. -/
def contains (layout : BufferLayout) (name : String) : Bool :=
  (layout.field? name).isSome

/-- The line that declares a field. -/
def fieldLine (f : Field) : String :=
  "    " ++ f.render ++ ";\n"

/-- The block that declares the buffer at a slot of a group. -/
def declaration (group slot : Nat) (groupName : String) (layout : BufferLayout) : String :=
  "layout(set = " ++ toString group ++ ", binding = " ++ toString slot ++ ", std140) uniform ub_"
    ++ groupName ++ " \x7b\n" ++ String.join (layout.fields.map fieldLine) ++ "\x7d;\n"

end BufferLayout

end ShaderInterface
