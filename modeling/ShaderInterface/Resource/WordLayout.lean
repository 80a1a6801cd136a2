import ShaderInterface.Resource.BufferLayout

/-!
# Layout of a uniform buffer in words

A host counts the bytes of a buffer in words of 32 bits, whose sums and products wrap around.
Members are placed by the same rules as in a `BufferLayout`, with words in the place of exact
numbers.
-/

namespace ShaderInterface

/-- A member at its place in a buffer, with words for the number of its elements, for its size and
for its offset in bytes. -/
structure WordField extends Declarator where
  elementCount : UInt32
  byteSize : UInt32
  byteOffset : UInt32
deriving DecidableEq, Repr

/-- The fields of a uniform buffer, in order, and its size in bytes. -/
structure WordLayout where
  fields : List WordField
  totalBytes : UInt32
deriving DecidableEq, Repr

/-- The least multiple of `align` that is not below `n`, as a word. The quotient is rounded up,
which cannot wrap around as the sum of `n` and `align` could; the product can. -/
def roundUpWord (n align : UInt32) : UInt32 :=
  (if n % align = 0 then n / align else n / align + 1) * align

namespace WordField

/-- The greatest alignment, that of a vector of four elements. -/
def vectorBytes : UInt32 := .ofNat Member.vectorBytes

/-- The number of which the field's offset is a multiple. -/
def alignment (f : WordField) : UInt32 :=
  if f.arraySize > 0 ∨ f.byteSize > 8 then vectorBytes else f.byteSize

/-- The offset behind the field. -/
def stop (f : WordField) : UInt32 :=
  f.byteOffset + f.byteSize

/-- The size of a member in bytes; an element of an array is rounded up to full vectors. -/
def memberBytes (m : Member) : UInt32 :=
  if m.arraySize > 0 then roundUpWord (Member.wordBytes m.elementCount) vectorBytes
  else Member.wordBytes m.elementCount

/-- The field of a member behind the byte `start`. -/
def place (start : UInt32) (m : Member) : WordField :=
  let field : WordField := ⟨m.toDeclarator, .ofNat m.elementCount, memberBytes m, 0⟩
  { field with byteOffset := roundUpWord start field.alignment }

/-- The field with its words read as numbers. -/
def toField (f : WordField) : Field :=
  ⟨⟨f.toDeclarator, f.elementCount.toNat⟩, f.byteOffset.toNat⟩

end WordField

namespace WordLayout

/-- Places a member behind the fields that are placed already, of which the last ends at the word
that goes with them. -/
def step (placed : Array WordField × UInt32) (m : Member) : Array WordField × UInt32 :=
  let field := WordField.place placed.2 m
  (placed.1.push field, field.stop)

/-- The layout of a list of members. -/
def ofMembers (ms : List Member) : WordLayout :=
  let placed := ms.foldl step (#[], 0)
  ⟨placed.1.toList, roundUpWord placed.2 WordField.vectorBytes⟩

/-- The layout of a buffer for the given uniforms; without uniforms there is no buffer. -/
def ofUniforms (tables : HostTables) (us : List Uniform) :
    Except LinkError (Option WordLayout) := do
  let ms ← us.mapM (Member.ofUniform tables)
  return if ms.isEmpty then none else some (ofMembers ms)

/-- The layout with its words read as numbers. -/
def toLayout (layout : WordLayout) : BufferLayout :=
  ⟨layout.fields.map WordField.toField⟩

/-- The first field of the given name. -/
def field? (layout : WordLayout) (name : String) : Option WordField :=
  layout.fields.find? (·.name == name)

/-- The block that declares the buffer at a slot of a group, which has no numbers of fields. -/
def declaration (group slot : Nat) (groupName : String) (layout : WordLayout) : String :=
  layout.toLayout.declaration group slot groupName

end WordLayout

end ShaderInterface
