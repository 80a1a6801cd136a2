import ShaderInterface.Source.Outline

/-!
# Declarations of a source and their places

Where the declarations of a source stand, counted in bytes of UTF-8.
-/

namespace ShaderInterface.Source

/-- The number of bytes of a text in UTF-8. -/
def byteCount (cs : List Char) : Nat :=
  (String.ofList cs).utf8ByteSize

/-- The bytes of two texts in a row add up. -/
@[simp]
theorem byteCount_append (cs ds : List Char) :
    byteCount (cs ++ ds) = byteCount cs + byteCount ds := by
  simp [byteCount, String.ofList_append, String.utf8ByteSize_append]

/-- A declaration and the bytes that are cut out for it, from `start` on and before `stop`. -/
structure Declaration where
  keyword : Keyword
  payload : String
  start : Nat
  stop : Nat
deriving DecidableEq, Repr

namespace Declaration

/-- The declaration that is cut out from the byte `start` on. -/
def ofCut (start : Nat) (cut : Cut) : Declaration :=
  ⟨cut.keyword, cut.payload, start, start + byteCount cut.text⟩

/-- Adds the declaration of a cut to those placed before it, and counts the bytes passed on to the
end of the gap behind it. -/
def place (placed : Array Declaration × Nat) (next : Cut × List Char) : Array Declaration × Nat :=
  let declaration := ofCut placed.2 next.1
  (placed.1.push declaration, declaration.stop + byteCount next.2)

/-- The declarations of an outline, in order. -/
def ofOutline (outline : Outline) : List Declaration :=
  (outline.cuts.foldl place (#[], byteCount outline.lead)).1.toList

/-- The declarations in the source of a stage, in order. -/
def ofSource (stage : Stage) (source : String) : Except LinkError (List Declaration) :=
  (Outline.ofSource stage source).map ofOutline

end Declaration

end ShaderInterface.Source
