/-!
# Byte codes that end by themselves

Values are written as bytes so that one who reads them knows from the bytes alone where each value
ends: a number as a word of eight bytes, the lowest first; a text behind the number of its bytes;
a list behind the number of its elements. A word holds the numbers below `wordLimit`, so this is
so for texts and lists of fewer bytes and elements.
-/

namespace ShaderInterface.Code

/-- The numbers below this one fit into a word. -/
def wordLimit : Nat := UInt64.size

/-- The lowest `count` bytes of a number, the lowest first. -/
def lowBytes : Nat → Nat → List UInt8
  | 0, _ => []
  | count + 1, n => n.toUInt8 :: lowBytes count (n / 256)

/-- The code of a number. -/
def word (n : Nat) : List UInt8 :=
  lowBytes 8 n

/-- The bytes of a text in UTF-8. -/
def utf8 (s : String) : List UInt8 :=
  s.toByteArray.data.toList

/-- The code of a text. -/
def text (s : String) : List UInt8 :=
  word s.utf8ByteSize ++ utf8 s

/-- The code of a list, from that of its elements. -/
def list {α : Type} (code : α → List UInt8) (xs : List α) : List UInt8 :=
  word xs.length ++ xs.flatMap code

/-- There are as many bytes as asked for. -/
@[simp]
theorem length_lowBytes (count n : Nat) : (lowBytes count n).length = count := by
  induction count generalizing n with
  | zero => rfl
  | succ count ih => rw [lowBytes, List.length_cons, ih]

/-- A word has eight bytes. -/
@[simp]
theorem length_word (n : Nat) : (word n).length = 8 :=
  length_lowBytes 8 n

/-- A text has as many bytes as its size says. -/
@[simp]
theorem length_utf8 (s : String) : (utf8 s).length = s.utf8ByteSize := by
  rw [utf8, Array.length_toList]
  rfl

/-- Different texts have different bytes. -/
theorem utf8_inj {s t : String} : utf8 s = utf8 t ↔ s = t := by
  refine ⟨fun h => ?_, fun h => h ▸ rfl⟩
  rw [← String.toByteArray_inj]
  exact ByteArray.ext (Array.toList_inj.1 h)

/-- The bytes of two texts in a row stand in a row. -/
@[simp]
theorem utf8_append (s t : String) : utf8 (s ++ t) = utf8 s ++ utf8 t := by
  simp [utf8, String.toByteArray_append]

end ShaderInterface.Code
