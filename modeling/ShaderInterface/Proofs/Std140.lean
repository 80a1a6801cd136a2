import Mathlib.Order.Bounds.Basic
import ShaderInterface.Proofs.Resources

/-!
# The std140 layout of a block

std140 places the members of a block by the shapes of their types: by components, columns and
array elements. A buffer layout knows no shapes, only how many elements a type takes. For the types
of the standard tables it is the std140 layout of the block that its declaration declares
(`BufferLayout.std140_of_standard`), since the alignment of each of these types follows from its
size (`Std140.BlockType.alignment_eq`).
-/

namespace ShaderInterface

namespace Std140

/-! ## The rules -/

/-- What scalars and vectors are made of. -/
inductive Component where
  | bool
  | int
  | uint
  | float
deriving DecidableEq, Repr

namespace Component

/-- The name of the scalar type. -/
def name : Component → String
  | bool => "bool"
  | int => "int"
  | uint => "uint"
  | float => "float"

/-- The name of the vector types, without their width. -/
def vectorStem : Component → String
  | bool => "bvec"
  | int => "ivec"
  | uint => "uvec"
  | float => "vec"

end Component

/-- The number of components of a vector, or of columns of a matrix. -/
inductive Width where
  | two
  | three
  | four
deriving DecidableEq, Repr

/-- The number that a width is. -/
def Width.toNat : Width → Nat
  | two => 2
  | three => 3
  | four => 4

/-- The types of the members of a block, apart from arrays. -/
inductive BlockType where
  | scalar (component : Component)
  | vector (component : Component) (width : Width)
  /-- A matrix of floats with as many columns as rows. -/
  | matrix (width : Width)
deriving DecidableEq, Repr

namespace BlockType

/-- The name of a type in a shader. -/
def name : BlockType → String
  | scalar component => component.name
  | vector component width => component.vectorStem ++ toString width.toNat
  | matrix width => "mat" ++ toString width.toNat

/-- The number of which the offset of a member of the type is a multiple. -/
def alignment : BlockType → Nat
  | scalar _ => 4
  | vector _ .two => 8
  | vector _ .three => 16
  | vector _ .four => 16
  | matrix _ => 16

/-- The number of bytes that a member of the type takes: four for each component, or 16 for each
column of a matrix. -/
def size : BlockType → Nat
  | scalar _ => 4
  | vector _ width => 4 * width.toNat
  | matrix width => 16 * width.toNat

end BlockType

/-- `m` is the first multiple of `align` at or after `n`. -/
def IsFirstMultiple (align n m : Nat) : Prop :=
  IsLeast {k | align ∣ k ∧ n ≤ k} m

/-- A member of a block. -/
structure BlockMember where
  precision : Option Precision
  type : BlockType
  name : String
  /-- The number of elements of an array. -/
  elements : Option Nat
deriving DecidableEq, Repr

namespace BlockMember

/-- The number of which the member's offset is a multiple; an array is aligned like a vector of
four components. -/
def alignment (b : BlockMember) : Nat :=
  match b.elements with
  | none => b.type.alignment
  | some _ => 16

/-- The member takes `size` bytes. The elements of an array have a stride that is a multiple of
16. -/
def HasSize (b : BlockMember) (size : Nat) : Prop :=
  match b.elements with
  | none => size = b.type.size
  | some count => ∃ stride, IsFirstMultiple 16 b.type.size stride ∧ size = count * stride

/-- The line that declares the member. -/
def source (b : BlockMember) : String :=
  "    " ++ (match b.precision with | some p => p.word ++ " " | none => "") ++ b.type.name ++ " "
    ++ b.name ++ (match b.elements with | some count => "[" ++ toString count ++ "]" | none => "")
    ++ ";\n"

end BlockMember

/-- The text of a std140 block that stands at a slot of a group. -/
def blockSource (group slot : Nat) (groupName : String) (bs : List BlockMember) : String :=
  "layout(set = " ++ toString group ++ ", binding = " ++ toString slot ++ ", std140) uniform ub_"
    ++ groupName ++ " \x7b\n" ++ String.join (bs.map (·.source)) ++ "\x7d;\n"

/-- The bytes of a member. -/
structure Place where
  offset : Nat
  size : Nat
deriving DecidableEq, Repr

/-- The places of the members behind the byte `start`, of which the last ends at `stop`. -/
inductive LaidFrom : Nat → List BlockMember → List Place → Nat → Prop
  | nil (start : Nat) : LaidFrom start [] [] start
  | cons {start stop offset size : Nat} {b : BlockMember} {bs : List BlockMember}
      {places : List Place} (aligned : IsFirstMultiple b.alignment start offset)
      (sized : b.HasSize size) (tail : LaidFrom (offset + size) bs places stop) :
      LaidFrom start (b :: bs) (⟨offset, size⟩ :: places) stop

/-- The places of all members of a block, and the number of bytes of the block. -/
def IsLayout (bs : List BlockMember) (places : List Place) (total : Nat) : Prop :=
  ∃ stop, LaidFrom 0 bs places stop ∧ IsFirstMultiple 16 stop total

/-! ## Types and their sizes -/

/-- Rounding up gives the first multiple. -/
theorem isFirstMultiple_roundUp {align : Nat} (h : 0 < align) (n : Nat) :
    IsFirstMultiple align n (roundUp n align) :=
  ⟨⟨dvd_roundUp n align, le_roundUp h n⟩, fun _ hm => (roundUp_le_iff h hm.1 n).2 hm.2⟩

namespace BlockType

/-- A type is aligned to its size as far as that is at most 8, and else to a vector of four
components. -/
theorem alignment_eq (t : BlockType) :
    t.alignment = if t.size > 8 then Member.vectorBytes else t.size := by
  cases t with
  | scalar _ => rfl
  | vector _ width => cases width <;> rfl
  | matrix width => cases width <;> rfl

/-- A type takes some bytes. -/
theorem size_pos (t : BlockType) : 0 < t.size := by
  cases t with
  | scalar _ => simp [size]
  | vector _ width => cases width <;> simp [size, Width.toNat]
  | matrix width => cases width <;> simp [size, Width.toNat]

/-- A type takes at most the bytes of four columns. -/
theorem size_le (t : BlockType) : t.size ≤ 64 := by
  cases t with
  | scalar _ => simp [size]
  | vector _ width => cases width <;> simp [size, Width.toNat]
  | matrix width => cases width <;> simp [size, Width.toNat]

/-- The bytes of four columns are a multiple of every alignment. -/
theorem alignment_dvd (t : BlockType) : t.alignment ∣ 64 := by
  cases t with
  | scalar _ => exact ⟨16, rfl⟩
  | vector _ width => cases width <;> [exact ⟨8, rfl⟩; exact ⟨4, rfl⟩; exact ⟨4, rfl⟩]
  | matrix _ => exact ⟨4, rfl⟩

/-- The standard tables count the elements of a type. -/
theorem elementCount?_name (t : BlockType) :
    ∃ count, HostTables.standard.elementCount? t.name = some count ∧
      count * Member.elementBytes = t.size := by
  cases t with
  | scalar component => cases component <;> exact ⟨1, by decide, rfl⟩
  | vector component width =>
    refine ⟨width.toNat, ?_, Nat.mul_comm _ _⟩
    cases component <;> cases width <;> decide
  | matrix width =>
    refine ⟨4 * width.toNat, ?_, ?_⟩ <;> cases width <;> decide

/-- Every type of the standard tables is the type of a member. -/
theorem exists_name_eq {typeName : String}
    (h : typeName ∈ HostTables.standard.elementCounts.map (·.1)) :
    ∃ t : BlockType, t.name = typeName := by
  have hall : HostTables.standard.elementCounts.map (·.1) =
      ([Component.bool, .int, .uint, .float].map scalar ++
        [Width.two, .three, .four].flatMap (fun width =>
          [Component.float, .int, .uint, .bool].map (vector · width)) ++
        [Width.two, .three, .four].map matrix).map name := by
    decide
  rw [hall] at h
  obtain ⟨t, -, ht⟩ := List.mem_map.1 h
  exact ⟨t, ht⟩

end BlockType

/-! ## Members -/

namespace BlockMember

/-- The member is what a declarator declares. -/
structure Declares (b : BlockMember) (d : Declarator) : Prop where
  precision : b.precision = d.precision
  type : b.type.name = d.typeName
  name : b.name = d.name
  elements : b.elements = if d.arraySize = 0 then none else some d.arraySize

/-- A declarator with a type of the standard tables declares a member. -/
theorem exists_declares {d : Declarator}
    (h : d.typeName ∈ HostTables.standard.elementCounts.map (·.1)) :
    ∃ b : BlockMember, b.Declares d := by
  obtain ⟨t, ht⟩ := BlockType.exists_name_eq h
  exact ⟨⟨d.precision, t, d.name, if d.arraySize = 0 then none else some d.arraySize⟩, rfl, ht,
    rfl, rfl⟩

/-- A member is written as its declarator is. -/
theorem Declares.source_eq {b : BlockMember} {f : Field} (h : b.Declares f.toDeclarator) :
    b.source = BufferLayout.fieldLine f := by
  rw [source, BufferLayout.fieldLine, Declarator.render, h.precision, h.type, h.name, h.elements]
  cases f.precision <;> by_cases hsingle : f.arraySize = 0 <;> simp [hsingle, String.append_assoc]

/-- The uniform becomes a member of a buffer that is like the member of the block. -/
structure Matches (b : BlockMember) (m : Member) : Prop where
  declares : b.Declares m.toDeclarator
  size : m.elementCount * Member.elementBytes = b.type.size
  single : m.arraySize ≤ 1

namespace Matches

variable {b : BlockMember} {m : Member}

/-- The alignment is read off the size. -/
theorem alignment_eq (h : b.Matches m) : b.alignment = m.alignment := by
  rw [BlockMember.alignment, h.declares.elements, Member.alignment, Member.byteSize, h.size]
  by_cases hsingle : m.arraySize = 0
  · simp [hsingle, b.type.alignment_eq]
  · simp [hsingle, Nat.pos_of_ne_zero hsingle, Member.vectorBytes]

/-- The bytes that a buffer has for the member are those that the member takes. -/
theorem hasSize (h : b.Matches m) : b.HasSize m.byteSize := by
  rw [HasSize, h.declares.elements, Member.byteSize, h.size]
  by_cases hsingle : m.arraySize = 0
  · simp [hsingle]
  · have hone : m.arraySize = 1 := by
      have := h.single
      omega
    rw [hone]
    exact ⟨_, isFirstMultiple_roundUp (Nat.succ_pos 15) _, (Nat.one_mul _).symm⟩

/-- A member takes at most the bytes of four columns. -/
theorem byteSize_le (h : b.Matches m) : m.byteSize ≤ 64 := by
  rw [Member.byteSize, h.size]
  split
  · exact b.type.size_le
  · exact (roundUp_le_iff (Nat.succ_pos 15) ⟨4, rfl⟩ _).2 b.type.size_le

end Matches

/-- The bytes of four columns are a multiple of every alignment. -/
theorem alignment_dvd (b : BlockMember) : b.alignment ∣ 64 := by
  unfold alignment
  split
  · exact b.type.alignment_dvd
  · exact ⟨4, rfl⟩

/-- Offsets are multiples of a positive number. -/
theorem alignment_pos (b : BlockMember) : 0 < b.alignment :=
  Nat.pos_of_dvd_of_pos b.alignment_dvd (Nat.succ_pos 63)

/-- With the standard tables, a uniform becomes the member that it declares. -/
theorem Declares.exists_matches {b : BlockMember} {u : Uniform} (h : b.Declares u.toDeclarator)
    (hsingle : u.arraySize ≤ 1) :
    ∃ m, Member.ofUniform .standard u = .ok m ∧ b.Matches m := by
  obtain ⟨count, hcount, hsize⟩ := b.type.elementCount?_name
  have hpos : 0 < count * Member.elementBytes := hsize ▸ b.type.size_pos
  have hfits : count * Member.elementBytes < UInt32.size :=
    hsize ▸ Nat.lt_of_le_of_lt b.type.size_le (by decide)
  have hword : Member.wordBytes count ≠ 0 :=
    mt (Member.wordBytes_eq_zero_iff hfits).1 (Nat.ne_of_gt (Nat.pos_of_mul_pos_right hpos))
  refine ⟨⟨u.toDeclarator, count⟩, Member.ofUniform_eq_ok_iff.2 ?_, h, hsize, hsingle⟩
  exact ⟨hsingle, h.type ▸ hcount, hword, rfl⟩

end BlockMember

end Std140

/-! ## Layouts -/

namespace BufferLayout

/-- The byte behind the last of the members that are placed behind the byte `start`. -/
def endFrom (start : Nat) (ms : List Member) : Nat :=
  ((fieldsFrom start ms).getLast?.map Field.stop).getD start

/-- The members behind the first end where all members end. -/
theorem endFrom_cons (start : Nat) (m : Member) (ms : List Member) :
    endFrom start (m :: ms) = endFrom (Field.mk m (roundUp start m.alignment)).stop ms := by
  rw [endFrom, fieldsFrom, List.getLast?_cons, Option.map_some, Option.getD_some,
    ← Option.getD_map Field.stop, endFrom]

/-- The size of a buffer is the end of its members, rounded up. -/
theorem totalBytes_ofMembers (ms : List Member) :
    (ofMembers ms).totalBytes = roundUp (endFrom 0 ms) Member.vectorBytes := by
  rw [totalBytes, fields_ofMembers, endFrom]

end BufferLayout

namespace Std140

open BufferLayout

/-- The bytes of a field. -/
def placeOf (f : Field) : Place :=
  ⟨f.byteOffset, f.byteSize⟩

/-- Members that are placed one after the other are placed by the rules. -/
theorem laidFrom_fieldsFrom {bs : List BlockMember} {ms : List Member}
    (h : List.Forall₂ BlockMember.Matches bs ms) (start : Nat) :
    LaidFrom start bs ((fieldsFrom start ms).map placeOf) (endFrom start ms) := by
  induction h generalizing start with
  | nil => exact .nil start
  | @cons b m bs ms hm hrest ih =>
    have haligned : IsFirstMultiple b.alignment start (roundUp start m.alignment) := by
      rw [← hm.alignment_eq]
      exact isFirstMultiple_roundUp b.alignment_pos start
    rw [endFrom_cons]
    exact .cons haligned hm.hasSize (ih _)

/-- Behind 64 bytes for each of `k` members, the next one takes at most 64 bytes, with what is left
free in front of it. -/
theorem stop_le {b : BlockMember} {m : Member} (h : b.Matches m) {start k : Nat}
    (hstart : start ≤ 64 * k) : (Field.mk m (roundUp start m.alignment)).stop ≤ 64 * (k + 1) := by
  have hoffset : roundUp start m.alignment ≤ 64 * k := by
    rw [← h.alignment_eq]
    exact (roundUp_le_iff b.alignment_pos (Nat.dvd_mul_right_of_dvd b.alignment_dvd k) _).2 hstart
  exact Nat.add_le_add hoffset h.byteSize_le

/-- Behind 64 bytes for each of `k` members, the next ones take at most 64 bytes each. -/
theorem endFrom_le {bs : List BlockMember} {ms : List Member}
    (h : List.Forall₂ BlockMember.Matches bs ms) {start k : Nat} (hstart : start ≤ 64 * k) :
    endFrom start ms ≤ 64 * (k + ms.length) := by
  induction h generalizing start k with
  | nil => exact hstart
  | @cons b m bs ms hm hrest ih =>
    rw [endFrom_cons, List.length_cons, Nat.add_comm ms.length, ← Nat.add_assoc]
    exact ih (stop_le hm hstart)

/-- The declaration of a buffer is the text of a block, if each of its fields is the line of a
member. -/
theorem blockSource_eq {bs : List BlockMember} {layout : BufferLayout}
    (h : List.Forall₂ BlockMember.Declares bs (layout.fields.map (·.toDeclarator)))
    (group slot : Nat) (groupName : String) :
    blockSource group slot groupName bs = layout.declaration group slot groupName := by
  have hlines : List.Forall₂ (· = ·) (bs.map (·.source))
      (layout.fields.map fieldLine) := by
    rw [List.forall₂_map_left_iff, List.forall₂_map_right_iff]
    exact (List.forall₂_map_right_iff.1 h).imp fun _ _ hb => hb.source_eq
  rw [List.forall₂_eq_eq_eq] at hlines
  unfold blockSource declaration
  rw [hlines]

/-- With the standard tables, uniforms of types that the tables know become members of a buffer,
and of a block. -/
theorem exists_members {us : List Uniform}
    (htypes : ∀ u ∈ us, u.typeName ∈ HostTables.standard.elementCounts.map (·.1))
    (hsingle : ∀ u ∈ us, u.arraySize ≤ 1) :
    ∃ ms bs, us.mapM (Member.ofUniform .standard) = .ok ms ∧
      List.Forall₂ BlockMember.Matches bs ms := by
  induction us with
  | nil => exact ⟨[], [], rfl, .nil⟩
  | cons u us ih =>
    rw [List.forall_mem_cons] at htypes hsingle
    obtain ⟨b, hb⟩ := BlockMember.exists_declares htypes.1
    obtain ⟨m, hm, hmatch⟩ := hb.exists_matches hsingle.1
    obtain ⟨ms, bs, hms, hmatches⟩ := ih htypes.2 hsingle.2
    rw [Outcome.mapM_eq_ok_iff] at hms
    exact ⟨m :: ms, b :: bs, Outcome.mapM_eq_ok_iff.2 (.cons hm hms), .cons hmatch hmatches⟩

end Std140

namespace BufferLayout

open Std140

/-- With the standard tables, uniforms of types that the tables know get a buffer that is laid out
like the block which its declaration declares, and that takes at most 64 bytes for each of them. -/
theorem std140_of_standard {us : List Uniform} (hne : us ≠ [])
    (htypes : ∀ u ∈ us, u.typeName ∈ HostTables.standard.elementCounts.map (·.1))
    (hsingle : ∀ u ∈ us, u.arraySize ≤ 1) :
    ∃ layout bs, ofUniforms .standard us = .ok (some layout) ∧
      layout.fields.map (·.toDeclarator) = us.map (·.toDeclarator) ∧
      List.Forall₂ BlockMember.Declares bs (us.map (·.toDeclarator)) ∧
      (∀ group slot groupName,
        layout.declaration group slot groupName = blockSource group slot groupName bs) ∧
      IsLayout bs (layout.fields.map placeOf) layout.totalBytes ∧
      layout.totalBytes ≤ 64 * us.length := by
  obtain ⟨ms, bs, hms, hmatches⟩ := exists_members htypes hsingle
  have hdeclarators := map_toDeclarator_of_mapM hms
  have hdeclares : List.Forall₂ BlockMember.Declares bs (us.map (·.toDeclarator)) := by
    rw [← hdeclarators, List.forall₂_map_right_iff]
    exact hmatches.imp fun _ _ h => h.declares
  have hfields : (ofMembers ms).fields.map (·.toDeclarator) = us.map (·.toDeclarator) := by
    rw [fields_ofMembers, map_toDeclarator_fieldsFrom, hdeclarators]
  have hmembers : ms ≠ [] := by
    rintro rfl
    exact hne (List.map_eq_nil_iff.1 hdeclarators.symm)
  have hlength : us.length = ms.length := by
    rw [← List.length_map (·.toDeclarator), ← hdeclarators, List.length_map]
  refine ⟨ofMembers ms, bs, ?_, hfields, hdeclares, ?_, ?_, ?_⟩
  · exact ofUniforms_eq_ok_iff.2 ⟨ms, hms, (if_neg hmembers).symm⟩
  · intro group slot groupName
    exact (blockSource_eq (hfields ▸ hdeclares) group slot groupName).symm
  · rw [fields_ofMembers, totalBytes_ofMembers]
    exact ⟨_, laidFrom_fieldsFrom hmatches 0, isFirstMultiple_roundUp (Nat.succ_pos 15) _⟩
  · rw [totalBytes_ofMembers, hlength]
    refine (roundUp_le_iff (Nat.succ_pos 15) (Nat.dvd_mul_right_of_dvd ⟨4, rfl⟩ _) _).2 ?_
    simpa using endFrom_le hmatches (Nat.zero_le (64 * 0))

end BufferLayout

end ShaderInterface
