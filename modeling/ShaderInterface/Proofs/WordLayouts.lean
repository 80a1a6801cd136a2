import ShaderInterface.Proofs.MachineWords
import ShaderInterface.Resource.WordLayout

/-!
# Layouts in words are exact below `2 ^ 32`

The words of a layout are its exact numbers modulo `2 ^ 32`, unless a single field takes more bytes
than a word can say (`WordLayout.ofMembers_eq`). Hence they are the exact numbers if these are below
`2 ^ 32` (`WordLayout.toLayout_ofMembers`). Each operation on words is the image of the one on
numbers, so that a run of them is, too; only the choice of an alignment compares words, which is why
the sizes of the fields must fit.

With the standard tables, the words are those of the std140 layout of the block that is declared
(`WordLayout.isLayout_of_standard`).
-/

namespace ShaderInterface

open Std140

/-- Rounding up a word rounds up the number: wrapping around comes to the same before and behind,
since `2 ^ 32` is a multiple of each alignment. -/
theorem roundUpWord_ofNat {align : Nat} (h : align = 4 ∨ align = 8 ∨ align = 16) (n : Nat) :
    roundUpWord (.ofNat n) (.ofNat align) = .ofNat (roundUp n align) := by
  have halign : (UInt32.ofNat align).toNat = align := by
    rcases h with rfl | rfl | rfl <;> rfl
  have hmod : UInt32.ofNat n % UInt32.ofNat align = 0 ↔ n % 2 ^ 32 % align = 0 := by
    rw [← UInt32.toNat_inj, UInt32.toNat_mod, UInt32.toNat_ofNat', halign, UInt32.toNat_zero]
  rw [← UInt32.toNat_inj, roundUpWord, UInt32.toNat_mul, halign, apply_ite UInt32.toNat,
    UInt32.toNat_add, UInt32.toNat_div, halign, UInt32.toNat_one, UInt32.toNat_ofNat',
    UInt32.toNat_ofNat', roundUp]
  simp only [hmod]
  rcases h with rfl | rfl | rfl
  · split <;> omega
  · split <;> omega
  · split <;> omega

/-- Rounding up to full vectors. -/
theorem roundUpWord_vectorBytes (n : Nat) :
    roundUpWord (.ofNat n) WordField.vectorBytes = .ofNat (roundUp n Member.vectorBytes) :=
  roundUpWord_ofNat (.inr (.inr rfl)) n

/-! ## Fields -/

namespace WordField

/-- The numbers of a field as words. -/
def ofField (f : Field) : WordField :=
  ⟨f.toDeclarator, .ofNat f.elementCount, .ofNat f.byteSize, .ofNat f.byteOffset⟩

/-- The bytes of a field, read as numbers. -/
def placeOf (f : WordField) : Place :=
  ⟨f.byteOffset.toNat, f.byteSize.toNat⟩

/-- The size of a member in words. -/
theorem memberBytes_eq (m : Member) : memberBytes m = .ofNat m.byteSize := by
  rw [memberBytes, Member.byteSize, Member.wordBytes_eq]
  by_cases hsingle : m.arraySize = 0
  · rw [if_neg (by omega), if_pos hsingle]
  · rw [if_pos (by omega), if_neg hsingle, roundUpWord_vectorBytes]

/-- The end of a field in words. -/
theorem stop_ofField (f : Field) : (ofField f).stop = .ofNat f.stop :=
  (UInt32.ofNat_add f.byteOffset f.byteSize).symm

/-- The alignment of a field in words, if the word for its size has not wrapped around. -/
theorem alignment_ofField {f : Field} (hfits : f.byteSize < UInt32.size) :
    (ofField f).alignment = .ofNat f.alignment := by
  have hsmall : UInt32.ofNat f.byteSize > 8 ↔ f.byteSize > 8 := by
    rw [gt_iff_lt, UInt32.lt_iff_toNat_lt, UInt32.toNat_ofNat_of_lt' hfits]
    rfl
  unfold alignment Member.alignment
  simp only [ofField, hsmall]
  exact (apply_ite UInt32.ofNat _ _ _).symm

/-- Words of numbers below `2 ^ 32` are read as these numbers. -/
theorem toField_ofField {f : Field} (helements : f.elementCount < UInt32.size)
    (hoffset : f.byteOffset < UInt32.size) : (ofField f).toField = f := by
  rw [toField, ofField, UInt32.toNat_ofNat_of_lt' helements, UInt32.toNat_ofNat_of_lt' hoffset]

/-- A member is placed in words where it is placed. -/
theorem place_ofNat {m : Member} (hcount : m.elementCount ≠ 0) (hfits : m.byteSize < UInt32.size)
    (start : Nat) : place (.ofNat start) m = ofField ⟨m, roundUp start m.alignment⟩ := by
  have halignment := alignment_ofField (f := ⟨m, 0⟩) hfits
  rw [place, memberBytes_eq]
  rw [ofField, ← roundUpWord_ofNat (Member.alignment_eq hcount), ← halignment]
  rfl

end WordField

/-! ## Layouts -/

namespace WordLayout

/-- The numbers of a layout as words. -/
def ofLayout (layout : BufferLayout) : WordLayout :=
  ⟨layout.fields.map WordField.ofField, .ofNat layout.totalBytes⟩

/-- Words of numbers below `2 ^ 32` are read as these numbers. -/
theorem toLayout_ofLayout {layout : BufferLayout} (h : layout.FitsWords) :
    (ofLayout layout).toLayout = layout := by
  have hfields : ∀ f ∈ layout.fields, (WordField.ofField f).toField = f := by
    intro f hf
    refine WordField.toField_ofField ?_ (h.byteOffset f hf)
    exact Nat.lt_of_le_of_lt (Nat.le_mul_of_pos_right _ (Nat.succ_pos 3)) (h.elements f hf)
  rw [toLayout, ofLayout, List.map_map]
  exact congrArg BufferLayout.mk ((List.map_congr_left hfields).trans (List.map_id _))

section

variable {ms : List Member} (hcount : ∀ m ∈ ms, m.elementCount ≠ 0)

include hcount

/-- Members are placed in words behind those that are placed already. -/
theorem foldl_step (hfits : ∀ m ∈ ms, m.byteSize < UInt32.size) (placed : Array WordField)
    (start : Nat) : ms.foldl step (placed, .ofNat start) =
      (placed ++ (BufferLayout.fieldsFrom start ms).map WordField.ofField,
        .ofNat (BufferLayout.endFrom start ms)) := by
  induction ms generalizing placed start with
  | nil => exact Prod.ext Array.appendList_nil.symm rfl
  | cons m ms ih =>
    rw [List.forall_mem_cons] at hcount hfits
    rw [List.foldl_cons, step, WordField.place_ofNat hcount.1 hfits.1, WordField.stop_ofField,
      ih hcount.2 hfits.2, BufferLayout.endFrom_cons, BufferLayout.fieldsFrom]
    simp

/-- The words of a layout are its numbers modulo `2 ^ 32`, if each field has a size that fits into a
word. -/
theorem ofMembers_eq (hfits : ∀ m ∈ ms, m.byteSize < UInt32.size) :
    ofMembers ms = ofLayout (BufferLayout.ofMembers ms) := by
  have hplaced := foldl_step hcount hfits #[] 0
  have hstart : UInt32.ofNat 0 = 0 := rfl
  rw [hstart] at hplaced
  rw [ofMembers, hplaced, ofLayout, BufferLayout.fields_ofMembers,
    BufferLayout.totalBytes_ofMembers, roundUpWord_vectorBytes]
  simp

/-- The words of a layout are its exact numbers if these fit into words. -/
theorem toLayout_ofMembers (h : (BufferLayout.ofMembers ms).FitsWords) :
    (ofMembers ms).toLayout = BufferLayout.ofMembers ms ∧
      (ofMembers ms).totalBytes.toNat = (BufferLayout.ofMembers ms).totalBytes := by
  have hfits : ∀ m ∈ ms, m.byteSize < UInt32.size := by
    have hsizes := h.byteSize
    rw [BufferLayout.fields_ofMembers] at hsizes
    intro m hm
    rw [← BufferLayout.map_toMember_fieldsFrom 0 ms] at hm
    obtain ⟨f, hf, rfl⟩ := List.mem_map.1 hm
    exact hsizes f hf
  rw [ofMembers_eq hcount hfits]
  exact ⟨toLayout_ofLayout h, UInt32.toNat_ofNat_of_lt' h.totalBytes⟩

end

variable {tables : HostTables} {us : List Uniform}

/-- Uniforms are laid out in words if they become members. -/
theorem ofUniforms_of_mapM {ms : List Member} (hne : us ≠ [])
    (hms : us.mapM (Member.ofUniform tables) = .ok ms) :
    ofUniforms tables us = .ok (some (ofMembers ms)) := by
  have hmembers : ms ≠ [] := mt (BufferLayout.eq_nil_iff_of_mapM hms).1 hne
  rw [ofUniforms, hms]
  exact congrArg Except.ok (if_neg (mt List.isEmpty_iff.1 hmembers))

/-- Reading words as numbers keeps what is declared. -/
theorem map_toDeclarator_toLayout (layout : WordLayout) :
    layout.toLayout.fields.map (·.toDeclarator) = layout.fields.map (·.toDeclarator) := by
  rw [toLayout, List.map_map]
  rfl

/-! ## The std140 layout -/

/-- Members of the standard tables have sizes that fit into words. -/
theorem byteSize_lt_of_matches {bs : List BlockMember} {ms : List Member}
    (h : List.Forall₂ BlockMember.Matches bs ms) : ∀ m ∈ ms, m.byteSize < UInt32.size := by
  induction h with
  | nil => exact List.forall_mem_nil _
  | cons hm _ ih =>
    exact List.forall_mem_cons.2 ⟨Nat.lt_of_le_of_lt hm.byteSize_le (by decide), ih⟩

/-- With the standard tables, uniforms of types that the tables know get a layout in words which is
that of the block which its declaration declares, modulo `2 ^ 32`. If the block has fewer than
`2 ^ 32` bytes, the words are the offsets, the sizes and the total that std140 gives; with fewer
than `2 ^ 26` uniforms that is always so. -/
theorem isLayout_of_standard (hne : us ≠ [])
    (htypes : ∀ u ∈ us, u.typeName ∈ HostTables.standard.elementCounts.map (·.1))
    (hsingle : ∀ u ∈ us, u.arraySize ≤ 1) :
    ∃ layout bs places total, ofUniforms .standard us = .ok (some layout) ∧
      layout.fields.map (·.toDeclarator) = us.map (·.toDeclarator) ∧
      List.Forall₂ BlockMember.Declares bs (us.map (·.toDeclarator)) ∧
      (∀ group slot groupName,
        layout.declaration group slot groupName = blockSource group slot groupName bs) ∧
      IsLayout bs places total ∧ total ≤ 64 * us.length ∧
      layout.fields.map (fun f => (f.byteOffset, f.byteSize)) =
        places.map (fun place => (.ofNat place.offset, .ofNat place.size)) ∧
      layout.totalBytes = .ofNat total ∧
      (total < UInt32.size →
        layout.fields.map WordField.placeOf = places ∧ layout.totalBytes.toNat = total) := by
  obtain ⟨layout, bs, hlayout, hfields, hdeclares, -, hstd140, htotal⟩ :=
    BufferLayout.std140_of_standard hne htypes hsingle
  obtain ⟨-, ms, hms, rfl⟩ := BufferLayout.ofUniforms_eq_ok_some_iff.1 hlayout
  obtain ⟨_, hmatches⟩ := exists_matches_of_mapM hms
  have hcount := BufferLayout.elementCount_ne_zero_of_mapM hms
  have heq := ofMembers_eq hcount (byteSize_lt_of_matches hmatches)
  have hdeclarators : (ofMembers ms).fields.map (·.toDeclarator) = us.map (·.toDeclarator) := by
    rw [heq, ← hfields, ofLayout, List.map_map]
    rfl
  refine ⟨ofMembers ms, bs, (BufferLayout.ofMembers ms).fields.map Std140.placeOf,
    (BufferLayout.ofMembers ms).totalBytes, ofUniforms_of_mapM hne hms, hdeclarators, hdeclares, ?_,
    hstd140, htotal, ?_, congrArg totalBytes heq, fun h => ?_⟩
  · intro group slot groupName
    rw [← hdeclarators, ← map_toDeclarator_toLayout] at hdeclares
    exact (blockSource_eq hdeclares group slot groupName).symm
  · rw [heq, ofLayout, List.map_map, List.map_map]
    rfl
  · have hwords := BufferLayout.fitsWords_of_totalBytes_lt hcount h
    have hplaces : ∀ f ∈ (BufferLayout.ofMembers ms).fields,
        (WordField.ofField f).placeOf = Std140.placeOf f := by
      intro f hf
      rw [WordField.placeOf, WordField.ofField, UInt32.toNat_ofNat_of_lt' (hwords.byteOffset f hf),
        UInt32.toNat_ofNat_of_lt' (hwords.byteSize f hf)]
      rfl
    rw [heq, ofLayout, List.map_map]
    exact ⟨List.map_congr_left hplaces, UInt32.toNat_ofNat_of_lt' h⟩

/-- A block with members of all shapes. -/
def mixedUniforms : List Uniform :=
  [⟨⟨some .high, "vec3", "normal", 0⟩, "highp vec3 normal", .vertex⟩,
    ⟨⟨none, "float", "scale", 0⟩, "float scale", .vertex⟩,
    ⟨⟨none, "float", "weight", 1⟩, "float weight[1]", .vertex⟩,
    ⟨⟨none, "mat3", "basis", 0⟩, "mat3 basis", .vertex⟩,
    ⟨⟨none, "bool", "flipped", 0⟩, "bool flipped", .fragment⟩,
    ⟨⟨none, "ivec2", "cell", 0⟩, "ivec2 cell", .fragment⟩]

/-- The scalar behind the vector of three components takes the fourth place of that vector. -/
theorem isLayout_of_standard_mixedUniforms :
    mixedUniforms ≠ [] ∧
      (∀ u ∈ mixedUniforms, u.typeName ∈ HostTables.standard.elementCounts.map (·.1)) ∧
      (∀ u ∈ mixedUniforms, u.arraySize ≤ 1) ∧
      ∃ layout bs, ofUniforms .standard mixedUniforms = .ok (some layout) ∧
        layout.fields.map WordField.placeOf =
          [⟨0, 12⟩, ⟨12, 4⟩, ⟨16, 16⟩, ⟨32, 48⟩, ⟨80, 4⟩, ⟨88, 8⟩] ∧
        layout.totalBytes = 96 ∧
        List.Forall₂ BlockMember.Declares bs (mixedUniforms.map (·.toDeclarator)) ∧
        (∀ group slot groupName,
          layout.declaration group slot groupName = blockSource group slot groupName bs) ∧
        IsLayout bs (layout.fields.map WordField.placeOf) layout.totalBytes.toNat := by
  have hne : mixedUniforms ≠ [] := by decide
  have htypes : ∀ u ∈ mixedUniforms,
      u.typeName ∈ HostTables.standard.elementCounts.map (·.1) := by decide
  have hsingle : ∀ u ∈ mixedUniforms, u.arraySize ≤ 1 := by decide
  have hwords : (ofUniforms .standard mixedUniforms).map
      (Option.map fun layout => (layout.fields.map WordField.placeOf, layout.totalBytes)) =
        .ok (some ([⟨0, 12⟩, ⟨12, 4⟩, ⟨16, 16⟩, ⟨32, 48⟩, ⟨80, 4⟩, ⟨88, 8⟩], 96)) := by
    decide +kernel
  obtain ⟨layout, bs, places, total, hlayout, -, hdeclares, hsource, hstd140, hle, -, -, hexact⟩ :=
    isLayout_of_standard hne htypes hsingle
  rw [hlayout] at hwords
  obtain ⟨hplaces, htotal⟩ := Prod.mk.inj (Option.some.inj (Except.ok.inj hwords))
  obtain ⟨rfl, rfl⟩ := hexact (Nat.lt_of_le_of_lt hle (by decide))
  exact ⟨hne, htypes, hsingle, layout, bs, hlayout, hplaces, htotal, hdeclares, hsource, hstd140⟩

/-- A matrix of four columns. -/
def matrixUniform : Uniform :=
  ⟨⟨none, "mat4", "m", 0⟩, "mat4 m", .vertex⟩

/-- The name of the matrices of four columns is that of no other type. -/
theorem type_eq_of_name_eq {t : BlockType} (h : t.name = "mat4") : t = .matrix .four := by
  cases t with
  | scalar component => cases component <;> exact absurd h (by decide)
  | vector component width => cases component <;> cases width <;> exact absurd h (by decide)
  | matrix width =>
    cases width with
    | two => exact absurd h (by decide)
    | three => exact absurd h (by decide)
    | four => rfl

/-- A block of matrices of four columns has 64 bytes for each of them. -/
theorem le_stop_of_matrices {n : Nat} {bs : List BlockMember} {start stop : Nat}
    {places : List Place} (h : LaidFrom start bs places stop)
    (hbs : List.Forall₂ BlockMember.Declares bs
      (List.replicate n matrixUniform.toDeclarator)) : start + 64 * n ≤ stop := by
  induction h generalizing n with
  | nil start =>
    cases n with
    | zero => exact Nat.le_refl _
    | succ n => cases hbs
  | @cons start stop offset size b bs places aligned sized tail ih =>
    cases n with
    | zero => cases hbs
    | succ n =>
      rw [List.replicate_succ, List.forall₂_cons] at hbs
      obtain ⟨hb, hbs⟩ := hbs
      have hmatrix : b.type.size = 64 := by rw [type_eq_of_name_eq hb.type]; rfl
      have hsize : size = 64 := by
        rw [BlockMember.HasSize, hb.elements] at sized
        exact sized.trans hmatrix
      have hrest := ih hbs
      have hoffset := aligned.1.2
      omega

/-- As many matrices of four columns as fill `2 ^ 32` bytes. -/
def matrixUniforms : List Uniform :=
  List.replicate 67108864 matrixUniform

/-- The lexeme is no newline, blank or comment. -/
def isSignificant : Source.Lexeme → Bool
  | .newline | .blank _ | .lineComment _ | .blockComment _ => false
  | .directive _ | .terminator _ | .openParen | .closeParen | .word _ | .other _
  | .declaration .. | .unterminated .. => true

/-- The lexemes of a text without newlines, blanks and comments. -/
def significant (text : String) : List Source.Lexeme :=
  (Source.lexemes .start text.toList).filter isSignificant

/-- A matrix of four columns and a scalar, as members of a block. -/
def paddedMembers : List BlockMember :=
  [⟨none, .matrix .four, "pad", none⟩, ⟨none, .scalar .float, "a", none⟩]

/-- Behind the matrix, the scalar is not at the beginning of the block. -/
theorem ne_zero_of_paddedMembers {places : List Place} {total : Nat}
    (h : IsLayout paddedMembers places total) : ∀ place ∈ places.getLast?, place.offset ≠ 0 := by
  obtain ⟨stop, hlaid, -⟩ := h
  obtain _ | ⟨-, hsize, hscalar⟩ := hlaid
  obtain _ | ⟨haligned, -, hnil⟩ := hscalar
  cases hnil
  have hmatrix : _ = 64 := hsize
  have hoffset := haligned.1.2
  rintro place ⟨⟩ hzero
  dsimp only [List.getLast] at hzero
  omega

/-- The text that is declared for a scalar, in a group whose name begins a block with a matrix and a
comment, is that of a block which has the matrix in front of the scalar. -/
theorem declaration_eq_blockSource_paddedMembers : ∃ layout,
    ofUniforms .standard [⟨⟨none, "float", "a", 0⟩, "float a", .vertex⟩] = .ok (some layout) ∧
      layout.fields.map WordField.placeOf = [⟨0, 4⟩] ∧
      significant (layout.declaration 2 0 "m \x7b mat4 pad; //") =
        significant (blockSource 2 0 "m" paddedMembers) := by
  have hlayout : ofUniforms .standard [⟨⟨none, "float", "a", 0⟩, "float a", .vertex⟩] =
      .ok (some ⟨[⟨⟨none, "float", "a", 0⟩, 1, 4, 0⟩], 16⟩) := by decide
  have hdeclaration : declaration 2 0 "m \x7b mat4 pad; //"
      ⟨[⟨⟨none, "float", "a", 0⟩, 1, 4, 0⟩], 16⟩ =
        "layout(set = 2, binding = 0, std140) uniform ub_m \x7b mat4 pad; // \x7b
    float a;\n\x7d;\n" := by
    decide +kernel
  have hblock : blockSource 2 0 "m" paddedMembers =
      "layout(set = 2, binding = 0, std140) uniform ub_m \x7b\n    mat4 pad;
    float a;\n\x7d;\n" := by
    decide +kernel
  refine ⟨_, hlayout, by decide, ?_⟩
  rw [hdeclaration, hblock, significant, significant]
  simp only [String.reduceToList]
  decide +kernel

/-- Two kinds of blocks are not laid out by std140. The matrices have a size that wraps around. And
the name of a group may itself begin the block, with a member of its own, and hide what follows on
the line in a comment. -/
theorem not_isLayout_of_standard :
    (matrixUniforms ≠ [] ∧
      (∀ u ∈ matrixUniforms, u.typeName ∈ HostTables.standard.elementCounts.map (·.1)) ∧
      (∀ u ∈ matrixUniforms, u.arraySize ≤ 1) ∧
      ∃ layout, ofUniforms .standard matrixUniforms = .ok (some layout) ∧
        ∀ bs places total,
          List.Forall₂ BlockMember.Declares bs (matrixUniforms.map (·.toDeclarator)) →
            IsLayout bs places total → layout.totalBytes.toNat ≠ total) ∧
    ∃ layout, ofUniforms .standard [⟨⟨none, "float", "a", 0⟩, "float a", .vertex⟩] =
        .ok (some layout) ∧
      layout.fields.map WordField.placeOf = [⟨0, 4⟩] ∧
      significant (layout.declaration 2 0 "m \x7b mat4 pad; //") =
        significant (blockSource 2 0 "m" paddedMembers) ∧
      ∀ places total, IsLayout paddedMembers places total →
        ∀ place ∈ places.getLast?, place.offset ≠ 0 := by
  have hne : matrixUniforms ≠ [] := mt (List.replicate_eq_nil_iff _).1 (by decide)
  have htypes : ∀ u ∈ matrixUniforms,
      u.typeName ∈ HostTables.standard.elementCounts.map (·.1) :=
    List.forall_mem_replicate.2 (.inr (by decide))
  have hsingle : ∀ u ∈ matrixUniforms, u.arraySize ≤ 1 :=
    List.forall_mem_replicate.2 (.inr (by decide))
  obtain ⟨ms, -, hms, -⟩ := exists_members htypes hsingle
  obtain ⟨layout, hlayout, hplaces, hsame⟩ := declaration_eq_blockSource_paddedMembers
  refine ⟨⟨hne, htypes, hsingle, ofMembers ms, ofUniforms_of_mapM hne hms, ?_⟩,
    layout, hlayout, hplaces, hsame, fun _ _ h => ne_zero_of_paddedMembers h⟩
  -- the matrices alone fill all the bytes that a word can count
  rintro bs places total hbs ⟨stop, hlaid, htotal⟩ heq
  rw [matrixUniforms, List.map_replicate] at hbs
  have hword := UInt32.toNat_lt (ofMembers ms).totalBytes
  have hstop := le_stop_of_matrices hlaid hbs
  have hle := htotal.1.2
  omega

end WordLayout

/-! ## Slots of textures -/

namespace Texture

/-- The slots of `n` textures and of their samplers from the word `slot` on, counted in words. -/
def slotWords (slot : UInt32) : Nat → List (UInt32 × UInt32)
  | 0 => []
  | n + 1 => (slot, slot + 1) :: slotWords (slot + 2) n

/-- The slots that are counted in words are the slots of the textures modulo `2 ^ 32`. -/
theorem BoundFrom.slotWords_eq {tables : HostTables} {sampling : HighpSampling} {first : Nat}
    {us : List Uniform} {ts : List Texture} (h : BoundFrom tables sampling first us ts) :
    slotWords (.ofNat first) ts.length =
      ts.map fun t => (.ofNat t.textureSlot, .ofNat t.samplerSlot) := by
  induction h with
  | nil first => rfl
  | @cons first u us t ts head tail ih =>
    obtain ⟨-, dimension, -, rfl⟩ := ofUniform_eq_ok_iff.1 head
    rw [UInt32.ofNat_add] at ih
    rw [List.length_cons, slotWords, List.map_cons, UInt32.ofNat_add]
    exact congrArg _ ih

/-- The slots that are counted in words are those of the textures, if these fit into words. -/
theorem BoundFrom.map_toNat_slotWords {tables : HostTables} {sampling : HighpSampling}
    {first : Nat} {us : List Uniform} {ts : List Texture}
    (h : BoundFrom tables sampling first us ts) (hwords : FitWords first ts) :
    (slotWords (.ofNat first) ts.length).map (fun slots => (slots.1.toNat, slots.2.toNat)) =
      ts.map fun t => (t.textureSlot, t.samplerSlot) := by
  rw [h.slotWords_eq, List.map_map]
  refine List.map_congr_left fun t ht => Prod.ext ?_ ?_
  · exact UInt32.toNat_ofNat_of_lt' (hwords.textureSlot t ht)
  · exact UInt32.toNat_ofNat_of_lt' (hwords.samplerSlot t ht)

end Texture

end ShaderInterface
