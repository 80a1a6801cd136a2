import ShaderInterface.Proofs.Packing
import ShaderInterface.Proofs.WrittenDeclarators

/-!
# Lines of a uniform block

The block that declares a buffer tells everything about the buffer. Between its first line and its
last one it has a line for each field, from which the declarator of the field is read, and the
uniforms that are read from these lines have the same layout again (`relaid_of_declaration`).
-/

namespace ShaderInterface

namespace Text

/-- The lines of a text; one more line stands behind the last newline. -/
def lines (s : String) : List String :=
  (s.toList.splitOn '\n').map String.ofList

/-- A text without newlines is a single line. -/
theorem lines_of_notMem {s : String} (h : '\n' ∉ s.toList) : lines s = [s] := by
  rw [lines, List.splitOn_eq_singleton h, List.map_singleton, String.ofList_toList]

/-- A newline parts the lines in front of it from those behind it. -/
theorem lines_append_newline (s t : String) : lines (s ++ "\n" ++ t) = lines s ++ lines t := by
  have htext : (s ++ "\n" ++ t).toList = s.toList ++ '\n' :: t.toList := by simp
  have hparts : (s.toList ++ '\n' :: t.toList).splitOn '\n' =
      s.toList.splitOn '\n' ++ t.toList.splitOn '\n' := List.splitOnP_append_cons _ _ rfl
  rw [lines, htext, hparts, List.map_append]
  rfl

/-- Lines with a newline behind each stand in front of the lines of what follows them. -/
theorem lines_join_append {ls : List String} (hls : ∀ l ∈ ls, '\n' ∉ l.toList) (s : String) :
    lines (String.join (ls.map (· ++ "\n")) ++ s) = ls ++ lines s := by
  induction ls with
  | nil => exact congrArg lines String.empty_append
  | cons l ls ih =>
    rw [List.forall_mem_cons] at hls
    rw [List.map_cons, String.join_cons, String.append_assoc, lines_append_newline,
      lines_of_notMem hls.1, ih hls.2, List.singleton_append, List.cons_append]

end Text

/-- A written form has no newline. -/
theorem Declarator.IsWritten.newline_notMem_render {d : Declarator} {text : String}
    (h : d.IsWritten text) : '\n' ∉ d.render.toList := by
  intro hmem
  rw [← h.collapse_render] at hmem
  have hspace := Text.eq_space_of_mem_intercalate (fun _ => Text.isWord_of_mem_words) hmem rfl
  exact absurd hspace (by decide)

namespace BufferLayout

variable {tables : HostTables} {us : List Uniform}

/-- Uniforms with the same declarators have the same layout. -/
theorem ofUniforms_of_map_toDeclarator_eq {us' : List Uniform} {layout : Option BufferLayout}
    (h : ofUniforms tables us = .ok layout)
    (heq : us'.map (·.toDeclarator) = us.map (·.toDeclarator)) :
    ofUniforms tables us' = .ok layout := by
  have hmembers : ∀ (us : List Uniform) ms, us.mapM (Member.ofUniform tables) = .ok ms ↔
      List.Forall₂ (fun (d : Declarator) m => d.arraySize ≤ 1 ∧
        tables.elementCount? d.typeName = some m.elementCount ∧
          Member.wordBytes m.elementCount ≠ 0 ∧
          m.toDeclarator = d) (us.map (·.toDeclarator)) ms := by
    intro us ms
    simp only [Outcome.mapM_eq_ok_iff, Member.ofUniform_eq_ok_iff, List.forall₂_map_left_iff]
  simp only [ofUniforms_eq_ok_iff, hmembers] at h ⊢
  rw [heq]
  exact h

/-- The declarators of the uniforms stand in the fields, in order. -/
theorem map_toDeclarator_of_ofUniforms {layout : BufferLayout}
    (h : ofUniforms tables us = .ok (some layout)) :
    layout.fields.map (·.toDeclarator) = us.map (·.toDeclarator) := by
  obtain ⟨-, ms, hms, rfl⟩ := ofUniforms_eq_ok_some_iff.1 h
  rw [fields_ofMembers, map_toDeclarator_fieldsFrom, map_toDeclarator_of_mapM hms]

/-- The line that begins the block of a buffer. -/
def blockLine (group slot : Nat) (groupName : String) : String :=
  "layout(set = " ++ toString group ++ ", binding = " ++ toString slot ++ ", std140) uniform ub_"
    ++ groupName ++ " \x7b"

/-- The lines of a block, if no field has a newline. -/
theorem lines_declaration {layout : BufferLayout}
    (hfields : ∀ f ∈ layout.fields, '\n' ∉ f.render.toList) (group slot : Nat)
    (groupName : String) : Text.lines (layout.declaration group slot groupName) =
      Text.lines (blockLine group slot groupName) ++
        (layout.fields.map (fun f => "    " ++ f.render ++ ";") ++ ["\x7d;", ""]) := by
  have hlines : ∀ l ∈ layout.fields.map (fun f => "    " ++ f.render ++ ";"),
      '\n' ∉ l.toList := by
    intro l hl
    obtain ⟨f, hf, rfl⟩ := List.mem_map.1 hl
    simp [hfields f hf]
  have hrows : layout.fields.map fieldLine =
      (layout.fields.map (fun f => "    " ++ f.render ++ ";")).map (· ++ "\n") := by
    have hend : ";\n" = ";" ++ "\n" := rfl
    rw [List.map_map]
    refine List.map_congr_left fun f _ => ?_
    rw [fieldLine, hend, ← String.append_assoc]
    rfl
  have htext : layout.declaration group slot groupName = blockLine group slot groupName ++ "\n" ++
      (String.join (layout.fields.map fieldLine) ++ "\x7d;\n") := by
    have hfirst : " \x7b\n" = " \x7b" ++ "\n" := rfl
    unfold declaration blockLine
    rw [hfirst]
    simp only [String.append_assoc]
  rw [htext, hrows, Text.lines_append_newline, Text.lines_join_append hlines]
  rfl

/-- The block of a buffer has a line for each field between its first line and its last one. If the
uniforms of the buffer were read, then what stands in these lines is read as the declarators of the
fields, and the uniforms that are read have the same layout. -/
theorem relaid_of_declaration {lines : List (Stage × String)} {layout : BufferLayout}
    (hread : Uniform.parseAll lines = .ok us) (hlayout : ofUniforms tables us = .ok (some layout))
    (group slot : Nat) (groupName : String) (stage : Stage) :
    Text.lines (layout.declaration group slot groupName) =
      Text.lines (blockLine group slot groupName) ++
        (layout.fields.map (fun f => "    " ++ f.render ++ ";") ++ ["\x7d;", ""]) ∧
    ∃ us', Uniform.parseAll (layout.fields.map fun f => (stage, f.render)) = .ok us' ∧
      us'.map (·.toDeclarator) = layout.fields.map (·.toDeclarator) ∧
      ofUniforms tables us' = .ok (some layout) := by
  have hwritten : ∀ f ∈ layout.fields, ∃ text, f.toDeclarator.IsWritten text := by
    intro f hf
    apply Uniform.exists_isWritten_of_mem (Uniform.isRead_of_parseAll hread)
    rw [← map_toDeclarator_of_ofUniforms hlayout]
    exact List.mem_map_of_mem hf
  have hfields : (layout.fields.map fun f => (⟨f.toDeclarator, f.render, stage⟩ : Uniform)).map
      (·.toDeclarator) = layout.fields.map (·.toDeclarator) := by
    rw [List.map_map]
    rfl
  constructor
  · apply lines_declaration
    intro f hf
    obtain ⟨text, htext⟩ := hwritten f hf
    exact htext.newline_notMem_render
  · refine ⟨layout.fields.map fun f => ⟨f.toDeclarator, f.render, stage⟩, ?_, hfields, ?_⟩
    · rw [Uniform.parseAll, Outcome.mapM_eq_ok_iff, List.forall₂_map_left_iff,
        List.forall₂_map_right_iff, List.forall₂_same]
      intro f hf
      obtain ⟨text, htext⟩ := hwritten f hf
      refine Uniform.parse_eq_ok_iff.2 ⟨?_, rfl, rfl⟩
      exact Declarator.parse_eq_ok_iff_isWritten.2 htext.render
    · exact ofUniforms_of_map_toDeclarator_eq hlayout
        (hfields.trans (map_toDeclarator_of_ofUniforms hlayout))

/-- The field lines of a block that was read from two lines with blanks and sizes of 0 and 1. -/
theorem relaid_of_declaration_tintLines :
    let lines : List (Stage × String) :=
      [(.vertex, "highp  vec3\ttint [ 0 ]"), (.fragment, "float gain[01]")]
    let us : List Uniform :=
      [⟨⟨some .high, "vec3", "tint", 0⟩, "highp  vec3\ttint [ 0 ]", .vertex⟩,
        ⟨⟨none, "float", "gain", 1⟩, "float gain[01]", .fragment⟩]
    let layout : BufferLayout :=
      ⟨[⟨⟨⟨some .high, "vec3", "tint", 0⟩, 3⟩, 0⟩, ⟨⟨⟨none, "float", "gain", 1⟩, 1⟩, 16⟩]⟩
    Uniform.parseAll lines = .ok us ∧ ofUniforms .standard us = .ok (some layout) ∧
    Text.lines (layout.declaration 2 0 "sky") =
      ["layout(set = 2, binding = 0, std140) uniform ub_sky \x7b", "    highp vec3 tint;",
        "    float gain[1];", "\x7d;", ""] ∧
    ∃ us', Uniform.parseAll [(.vertex, "highp vec3 tint"), (.vertex, "float gain[1]")] = .ok us' ∧
      us'.map (·.toDeclarator) = layout.fields.map (·.toDeclarator) ∧
      ofUniforms .standard us' = .ok (some layout) := by
  intro lines us layout
  have hread : Uniform.parseAll lines = .ok us := by decide
  have hlayout : ofUniforms .standard us = .ok (some layout) := by decide
  obtain ⟨hlines, hrelaid⟩ := relaid_of_declaration hread hlayout 2 0 "sky" .vertex
  refine ⟨hread, hlayout, ?_, hrelaid⟩
  rw [hlines]
  decide

end BufferLayout

end ShaderInterface
